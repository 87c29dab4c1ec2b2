import Mathlib.Algebra.Order.Field.Basic
import Mathlib.Data.Rat.Cast.Order
import Mathlib.Order.Monotone.Basic
import Mathlib.Tactic.FieldSimp
import Mathlib.Tactic.Linarith
import Mathlib.Tactic.Ring
import Broadcast.Number

/-!
# Rounding to the nearest datum

A finite datum stands for a rational number, a multiple of the smallest positive one
(`Binary.value?`). Rounding gives the datum whose number is nearest to the exact result, and of two
that are equally near the one with an even last bit (`Binary.isNearest_round`), as long as the
result does not overflow.

* `roundHalfEven_nearest` — a rounded quotient is nearest among all whole numbers
* `Format.units_add` — a magnitude is a significand and a count of the bits below it; a significand
  that has been rounded up to the next power of two carries into the exponent field
* `Format.units_near` — data that are no multiple of the last kept bit lie below the leading bit, and
  so on the far side of a kept number
-/

namespace Broadcast

/-! ## Rounded quotients -/

section Quotient

variable {n d : Nat}

theorem roundHalfEven_of_dvd (h : d ∣ n) : roundHalfEven n d = n / d := by
  obtain ⟨q, rfl⟩ := h
  rcases Nat.eq_zero_or_pos d with rfl | hd
  · simp [roundHalfEven]
  · simp [roundHalfEven, hd]

/-- A common factor of both parts does not count. -/
theorem roundHalfEven_mul_right (n d : Nat) {c : Nat} (hc : 0 < c) :
    roundHalfEven (n * c) (d * c) = roundHalfEven n d := by
  have hlt : 2 * (n % d * c) < d * c ↔ 2 * (n % d) < d := by
    rw [← Nat.mul_assoc, Nat.mul_lt_mul_right hc]
  have heq : 2 * (n % d * c) = d * c ↔ 2 * (n % d) = d := by
    rw [← Nat.mul_assoc, Nat.mul_left_inj hc.ne']
  simp only [roundHalfEven, Nat.mul_mod_mul_right, Nat.mul_div_mul_right _ _ hc, hlt, heq]

theorem roundHalfEven_bounds (n d : Nat) :
    n / d ≤ roundHalfEven n d ∧ roundHalfEven n d ≤ n / d + 1 := by
  unfold roundHalfEven
  split <;> omega

/-- The error is at most half of the divisor, and less unless the quotient is a tie. -/
theorem roundHalfEven_error (n : Nat) {d : Nat} (hd : 0 < d) :
    2 * |(roundHalfEven n d * d : Int) - n| ≤ d ∧
      (2 * (n % d) ≠ d → 2 * |(roundHalfEven n d * d : Int) - n| < d) := by
  have hn : (n : Int) = n / d * d + n % d := by
    rw [Int.mul_comm]
    exact (Int.mul_ediv_add_emod n d).symm
  have hr : ((n % d : Nat) : Int) = n % d := Int.natCast_emod n d
  have hlt := Nat.mod_lt n hd
  unfold roundHalfEven
  split
  · have herror : |((n / d : Nat) * d : Int) - n| = n % d := by
      rw [Int.natCast_ediv, abs_sub_comm, abs_of_nonneg] <;> omega
    rw [herror]
    omega
  · have herror : |((n / d + 1 : Nat) * d : Int) - n| = d - n % d := by
      rw [Nat.cast_add, Int.natCast_ediv, add_mul, abs_of_nonneg] <;> omega
    rw [herror]
    omega

theorem roundHalfEven_even_of_tie (h : 2 * (n % d) = d) : roundHalfEven n d % 2 = 0 := by
  unfold roundHalfEven
  split <;> omega

/-- Half a step of error is less than the error of any other multiple. -/
theorem error_le_of_ne {r j d n : Int} (hr : 2 * |r * d - n| ≤ d) (hj : j ≠ r) :
    |r * d - n| ≤ |j * d - n| ∧ (2 * |r * d - n| < d → |r * d - n| < |j * d - n|) := by
  have hd : 0 ≤ d := (by positivity : (0 : Int) ≤ 2 * |r * d - n|).trans hr
  have hstep : d ≤ |j * d - r * d| := by
    have hone : (1 : Int) ≤ |j - r| := Int.one_le_abs (sub_ne_zero.mpr hj)
    rw [← sub_mul, abs_mul, abs_of_nonneg hd]
    exact le_mul_of_one_le_left hd hone
  have htriangle := abs_sub_le (j * d) n (r * d)
  rw [abs_sub_comm n] at htriangle
  constructor
  · linarith
  · intro hlt
    linarith

/-- No whole number is nearer to a quotient than the rounded one, and that is even on a tie. -/
theorem roundHalfEven_nearest (hd : 0 < d) {j : Int} (hj : j ≠ roundHalfEven n d) :
    |(roundHalfEven n d * d : Int) - n| < |j * d - n| ∨
      |(roundHalfEven n d * d : Int) - n| = |j * d - n| ∧ roundHalfEven n d % 2 = 0 := by
  obtain ⟨hle, hlt⟩ := roundHalfEven_error n hd
  obtain ⟨hnear, hnearer⟩ := error_le_of_ne hle hj
  by_cases htie : 2 * (n % d) = d
  · rcases hnear.lt_or_eq with h | h
    · exact .inl h
    · exact .inr ⟨h, roundHalfEven_even_of_tie htie⟩
  · exact .inl (hnearer (hlt htie))

end Quotient

/-! ## Magnitudes -/

namespace Format

variable (f : Format)

theorem leadingOne_eq : f.leadingOne = 2 ^ f.fraction :=
  Nat.one_shiftLeft _

theorem two_pow_precision : 2 ^ f.precision = 2 * f.leadingOne := by
  rw [leadingOne_eq, precision, Nat.pow_succ, Nat.mul_comm]

theorem leadingOne_pos : 0 < f.leadingOne := by
  rw [leadingOne_eq]
  exact Nat.two_pow_pos _

/-- A significand with `k` bits below it, also one that has been rounded up to a power of two. -/
theorem units_add {t k : Nat} (ht : t ≤ 2 ^ f.precision) (hk : k = 0 ∨ f.leadingOne ≤ t) :
    f.units (k * f.leadingOne + t) = t * 2 ^ k := by
  have hpos := f.leadingOne_pos
  rw [two_pow_precision] at ht
  unfold units
  generalize f.leadingOne = one at *
  rcases Nat.lt_or_ge t one with hlt | hge
  · obtain rfl : k = 0 := by omega
    simp [hlt]
  have hnot : ¬ k * one + t < one := by omega
  rw [if_neg hnot, Nat.shiftLeft_eq]
  rcases Nat.lt_or_ge t (2 * one) with hlt | hcarry
  · have hm : k * one + t = (t - one) + one * (k + 1) := by
      rw [Nat.mul_add, Nat.mul_comm k]
      omega
    rw [hm, Nat.add_mul_mod_self_left, Nat.add_mul_div_left _ _ hpos,
      Nat.mod_eq_of_lt (by omega : t - one < one), Nat.div_eq_of_lt (by omega : t - one < one)]
    rw [Nat.zero_add, Nat.add_sub_cancel, Nat.add_sub_cancel' hge]
  · have hm : k * one + t = one * (k + 2) := by
      rw [Nat.mul_add, Nat.mul_comm k]
      omega
    rw [hm, Nat.mul_mod_right, Nat.mul_div_cancel_left _ hpos,
      show k + 2 - 1 = k + 1 from rfl, pow_succ, show t = one * 2 by omega]
    ring

/-- Every magnitude is a significand and a count of the bits below it. -/
theorem exists_significand (m : Nat) :
    ∃ t k, m = k * f.leadingOne + t ∧ t < 2 ^ f.precision ∧ (k = 0 ∨ f.leadingOne ≤ t) := by
  have hpos := f.leadingOne_pos
  rw [two_pow_precision]
  rcases Nat.lt_or_ge m f.leadingOne with hlt | hge
  · exact ⟨m, 0, by omega, by omega, .inl rfl⟩
  · have hdiv : 0 < m / f.leadingOne := Nat.div_pos hge hpos
    have hmod := Nat.mod_lt m hpos
    refine ⟨f.leadingOne + m % f.leadingOne, m / f.leadingOne - 1, ?_, by omega, .inr (by omega)⟩
    obtain ⟨q, hq⟩ : ∃ q, m / f.leadingOne = q + 1 := ⟨m / f.leadingOne - 1, by omega⟩
    have hm := Nat.div_add_mod m f.leadingOne
    rw [hq, Nat.mul_add, Nat.mul_comm] at hm
    rw [hq, Nat.add_sub_cancel]
    omega

/-- Magnitudes are ordered as the numbers they stand for. -/
theorem units_strictMono : StrictMono f.units := by
  refine strictMono_nat_of_lt_succ fun m => ?_
  obtain ⟨t, k, rfl, ht, hk⟩ := f.exists_significand m
  have hk' : k = 0 ∨ f.leadingOne ≤ t + 1 := hk.imp_right Nat.le_succ_of_le
  rw [Nat.add_assoc, f.units_add ht.le hk, f.units_add ht hk']
  exact Nat.mul_lt_mul_of_pos_right (Nat.lt_succ_self t) (Nat.two_pow_pos k)

/-- A number of the format is a multiple of a power of two, or lies below a full significand of it. -/
theorem units_near (m k : Nat) :
    2 ^ k ∣ f.units m ∨ f.units m < f.leadingOne * 2 ^ k := by
  obtain ⟨t, j, rfl, ht, hj⟩ := f.exists_significand m
  rw [f.units_add ht.le hj]
  rcases Nat.lt_or_ge j k with hlt | hge
  · right
    obtain ⟨i, rfl⟩ : ∃ i, k = j + 1 + i := ⟨k - (j + 1), by omega⟩
    have hpow : 2 ^ (j + 1) ≤ 2 ^ (j + 1 + i) := Nat.pow_le_pow_right (by decide) (by omega)
    calc t * 2 ^ j
      _ < 2 ^ f.precision * 2 ^ j := Nat.mul_lt_mul_of_pos_right ht (Nat.two_pow_pos j)
      _ = f.leadingOne * 2 ^ (j + 1) := by rw [two_pow_precision, pow_succ]; ring
      _ ≤ f.leadingOne * 2 ^ (j + 1 + i) := Nat.mul_le_mul_left _ hpow
  · exact .inl ((pow_dvd_pow 2 hge).mul_left t)

/-! ## Rounding a number of units -/

/-- The number of low bits that rounding takes away from `n` units over two to the power of `s`. -/
def dropped (n s : Nat) : Nat :=
  n.log2 + 1 - (f.precision + s)

/-- The significand that rounding keeps of `n` units over two to the power of `s`. -/
def significand (n s : Nat) : Nat :=
  roundHalfEven n (2 ^ (s + f.dropped n s))

variable {n s : Nat}

theorem leadingOne_mul_le (h : 0 < f.dropped n s) :
    f.leadingOne * 2 ^ (s + f.dropped n s) ≤ n := by
  have hlog : f.fraction + (s + f.dropped n s) = n.log2 := by
    unfold dropped precision at *
    omega
  have hn : n ≠ 0 := by
    rintro rfl
    simp [dropped, precision] at h
  rw [leadingOne_eq, ← pow_add, hlog]
  exact Nat.log2_self_le hn

/-- The kept significand has as many bits as the format allows, or is one more than that. -/
theorem significand_bounds :
    f.significand n s ≤ 2 ^ f.precision ∧
      (f.dropped n s = 0 ∨ f.leadingOne ≤ f.significand n s) := by
  obtain ⟨hlow, hhigh⟩ := roundHalfEven_bounds n (2 ^ (s + f.dropped n s))
  have hpos : 0 < 2 ^ (s + f.dropped n s) := Nat.two_pow_pos _
  have hquotient : n / 2 ^ (s + f.dropped n s) < 2 ^ f.precision := by
    refine Nat.div_lt_of_lt_mul ?_
    rw [← pow_add]
    have hbits : n.log2 + 1 ≤ s + f.dropped n s + f.precision := by
      unfold dropped
      omega
    exact Nat.lt_log2_self.trans_le (Nat.pow_le_pow_right (by decide) hbits)
  refine ⟨hhigh.trans hquotient, ?_⟩
  rcases Nat.eq_zero_or_pos (f.dropped n s) with hzero | hdrop
  · exact .inl hzero
  · exact .inr (((Nat.le_div_iff_mul_le hpos).mpr (f.leadingOne_mul_le hdrop)).trans hlow)

theorem magnitude_lt_infinity (h : f.dropped n s + 3 < 2 ^ f.exponent) :
    f.dropped n s * f.leadingOne + f.significand n s < f.infinity := by
  have hle := (f.significand_bounds (n := n) (s := s)).1
  rw [two_pow_precision] at hle
  have hmul : (f.dropped n s + 3) * f.leadingOne ≤ (2 ^ f.exponent - 1) * f.leadingOne :=
    Nat.mul_le_mul_right _ (by omega)
  rw [infinity, Nat.one_shiftLeft]
  have hpos := f.leadingOne_pos
  rw [Nat.add_mul] at hmul
  omega

/-- No multiple of the last kept bit is nearer than the kept significand, which is even on a tie. -/
theorem significand_nearest {j : Int} (hj : j ≠ f.significand n s) :
    |(f.significand n s * 2 ^ (s + f.dropped n s) : Int) - n| < |j * 2 ^ (s + f.dropped n s) - n| ∨
      |(f.significand n s * 2 ^ (s + f.dropped n s) : Int) - n|
          = |j * 2 ^ (s + f.dropped n s) - n| ∧ f.significand n s % 2 = 0 := by
  have hnear := roundHalfEven_nearest (Nat.two_pow_pos (s + f.dropped n s)) hj
  simp only [Nat.cast_pow, Nat.cast_ofNat] at hnear
  exact hnear

/-- A number below the leading bit is further away: the leading bit lies between it and `n`. -/
theorem significand_nearer_of_lt (hdrop : 0 < f.dropped n s) {y : Int}
    (hy : y < f.leadingOne * 2 ^ f.dropped n s) :
    |(f.significand n s * 2 ^ (s + f.dropped n s) : Int) - n| < |y * 2 ^ s - n| := by
  have hleading : |(f.significand n s * 2 ^ (s + f.dropped n s) : Int) - n|
      ≤ |(f.leadingOne * 2 ^ (s + f.dropped n s) : Int) - n| := by
    by_cases heq : (f.leadingOne : Int) = f.significand n s
    · rw [heq]
    · exact (f.significand_nearest heq).elim le_of_lt fun h => h.1.le
  have hn : (f.leadingOne * 2 ^ (s + f.dropped n s) : Int) ≤ n := by
    exact_mod_cast f.leadingOne_mul_le hdrop
  have hbelow : y * 2 ^ s < f.leadingOne * 2 ^ (s + f.dropped n s) := by
    rw [pow_add, mul_comm ((2 : Int) ^ s), ← mul_assoc]
    exact Int.mul_lt_mul_of_pos_right hy (pow_pos zero_lt_two s)
  rw [abs_of_nonpos (sub_nonpos.mpr hn)] at hleading
  rw [abs_of_nonpos (by linarith : y * 2 ^ s - (n : Int) ≤ 0)]
  linarith

/-- No number of the format is nearer than the rounded one, and that is even on a tie. -/
theorem units_nearest {m : Nat} {y : Int} (hy : y.natAbs = f.units m)
    (hne : y ≠ f.significand n s * 2 ^ f.dropped n s) :
    |(f.significand n s * 2 ^ f.dropped n s * 2 ^ s : Int) - n| < |y * 2 ^ s - n| ∨
      |(f.significand n s * 2 ^ f.dropped n s * 2 ^ s : Int) - n| = |y * 2 ^ s - n| ∧
        f.significand n s % 2 = 0 := by
  have hpow : (2 : Int) ^ f.dropped n s * 2 ^ s = 2 ^ (s + f.dropped n s) := by
    rw [pow_add, mul_comm]
  rw [mul_assoc, hpow]
  by_cases hdvd : 2 ^ f.dropped n s ∣ f.units m
  · -- The other number is a multiple of the last kept bit as well.
    obtain ⟨j, rfl⟩ : (2 : Int) ^ f.dropped n s ∣ y := by
      rw [← Int.natAbs_dvd_natAbs, Int.natAbs_pow, hy]
      exact hdvd
    have hj : j ≠ f.significand n s := by
      rintro rfl
      exact hne (mul_comm _ _)
    rw [mul_comm _ j, mul_assoc, hpow]
    exact f.significand_nearest hj
  · have hlt := (f.units_near m (f.dropped n s)).resolve_left hdvd
    have hdrop : 0 < f.dropped n s := by
      refine Nat.pos_of_ne_zero fun hzero => hdvd ?_
      rw [hzero, pow_zero]
      exact one_dvd _
    have hy' : y < f.leadingOne * 2 ^ f.dropped n s := by
      have hlt' : (f.units m : Int) < f.leadingOne * 2 ^ f.dropped n s := by exact_mod_cast hlt
      omega
    exact .inl (f.significand_nearer_of_lt hdrop hy')

end Format

/-! ## Data as numbers -/

namespace Binary

variable {f : Format}

/-- The rational number that a finite datum stands for. -/
def value? (x : Binary f) : Option ℚ :=
  match x.decode with
  | .finite negative m => some ((withSign negative m : ℚ) / 2 ^ f.scale)
  | _ => none

/-- Whether the last bit of a datum is zero. -/
def isEven : Binary f → Bool
  | .nan => false
  | .num _ m _ => m % 2 = 0

/--
The datum stands for a number that is nearest to `q`: every other number of the format is further
away, or just as far and then the datum is the even one.
-/
def IsNearest (x : Binary f) (q : ℚ) : Prop :=
  ∃ r, x.value? = some r ∧ ∀ (y : Binary f) (s : ℚ), y.value? = some s → s ≠ r →
    |r - q| < |s - q| ∨ |r - q| = |s - q| ∧ x.isEven

theorem value?_of_decode {x : Binary f} {negative : Bool} {m : Nat}
    (h : x.decode = .finite negative m) :
    x.value? = some ((withSign negative m : ℚ) / 2 ^ f.scale) := by
  rw [value?, h]

theorem decode_eq_finite {x : Binary f} {negative : Bool} {u : Nat}
    (h : x.decode = .finite negative u) :
    ∃ m hm, x = num negative m hm ∧ m < f.infinity ∧ f.units m = u := by
  cases x with
  | nan => cases h
  | num sign m hm =>
    rw [decode] at h
    split at h
    · cases h
    · next hne =>
      cases h
      exact ⟨m, hm, rfl, Nat.lt_of_le_of_ne hm hne, rfl⟩

theorem value?_eq_some {x : Binary f} {r : ℚ} (h : x.value? = some r) :
    ∃ negative m, x.decode = .finite negative (f.units m) ∧
      r = withSign negative (f.units m) / 2 ^ f.scale := by
  unfold value? at h
  split at h
  · next negative u hdecode =>
    obtain ⟨m, _, _, _, rfl⟩ := decode_eq_finite hdecode
    exact ⟨negative, m, hdecode, (Option.some.inj h).symm⟩
  · cases h

theorem natAbs_withSign (negative : Bool) (m : Nat) : (withSign negative m).natAbs = m := by
  cases negative <;> simp [withSign]

section Round

variable {n s : Nat} (negative : Bool)

/-- A rounded number that does not overflow has its significand and exponent side by side. -/
theorem round_eq (h : f.dropped n s + 3 < 2 ^ f.exponent) :
    ∃ hle, (round negative n s : Binary f)
      = .num negative (f.dropped n s * f.leadingOne + f.significand n s) hle := by
  have hlt := f.magnitude_lt_infinity h
  refine ⟨hlt.le, ?_⟩
  have hmin : min (f.dropped n s * f.leadingOne + f.significand n s) f.infinity
      = f.dropped n s * f.leadingOne + f.significand n s := Nat.min_eq_left hlt.le
  simp only [round, Nat.one_shiftLeft, num.injEq, true_and]
  exact hmin

theorem decode_round (h : f.dropped n s + 3 < 2 ^ f.exponent) :
    (round negative n s : Binary f).decode
      = .finite negative (f.significand n s * 2 ^ f.dropped n s) := by
  obtain ⟨hle, heq⟩ := round_eq negative h
  obtain ⟨hsignificand, hcarry⟩ := f.significand_bounds (n := n) (s := s)
  rw [heq, decode, if_neg (f.magnitude_lt_infinity h).ne, f.units_add hsignificand hcarry]

theorem isEven_round (hf : 0 < f.fraction) (h : f.dropped n s + 3 < 2 ^ f.exponent) :
    (round negative n s : Binary f).isEven = decide (f.significand n s % 2 = 0) := by
  obtain ⟨hle, heq⟩ := round_eq negative h
  have heven : f.dropped n s * f.leadingOne % 2 = 0 := by
    obtain ⟨k, hk⟩ : ∃ k, f.fraction = k + 1 := ⟨f.fraction - 1, by omega⟩
    rw [f.leadingOne_eq, hk, pow_succ, ← Nat.mul_assoc, Nat.mul_mod_left]
  rw [heq, isEven, Nat.add_mod, heven, Nat.zero_add, Nat.mod_mod]

/-- The same as for magnitudes, with the sign of the rounded number. -/
theorem withSign_nearest {m : Nat} {y : Int} (hy : y.natAbs = f.units m)
    (hne : y ≠ withSign negative (f.significand n s * 2 ^ f.dropped n s)) :
    let x := withSign negative (f.significand n s * 2 ^ f.dropped n s)
    |x * 2 ^ s - withSign negative n| < |y * 2 ^ s - withSign negative n| ∨
      |x * 2 ^ s - withSign negative n| = |y * 2 ^ s - withSign negative n| ∧
        f.significand n s % 2 = 0 := by
  cases negative with
  | false =>
    simp only [withSign, Bool.false_eq_true, if_false, Nat.cast_mul, Nat.cast_pow,
      Nat.cast_ofNat] at hne ⊢
    exact f.units_nearest hy hne
  | true =>
    simp only [withSign, if_true, Nat.cast_mul, Nat.cast_pow, Nat.cast_ofNat] at hne ⊢
    have hopposite : |y * 2 ^ s - -(n : Int)| = |-y * 2 ^ s - n| := by
      rw [sub_neg_eq_add, neg_mul, ← neg_add', abs_neg]
    rw [hopposite, neg_mul, neg_sub_neg, abs_sub_comm]
    exact f.units_nearest (Int.natAbs_neg y ▸ hy) fun h => hne (neg_eq_iff_eq_neg.mp h)

/-- A difference of two numbers over a common denominator. -/
theorem abs_div_sub_div (x z : Int) (c s : Nat) :
    |(x : ℚ) / 2 ^ c - z / 2 ^ (s + c)| = |x * 2 ^ s - z| / 2 ^ (s + c) := by
  have hx : (x : ℚ) / 2 ^ c = x * 2 ^ s / 2 ^ (s + c) := by
    rw [pow_add]
    field_simp
  rw [hx, ← sub_div, abs_div, abs_of_pos (by positivity : (0 : ℚ) < 2 ^ (s + c))]
  push_cast
  rfl

/--
**Rounding is to the nearest datum.** In a format with a fraction field, a number of units over a
power of two rounds to the datum nearest to it, a tie going to the even one, unless it overflows.
-/
theorem isNearest_round (hf : 0 < f.fraction) (h : f.dropped n s + 3 < 2 ^ f.exponent) :
    (round negative n s : Binary f).IsNearest (withSign negative n / 2 ^ (s + f.scale)) := by
  refine ⟨_, value?_of_decode (decode_round negative h), ?_⟩
  intro y r hy hne
  obtain ⟨sign, m, _, rfl⟩ := value?_eq_some hy
  have hpos : (0 : ℚ) < 2 ^ (s + f.scale) := by positivity
  have hne' : withSign sign (f.units m)
      ≠ withSign negative (f.significand n s * 2 ^ f.dropped n s) :=
    fun heq => hne (by rw [heq])
  rw [abs_div_sub_div, abs_div_sub_div, div_lt_div_iff_of_pos_right hpos,
    div_left_inj' hpos.ne', Int.cast_lt, Int.cast_inj, isEven_round negative hf h,
    decide_eq_true_eq]
  exact withSign_nearest negative (natAbs_withSign sign _) hne'

end Round

end Binary

end Broadcast
