import Broadcast.Proofs.Integers
import Broadcast.Proofs.SignificantBits

/-!
# Rounding twice

Integers become single-precision numbers by way of double precision, so they are rounded twice. The
second rounding sees only what the first one has left. If the first one moves a number onto a tie of
the second, the tie is decided by the even last bit and no more by the side that the number came
from. That is the only way in which two roundings differ from one (`roundTo_roundTo_iff`), and in
each such case the result of one rounding is strictly nearer (`roundTo_closer_of_misrounds`).
-/

namespace Broadcast

/-! ## Two roundings of a quotient -/

/--
The number is no tie between two multiples of `coarse`, but its distance to one is at most half of
`fine`, and the even one of the two multiples lies across the tie.
-/
def PulledOntoTie (fine coarse n : Nat) : Prop :=
  if n / coarse % 2 = 0 then coarse < 2 * (n % coarse) ∧ 2 * (n % coarse) ≤ coarse + fine
  else 2 * (n % coarse) < coarse ∧ coarse ≤ 2 * (n % coarse) + fine

instance (fine coarse n : Nat) : Decidable (PulledOntoTie fine coarse n) :=
  inferInstanceAs (Decidable (if n / coarse % 2 = 0 then _ else _))

theorem PulledOntoTie.not_tie {fine coarse n : Nat} (h : PulledOntoTie fine coarse n) :
    2 * (n % coarse) ≠ coarse := by
  unfold PulledOntoTie at h
  split at h <;> omega

/-- The rounded quotient of a number that is given by quotient and remainder. -/
theorem roundHalfEven_add {d r : Nat} (q : Nat) (hd : 0 < d) (hr : r ≤ d) :
    roundHalfEven (q * d + r) d = if 2 * r < d ∨ 2 * r = d ∧ q % 2 = 0 then q else q + 1 := by
  rcases hr.lt_or_eq with hlt | rfl
  · rw [roundHalfEven, Nat.mul_add_mod_self_right, Nat.mod_eq_of_lt hlt, Nat.add_comm,
      Nat.add_mul_div_right _ _ hd, Nat.div_eq_of_lt hlt, Nat.zero_add]
  · rw [if_neg (by omega), ← Nat.succ_mul, roundHalfEven_of_dvd (Nat.dvd_mul_left ..),
      Nat.mul_div_cancel _ hd]

/-- The first rounding moves the quotient up or not, by its own remainder `w`. -/
theorem roundHalfEven_first {a b u w : Nat} (q : Nat) (ha : 0 < a) (hw : w < a) (hb : b % 2 = 0) :
    ∃ up, roundHalfEven ((q * b + u) * a + w) a = q * b + (u + up) ∧
      (up = 0 ∧ (2 * w < a ∨ 2 * w = a ∧ u % 2 = 0) ∨
        up = 1 ∧ (a < 2 * w ∨ 2 * w = a ∧ u % 2 = 1)) := by
  have heven : q * b % 2 = 0 := by rw [Nat.mul_mod, hb, Nat.mul_zero, Nat.zero_mod]
  rw [roundHalfEven_add _ ha hw.le]
  split
  · exact ⟨0, rfl, by omega⟩
  · exact ⟨1, rfl, by omega⟩

/-- The tie of the coarse step is at `2 * c` fine steps, so only the steps next to it matter. -/
theorem beside_tie_iff {a c u w up q : Nat} (hw : w < a)
    (hup : up = 0 ∧ (2 * w < a ∨ 2 * w = a ∧ u % 2 = 0) ∨
      up = 1 ∧ (a < 2 * w ∨ 2 * w = a ∧ u % 2 = 1)) :
    ((2 * (u + up) < 4 * c ∨ 2 * (u + up) = 4 * c ∧ q % 2 = 0) ↔
      (2 * (u * a + w) < 4 * c * a ∨ 2 * (u * a + w) = 4 * c * a ∧ q % 2 = 0)) ↔
    ¬ if q % 2 = 0 then 4 * c * a < 2 * (u * a + w) ∧ 2 * (u * a + w) ≤ 4 * c * a + a
      else 2 * (u * a + w) < 4 * c * a ∧ 4 * c * a ≤ 2 * (u * a + w) + a := by
  have hcoarse : 4 * c * a = 4 * (c * a) := Nat.mul_assoc ..
  have htie : 2 * c * a = 2 * (c * a) := Nat.mul_assoc ..
  rw [hcoarse]
  rcases (by omega : u + 2 ≤ 2 * c ∨ u + 1 = 2 * c ∨ u = 2 * c ∨ 2 * c + 1 ≤ u) with
    hbelow | hbefore | hat | hbeyond
  · have hmul := Nat.mul_le_mul_right a hbelow
    rw [Nat.add_mul] at hmul
    split <;> omega
  · have hmul : (u + 1) * a = 2 * c * a := by rw [hbefore]
    rw [Nat.add_mul, Nat.one_mul] at hmul
    split <;> omega
  · have hmul : u * a = 2 * c * a := by rw [hat]
    split <;> omega
  · have hmul := Nat.mul_le_mul_right a hbeyond
    rw [Nat.add_mul, Nat.one_mul] at hmul
    split <;> omega

/--
Rounding to a fine step and then to a coarse one differs from rounding to the coarse one at once
only beside a tie. The coarse step is a multiple of four fine ones, so that a tie of it is an even
number of fine steps.
-/
theorem roundHalfEven_roundHalfEven_iff {a b : Nat} (ha : 0 < a) (hb : 0 < b) (hfour : 4 ∣ b)
    (n : Nat) : roundHalfEven (roundHalfEven n a) b = roundHalfEven n (b * a) ↔
      ¬ PulledOntoTie a (b * a) n := by
  obtain ⟨c, rfl⟩ := hfour
  have hcoarse : 0 < 4 * c * a := Nat.mul_pos hb ha
  -- `n` is `q` coarse steps, `u` fine steps and the rest `w`.
  obtain ⟨q, r, hr, rfl⟩ : ∃ q r, r < 4 * c * a ∧ n = q * (4 * c * a) + r :=
    ⟨_, _, Nat.mod_lt n hcoarse, (Nat.div_add_mod' ..).symm⟩
  obtain ⟨u, w, hw, rfl⟩ : ∃ u w, w < a ∧ r = u * a + w :=
    ⟨_, _, Nat.mod_lt r ha, (Nat.div_add_mod' ..).symm⟩
  have hu : u < 4 * c := Nat.lt_of_mul_lt_mul_right ((Nat.le_add_right _ w).trans_lt hr)
  obtain ⟨up, hfirst, hup⟩ := roundHalfEven_first (u := u) q ha hw (by omega : 4 * c % 2 = 0)
  have hfine : q * (4 * c * a) + (u * a + w) = (q * (4 * c) + u) * a + w := by ring
  have hdiv : (q * (4 * c * a) + (u * a + w)) / (4 * c * a) = q := by
    rw [Nat.add_comm, Nat.add_mul_div_right _ _ hcoarse, Nat.div_eq_of_lt hr, Nat.zero_add]
  have hmod : (q * (4 * c * a) + (u * a + w)) % (4 * c * a) = u * a + w := by
    rw [Nat.mul_add_mod_self_right, Nat.mod_eq_of_lt hr]
  have hsame : ∀ (A B : Prop) [Decidable A] [Decidable B],
      (if A then q else q + 1) = (if B then q else q + 1) ↔ (A ↔ B) := by
    intro A B _ _
    split <;> split <;> simp_all
  rw [roundHalfEven_add q hcoarse hr.le, hfine, hfirst, roundHalfEven_add q hb (by omega), hsame,
    ← hfine, PulledOntoTie, hdiv, hmod]
  exact beside_tie_iff hw hup

/-! ## Two roundings to significant bits -/

/--
The number has more than `q` significant bits and lies beside a tie of the numbers of `p` bits, no
further away than half a step of the numbers of `q` bits, on the side of the odd neighbour.
-/
def Misrounds (p q n : Nat) : Prop :=
  q ≤ n.log2 ∧ PulledOntoTie (2 ^ (n.log2 + 1 - q)) (2 ^ (n.log2 + 1 - p)) n

instance (p q n : Nat) : Decidable (Misrounds p q n) :=
  inferInstanceAs (Decidable (_ ∧ _))

section RoundTo

variable {p q n : Nat}

theorem roundTo_roundTo_eq (hp : 0 < p) (hpq : p ≤ q) (hn : q ≤ n.log2) :
    roundTo p (roundTo q n)
      = roundHalfEven (roundHalfEven n (2 ^ (n.log2 + 1 - q))) (2 ^ (q - p))
        * 2 ^ (n.log2 + 1 - p) := by
  have hne : n ≠ 0 := by
    rintro rfl
    simp at hn
    omega
  obtain ⟨hlow, hhigh⟩ := roundTo_bounds (hp.trans_le hpq) hne
  rw [roundTo_of_le hp hlow hhigh, roundTo,
    show n.log2 + 1 - p = q - p + (n.log2 + 1 - q) by omega, pow_add,
    roundHalfEven_mul_right _ _ (Nat.two_pow_pos _)]

/-- Two roundings are as good as one, but for the numbers that the first one pulls onto a tie. -/
theorem roundTo_roundTo_iff (hp : 0 < p) (hpq : p + 2 ≤ q) :
    roundTo p (roundTo q n) = roundTo p n ↔ ¬ Misrounds p q n := by
  by_cases hn : q ≤ n.log2
  · have hfour : 4 ∣ 2 ^ (q - p) := pow_dvd_pow 2 (by omega : 2 ≤ q - p)
    have hstep : 2 ^ (n.log2 + 1 - p) = 2 ^ (q - p) * 2 ^ (n.log2 + 1 - q) := by
      rw [← pow_add]
      congr 1
      omega
    rw [roundTo_roundTo_eq hp (by omega) hn, roundTo, Nat.mul_left_inj (Nat.two_pow_pos _).ne',
      Misrounds, and_iff_right hn, hstep]
    exact roundHalfEven_roundHalfEven_iff (Nat.two_pow_pos _) (Nat.two_pow_pos _) hfour n
  · have hexact : roundTo q n = n := by
      rcases Nat.eq_zero_or_pos n with rfl | hpos
      · exact roundTo_zero q
      · exact roundTo_of_lt ((Nat.log2_lt hpos.ne').mp (by omega))
    simp [hexact, Misrounds, hn]

/-- Where two roundings differ from one, the one is strictly nearer. -/
theorem roundTo_closer_of_misrounds (hp : 0 < p) (hpq : p + 2 ≤ q) (h : Misrounds p q n) :
    |(roundTo p n : Int) - n| < |(roundTo p (roundTo q n) : Int) - n| := by
  have hne : roundTo p (roundTo q n) ≠ roundTo p n := fun heq =>
    (roundTo_roundTo_iff hp hpq).mp heq h
  obtain ⟨hn, htie⟩ := h
  obtain ⟨hle, hlt⟩ := roundHalfEven_error n (Nat.two_pow_pos (n.log2 + 1 - p))
  rw [roundTo_roundTo_eq hp (by omega) hn, roundTo] at hne ⊢
  have hmultiple : (roundHalfEven (roundHalfEven n (2 ^ (n.log2 + 1 - q))) (2 ^ (q - p)) : Int)
      ≠ roundHalfEven n (2 ^ (n.log2 + 1 - p)) := by
    exact_mod_cast fun heq => hne (by rw [heq])
  push_cast at hle hlt ⊢
  exact (error_le_of_ne hle hmultiple).2 (hlt htie.not_tie)

end RoundTo

/-! ## Integers in single precision -/

theorem DType.Represents.natAbs_lt {d : DType} {z : Int} (h : d.Represents z) :
    z.natAbs < 2 ^ 65 := by
  cases d with
  | bool => rcases h with rfl | rfl <;> decide
  | int w | uint w =>
    cases w <;>
      · simp only [Represents, Width.bits] at h
        omega
  | float p | complex p => exact absurd h id

theorem Format.binary32_holds : Format.binary32.Holds 66 := by
  unfold Holds
  decide

theorem Format.binary64_holds : Format.binary64.Holds 66 := by
  unfold Holds
  decide

namespace Binary

variable {z : Int}

/-- A whole number that becomes single by way of double precision is rounded twice. -/
theorem decode_single_of_double (hz : z.natAbs < 2 ^ 65) :
    ((ofInt z : Binary .binary64).convert : Binary .binary32).decode
      = .finite (z < 0) (roundTo 24 (roundTo 53 z.natAbs) * 2 ^ Format.binary32.scale) := by
  have hdouble := decode_ofInt (f := .binary64) Format.binary64_holds
    (hz.trans (Nat.pow_lt_pow_right (by decide) (by decide)))
  have hround : roundTo 53 z.natAbs < 2 ^ 66 := roundTo_lt (by decide) hz
  rw [convert_of_whole hdouble]
  exact decode_round_whole Format.binary32_holds hround

theorem decode_single (hz : z.natAbs < 2 ^ 65) :
    (ofInt z : Binary .binary32).decode
      = .finite (z < 0) (roundTo 24 z.natAbs * 2 ^ Format.binary32.scale) :=
  decode_ofInt Format.binary32_holds (hz.trans (Nat.pow_lt_pow_right (by decide) (by decide)))

/-- The distance from a number to one of the same sign is that of their magnitudes. -/
theorem abs_withSign_sub (z : Int) (m : Nat) :
    |(withSign (z < 0) m : ℚ) - z| = ((|(m : Int) - z.natAbs| : Int) : ℚ) := by
  have hdistance : |withSign (z < 0) m - z| = |(m : Int) - z.natAbs| := by
    simp only [Int.abs_eq_natAbs, withSign, decide_eq_true_eq]
    split <;> omega
  rw [← hdistance]
  push_cast
  rfl

theorem IsNearest.not_closer {f : Format} {x y : Binary f} {q r s : ℚ} (h : x.IsNearest q)
    (hx : x.value? = some r) (hy : y.value? = some s) : |r - q| ≤ |s - q| := by
  obtain ⟨r', hr', hnearest⟩ := h
  obtain rfl : r = r' := Option.some.inj (hx.symm.trans hr')
  by_cases hne : s = r
  · rw [hne]
  · exact (hnearest y s hy hne).elim le_of_lt fun heq => heq.1.le

end Binary

namespace Value

variable {v : Value}

theorem cast_single_eq (hv : v.dtype.isIntegral) :
    v.cast (.float .single)
      = ⟨.float .single, ((Binary.ofInt v.toInt : Double).convert : Binary .binary32)⟩ := by
  have hne : v.dtype ≠ .float .single := by
    intro h
    rw [h] at hv
    cases hv
  rw [cast_of_ne hne, toNumber_eq_int hv]
  rfl

/--
**When an integer becomes the nearest single-precision number.** A truth value or an integer that is
converted to single precision becomes the number nearest to it, a tie going to the even one, unless
it has more than 53 significant bits and lies beside a tie of numbers of 24 bits, no further away
than half a step of numbers of 53 bits, on the side of the odd neighbour. In that case another
single-precision number is strictly nearer.
-/
theorem cast_single_isNearest_iff (hv : v.dtype.isIntegral) :
    ∃ (x : Binary .binary32) (r : ℚ), v.cast (.float .single) = ⟨.float .single, x⟩ ∧
      x.value? = some r ∧
      (x.IsNearest v.toInt ↔ ¬ Misrounds 24 53 v.toInt.natAbs) ∧
      (Misrounds 24 53 v.toInt.natAbs → ∃ (y : Binary .binary32) (s : ℚ), y.value? = some s ∧
        |s - v.toInt| < |r - v.toInt|) := by
  have hz : v.toInt.natAbs < 2 ^ 65 := (DType.represents_toInt hv v.elem).natAbs_lt
  have hx := Binary.decode_single_of_double hz
  have hy := Binary.decode_single hz
  have hcloser : Misrounds 24 53 v.toInt.natAbs →
      ∃ (y : Binary .binary32) (s : ℚ), y.value? = some s ∧ |s - v.toInt| <
        |(Binary.withSign (v.toInt < 0) (roundTo 24 (roundTo 53 v.toInt.natAbs)) : ℚ)
          - v.toInt| := by
    intro hmisrounds
    refine ⟨_, _, Binary.value?_of_whole hy, ?_⟩
    rw [Binary.abs_withSign_sub, Binary.abs_withSign_sub, Int.cast_lt]
    exact roundTo_closer_of_misrounds (by decide) (by decide) hmisrounds
  refine ⟨_, _, cast_single_eq hv, Binary.value?_of_whole hx, ⟨?_, ?_⟩, hcloser⟩
  · intro hnearest hmisrounds
    obtain ⟨y, s, hs, hlt⟩ := hcloser hmisrounds
    exact absurd hlt (hnearest.not_closer (Binary.value?_of_whole hx) hs).not_gt
  · intro hround
    rw [(roundTo_roundTo_iff (by decide) (by decide)).mpr hround] at hx
    rw [Binary.eq_of_decode hx hy]
    exact Binary.isNearest_ofInt (by decide) Format.binary32_holds
      (hz.trans (Nat.pow_lt_pow_right (by decide) (by decide)))

/-- A tie itself goes to the even neighbour, like every number that is rounded once. -/
theorem cast_single_isNearest_tie :
    let v : Value := ⟨.uint .w64, 0x20000020000000⟩
    ¬ Misrounds 24 53 v.toInt.natAbs ∧
      ∃ x : Binary .binary32, v.cast (.float .single) = ⟨.float .single, x⟩ ∧
        x.IsNearest v.toInt := by
  have htie : ¬ Misrounds 24 53 (toInt ⟨.uint .w64, 0x20000020000000⟩).natAbs := by decide
  obtain ⟨x, _, hx, _, hnearest, _⟩ :=
    cast_single_isNearest_iff (v := ⟨.uint .w64, 0x20000020000000⟩) rfl
  exact ⟨htie, x, hx, hnearest.mpr htie⟩

/-- One more than that tie is pulled back onto it, although the next number up is nearer. -/
theorem cast_single_not_nearest :
    let v : Value := ⟨.int .w64, 9007199791611905⟩
    ∃ x y : Binary .binary32, v.cast (.float .single) = ⟨.float .single, x⟩ ∧
      x.value? = some 9007199254740992 ∧ y.value? = some 9007200328482816 ∧
      |(9007200328482816 : ℚ) - v.toInt| < |(9007199254740992 : ℚ) - v.toInt| ∧
      ¬ x.IsNearest v.toInt := by
  have hx : (Binary.ofBits 0x5a000000 : Binary .binary32).value? = some 9007199254740992 := by
    decide +kernel
  have hy : (Binary.ofBits 0x5a000001 : Binary .binary32).value? = some 9007200328482816 := by
    decide +kernel
  have hcloser : |(9007200328482816 : ℚ) - (9007199791611905 : Int)|
      < |(9007199254740992 : ℚ) - (9007199791611905 : Int)| := by
    norm_num [abs_of_pos, abs_of_neg]
  refine ⟨_, _, ?_, hx, hy, hcloser, ?_⟩
  · decide +kernel
  · intro hnearest
    exact absurd hcloser (hnearest.not_closer hx hy).not_gt

end Value

end Broadcast
