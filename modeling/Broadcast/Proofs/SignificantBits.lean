import Broadcast.Proofs.Rounding

/-!
# Rounding to a number of significant bits

Away from overflow and from the smallest data, rounding keeps as many leading bits as the format has
and does not look at the exponent (`roundTo`). So conversions of whole numbers, and of data between
formats, are described by the bits they keep:

* `Binary.decode_ofInt` — a whole number becomes the nearest one with so many bits
* `Binary.convert_of_whole` — a datum that is a whole number converts as that number does
* `Binary.value?_convert_of_within` — a wider format has every number of a narrower one
-/

namespace Broadcast

/-- The number of at most `p` significant bits that is nearest to `n`, a tie going to the even one. -/
def roundTo (p n : Nat) : Nat :=
  roundHalfEven n (2 ^ (n.log2 + 1 - p)) * 2 ^ (n.log2 + 1 - p)

section RoundTo

variable {p n k : Nat}

@[simp] theorem roundTo_zero (p : Nat) : roundTo p 0 = 0 := by
  simp [roundTo, roundHalfEven_of_dvd]

/-- Rounding to multiples of a divisor changes nothing. -/
theorem roundHalfEven_mul_of_dvd {d : Nat} (h : d ∣ n) : roundHalfEven n d * d = n := by
  rw [roundHalfEven_of_dvd h, Nat.div_mul_cancel h]

theorem roundTo_of_lt (h : n < 2 ^ p) : roundTo p n = n := by
  rcases Nat.eq_zero_or_pos n with rfl | hn
  · exact roundTo_zero p
  · have hlog := (Nat.log2_lt hn.ne').mpr h
    refine roundHalfEven_mul_of_dvd ?_
    rw [show n.log2 + 1 - p = 0 by omega, pow_zero]
    exact one_dvd n

theorem log2_mul_two_pow (hn : n ≠ 0) (k : Nat) : (n * 2 ^ k).log2 = n.log2 + k := by
  induction k with
  | zero => rw [pow_zero, Nat.mul_one, Nat.add_zero]
  | succ k ih =>
    have hne : n * 2 ^ k ≠ 0 := Nat.mul_ne_zero hn (Nat.two_pow_pos k).ne'
    rw [pow_succ, ← Nat.mul_assoc, Nat.mul_comm, Nat.log2_two_mul hne, ih, Nat.add_assoc]

/-- Rounding to significant bits does not depend on the exponent. -/
theorem roundTo_mul_two_pow (p n k : Nat) : roundTo p (n * 2 ^ k) = roundTo p n * 2 ^ k := by
  rcases Nat.eq_zero_or_pos n with rfl | hn
  · rw [Nat.zero_mul, roundTo_zero, Nat.zero_mul]
  rcases Nat.lt_or_ge (n.log2 + 1) p with hlt | hge
  · -- All bits are kept on both sides.
    have hdvd : 2 ^ (n.log2 + k + 1 - p) ∣ n * 2 ^ k :=
      (pow_dvd_pow 2 (by omega)).mul_left n
    rw [roundTo_of_lt ((Nat.log2_lt hn.ne').mp (by omega)), roundTo, log2_mul_two_pow hn.ne',
      roundHalfEven_mul_of_dvd hdvd]
  · rw [roundTo, roundTo, log2_mul_two_pow hn.ne',
      show n.log2 + k + 1 - p = n.log2 + 1 - p + k by omega, pow_add,
      roundHalfEven_mul_right _ _ (Nat.two_pow_pos k), Nat.mul_assoc]

/-- A number and a power of two that rounding carries up to are rounded at the same bit. -/
theorem roundTo_of_le (hp : 0 < p) (hlow : 2 ^ k ≤ n) (hhigh : n ≤ 2 ^ (k + 1)) :
    roundTo p n = roundHalfEven n (2 ^ (k + 1 - p)) * 2 ^ (k + 1 - p) := by
  have hn : n ≠ 0 := ((Nat.two_pow_pos k).trans_le hlow).ne'
  rcases hhigh.lt_or_eq with hlt | rfl
  · rw [roundTo, (Nat.log2_eq_iff hn).mpr ⟨hlow, hlt⟩]
  · rw [roundTo, Nat.log2_two_pow, roundHalfEven_mul_of_dvd (pow_dvd_pow 2 (by omega)),
      roundHalfEven_mul_of_dvd (pow_dvd_pow 2 (by omega))]

/-- Rounding leaves a number between the powers of two around it. -/
theorem roundTo_bounds (hp : 0 < p) (hn : n ≠ 0) :
    2 ^ n.log2 ≤ roundTo p n ∧ roundTo p n ≤ 2 ^ (n.log2 + 1) := by
  have hpos : 0 < 2 ^ (n.log2 + 1 - p) := Nat.two_pow_pos _
  obtain ⟨hlow, hhigh⟩ := roundHalfEven_bounds n (2 ^ (n.log2 + 1 - p))
  have hsplit : ∀ j, n.log2 ≤ j → 2 ^ j = 2 ^ (j - (n.log2 + 1 - p)) * 2 ^ (n.log2 + 1 - p) := by
    intro j hj
    rw [← pow_add]
    congr 1
    omega
  unfold roundTo
  constructor
  · rw [hsplit _ le_rfl]
    refine Nat.mul_le_mul_right _ (le_trans ?_ hlow)
    rw [Nat.le_div_iff_mul_le hpos, ← hsplit _ le_rfl]
    exact Nat.log2_self_le hn
  · rw [hsplit _ (Nat.le_succ _)]
    refine Nat.mul_le_mul_right _ (le_trans hhigh ?_)
    rw [Nat.succ_le_iff, Nat.div_lt_iff_lt_mul hpos, ← hsplit _ (Nat.le_succ _)]
    exact Nat.lt_log2_self

theorem roundTo_lt {b : Nat} (hp : 0 < p) (h : n < 2 ^ b) : roundTo p n < 2 ^ (b + 1) := by
  rcases Nat.eq_zero_or_pos n with rfl | hn
  · rw [roundTo_zero]
    exact Nat.two_pow_pos _
  · have hlog := (Nat.log2_lt hn.ne').mpr h
    exact (roundTo_bounds hp hn.ne').2.trans_lt (Nat.pow_lt_pow_right (by decide) (by omega))

end RoundTo

/-! ## Data of whole numbers -/

namespace Format

variable (f : Format) {b m n s : Nat}

theorem dropped_le (h : n < 2 ^ b) : f.dropped n s ≤ b - (f.precision + s) := by
  unfold dropped
  rcases Nat.eq_zero_or_pos n with rfl | hn
  · rw [Nat.log2_zero, precision]
    omega
  · have hlog := (Nat.log2_lt hn.ne').mpr h
    omega

theorem dropped_mul_two_pow (n s k : Nat) : f.dropped (n * 2 ^ k) (s + k) = f.dropped n s := by
  unfold dropped
  rcases Nat.eq_zero_or_pos n with rfl | hn
  · rw [Nat.zero_mul, Nat.log2_zero, precision]
    omega
  · rw [log2_mul_two_pow hn.ne']
    omega

theorem significand_mul_two_pow (n s k : Nat) :
    f.significand (n * 2 ^ k) (s + k) = f.significand n s := by
  rw [significand, dropped_mul_two_pow, significand, Nat.add_right_comm, pow_add,
    roundHalfEven_mul_right _ _ (Nat.two_pow_pos k)]

theorem significand_mul_dropped (n : Nat) :
    f.significand n 0 * 2 ^ f.dropped n 0 = roundTo f.precision n := by
  rw [significand, Nat.zero_add]
  rfl

/-- A finite number has the bits of a significand and some more for the exponent. -/
theorem units_lt (h : m < f.infinity) : f.units m < 2 ^ (f.precision + 2 ^ f.exponent) := by
  obtain ⟨t, k, rfl, ht, hk⟩ := f.exists_significand m
  have hexponent : k < 2 ^ f.exponent := by
    rw [infinity, Nat.one_shiftLeft] at h
    have hlt : k < 2 ^ f.exponent - 1 :=
      Nat.lt_of_mul_lt_mul_right ((Nat.le_add_right _ t).trans_lt h)
    omega
  rw [f.units_add ht.le hk, pow_add]
  exact Nat.mul_lt_mul_of_lt_of_le ht (Nat.pow_le_pow_right (by decide) hexponent.le)
    (Nat.two_pow_pos _)

/-- The numbers of the format have at most as many significant bits as it keeps. -/
theorem roundTo_units {p : Nat} (hp : f.precision ≤ p) (m : Nat) :
    roundTo p (f.units m) = f.units m := by
  obtain ⟨t, k, rfl, ht, hk⟩ := f.exists_significand m
  have ht' : t < 2 ^ p := ht.trans_le (Nat.pow_le_pow_right (by decide) hp)
  rw [f.units_add ht.le hk, roundTo_mul_two_pow, roundTo_of_lt ht']

/-- Whole numbers of `b` bits are far from overflow. -/
def Holds (b : Nat) : Prop :=
  b + f.scale - f.precision + 3 < 2 ^ f.exponent

theorem Holds.dropped_lt {f : Format} (h : f.Holds b) (hn : n < 2 ^ b) :
    f.dropped (n * 2 ^ f.scale) 0 + 3 < 2 ^ f.exponent := by
  have hlt : n * 2 ^ f.scale < 2 ^ (b + f.scale) := by
    rw [pow_add]
    exact Nat.mul_lt_mul_of_pos_right hn (Nat.two_pow_pos _)
  have hle := f.dropped_le (s := 0) hlt
  unfold Holds at h
  omega

/-- The format `g` is wider than `f`: it has finer steps, more bits and a larger range. -/
structure Within (f g : Format) : Prop where
  scale : f.scale ≤ g.scale
  precision : f.precision ≤ g.precision
  range : f.precision + 2 ^ f.exponent + (g.scale - f.scale) - g.precision + 3 < 2 ^ g.exponent

theorem binary32_within_binary64 : Within binary32 binary64 where
  scale := by decide
  precision := by decide
  range := by decide

end Format

namespace Binary

variable {f g : Format} {negative : Bool} {b m n s : Nat}

/-- Finite data that stand for the same number with the same sign are equal. -/
theorem eq_of_decode {x y : Binary f} (hx : x.decode = .finite negative m)
    (hy : y.decode = .finite negative m) : x = y := by
  obtain ⟨i, _, rfl, _, hi⟩ := decode_eq_finite hx
  obtain ⟨j, _, rfl, _, hj⟩ := decode_eq_finite hy
  obtain rfl : i = j := f.units_strictMono.injective (hi.trans hj.symm)
  rfl

/-- A power of two in the number and in the denominator does not count. -/
theorem round_mul_two_pow (negative : Bool) (n s k : Nat) :
    (round negative (n * 2 ^ k) (s + k) : Binary f) = round negative n s := by
  have hmagnitude : f.dropped (n * 2 ^ k) (s + k) * f.leadingOne
      + f.significand (n * 2 ^ k) (s + k) = f.dropped n s * f.leadingOne + f.significand n s := by
    rw [f.dropped_mul_two_pow, f.significand_mul_two_pow]
  simp only [Format.significand, Format.dropped] at hmagnitude
  simp only [round, Nat.one_shiftLeft, hmagnitude]

theorem decode_round_zero (h : f.dropped n 0 + 3 < 2 ^ f.exponent) :
    (round negative n 0 : Binary f).decode = .finite negative (roundTo f.precision n) := by
  rw [decode_round negative h, f.significand_mul_dropped]

/-! ### Whole numbers -/

theorem withSign_mul_two_pow (negative : Bool) (n k : Nat) :
    (withSign negative (n * 2 ^ k) : ℚ) = withSign negative n * 2 ^ k := by
  cases negative <;> simp [withSign]

theorem withSign_mul_div (negative : Bool) (n k : Nat) :
    (withSign negative (n * 2 ^ k) : ℚ) / 2 ^ k = withSign negative n := by
  rw [withSign_mul_two_pow, mul_div_cancel_right₀ _ (by positivity)]

theorem value?_of_whole {x : Binary f} (h : x.decode = .finite negative (n * 2 ^ f.scale)) :
    x.value? = some (withSign negative n : ℚ) := by
  rw [value?_of_decode h, withSign_mul_div]

theorem decode_round_whole (hf : f.Holds b) (hn : n < 2 ^ b) :
    (round negative (n * 2 ^ f.scale) 0 : Binary f).decode
      = .finite negative (roundTo f.precision n * 2 ^ f.scale) := by
  rw [decode_round_zero (hf.dropped_lt hn), roundTo_mul_two_pow]

theorem ofInt_eq_round (z : Int) :
    (ofInt z : Binary f) = round (z < 0) (z.natAbs * 2 ^ f.scale) 0 := by
  rw [ofInt, Nat.shiftLeft_eq]

/-- A whole number becomes the nearest one that has as many bits as the format. -/
theorem decode_ofInt (hf : f.Holds b) {z : Int} (hz : z.natAbs < 2 ^ b) :
    (ofInt z : Binary f).decode = .finite (z < 0) (roundTo f.precision z.natAbs * 2 ^ f.scale) := by
  rw [ofInt_eq_round, decode_round_whole hf hz]

theorem withSign_natAbs (z : Int) : withSign (z < 0) z.natAbs = z := by
  by_cases hz : z < 0
  · simp only [withSign, hz, decide_true, if_true]
    omega
  · simp only [withSign, hz, decide_false, Bool.false_eq_true, if_false]
    omega

theorem isNearest_ofInt (hfraction : 0 < f.fraction) (hf : f.Holds b) {z : Int}
    (hz : z.natAbs < 2 ^ b) : (ofInt z : Binary f).IsNearest z := by
  have hnearest := isNearest_round (z < 0) hfraction (hf.dropped_lt hz)
  rw [Nat.zero_add, withSign_mul_div, withSign_natAbs] at hnearest
  rw [ofInt_eq_round]
  exact hnearest

/-! ### Conversions between formats -/

theorem convert_of_decode {x : Binary f} (h : x.decode = .finite negative m)
    (hn : m * 2 ^ g.scale = n * 2 ^ f.scale) : (x.convert : Binary g) = round negative n 0 := by
  simp only [convert, h, Nat.shiftLeft_eq, hn]
  exact (congrArg _ (Nat.zero_add _).symm).trans (round_mul_two_pow negative n 0 f.scale)

/-- A datum that is a whole number converts as that number does. -/
theorem convert_of_whole {x : Binary f} (h : x.decode = .finite negative (n * 2 ^ f.scale)) :
    (x.convert : Binary g) = round negative (n * 2 ^ g.scale) 0 :=
  convert_of_decode h (Nat.mul_right_comm ..)

/-- A wider format takes over every finite datum. -/
theorem decode_convert_of_within (hfg : f.Within g) {x : Binary f}
    (h : x.decode = .finite negative m) :
    (x.convert : Binary g).decode = .finite negative (m * 2 ^ (g.scale - f.scale)) := by
  obtain ⟨k, _, _, hk, rfl⟩ := decode_eq_finite h
  have hlt : f.units k * 2 ^ (g.scale - f.scale)
      < 2 ^ (f.precision + 2 ^ f.exponent + (g.scale - f.scale)) := by
    rw [pow_add _ _ (g.scale - f.scale)]
    exact Nat.mul_lt_mul_of_pos_right (f.units_lt hk) (Nat.two_pow_pos _)
  have hdropped := g.dropped_le (s := 0) hlt
  have hrange := hfg.range
  have hconvert : (x.convert : Binary g)
      = round negative (f.units k * 2 ^ (g.scale - f.scale)) 0 := by
    refine convert_of_decode h ?_
    rw [Nat.mul_assoc, ← pow_add, Nat.sub_add_cancel hfg.scale]
  rw [hconvert, decode_round_zero (by omega), roundTo_mul_two_pow, f.roundTo_units hfg.precision]

theorem value?_convert_of_within (hfg : f.Within g) {x : Binary f} {r : ℚ}
    (h : x.value? = some r) : (x.convert : Binary g).value? = some r := by
  obtain ⟨negative, m, hdecode, rfl⟩ := value?_eq_some h
  have hpow : (2 : ℚ) ^ g.scale = 2 ^ f.scale * 2 ^ (g.scale - f.scale) := by
    rw [← pow_add, Nat.add_sub_cancel' hfg.scale]
  rw [value?_of_decode (decode_convert_of_within hfg hdecode), withSign_mul_two_pow, hpow,
    mul_div_mul_right _ _ (by positivity)]

end Binary

end Broadcast
