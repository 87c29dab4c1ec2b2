import Broadcast.Proofs.IntegerConversion
import Broadcast.Proofs.IntegerKernels

/-!
# Shifts by any number of places

A shift of an integer is a product with a power of two or a quotient by one, rounded down. The shift
kernels never carry out more places than their result type has bits, and compute in 128 bits, more
than any integer type has (`wideShiftLeft?_shiftAmount`, `min_shiftAmount`). That this is enough has a
reason of its own for each direction:

* to the left, a number that is moved by the width of its type or more has no residue left
* to the right, a number of the type that is moved that far has only its sign left
-/

namespace Broadcast

theorem DType.bits_le_of_isInteger {d : DType} (hd : d.isInteger) : d.bits ≤ 64 := by
  cases d with
  | int w | uint w => cases w <;> decide
  | bool | float p | complex p => cases hd

namespace Kernel

variable {d : DType}

/-- No more places are carried out than the type has bits, and a negative number asks for none. -/
theorem shiftAmount_eq_min (d : DType) (v : Value) : shiftAmount d v = min d.bits v.toInt.toNat := by
  unfold shiftAmount
  omega

theorem shiftAmount_eq_or (d : DType) (v : Value) :
    shiftAmount d v = v.toInt.toNat ∨ shiftAmount d v = d.bits ∧ d.bits ≤ v.toInt.toNat := by
  rw [shiftAmount_eq_min]
  omega

theorem shiftAmount_le (hd : d.isInteger) (v : Value) : shiftAmount d v ≤ 64 := by
  rw [shiftAmount_eq_min]
  exact (min_le_left _ _).trans (DType.bits_le_of_isInteger hd)

/-- A double word has more bits than are ever moved, so there is always a number to give. -/
theorem wideShiftLeft?_shiftAmount (hd : d.isInteger) (z : Int) (v : Value) :
    Word.wideShiftLeft? z (shiftAmount d v) = some (Word.wide (z <<< shiftAmount d v)) :=
  if_pos ((shiftAmount_le hd v).trans_lt (by decide))

/-- No shift to the right is long enough to be cut short at the sign of a double word. -/
theorem min_shiftAmount (hd : d.isInteger) (v : Value) :
    min (shiftAmount d v) 127 = shiftAmount d v :=
  min_eq_left ((shiftAmount_le hd v).trans (by decide))

end Kernel

/-! ## To the left -/

/-- Moving by the width or by more leaves the same residue, namely none. -/
theorem mul_pow_modEq_of_le (z : Int) {n k : Nat} (h : n ≤ k) :
    z * 2 ^ n ≡ z * 2 ^ k [ZMOD 2 ^ n] := by
  have hn : z * 2 ^ n ≡ 0 [ZMOD 2 ^ n] := Int.modEq_zero_iff_dvd.mpr (Dvd.intro_left z rfl)
  have hk : z * 2 ^ k ≡ 0 [ZMOD 2 ^ n] :=
    Int.modEq_zero_iff_dvd.mpr ((pow_dvd_pow 2 h).mul_left z)
  exact hn.trans hk.symm

namespace Kernel

variable {d : DType}

theorem shiftLeft_eq (hd : d.isInteger) (a s : Value) :
    shiftLeft d a s = d.ofInt ((a.cast d).toInt * 2 ^ s.toInt.toNat) := by
  rw [shiftLeft, wideShiftLeft?_shiftAmount hd, Option.getD_some, DType.ofInt_wide hd,
    Int.shiftLeft_eq]
  refine (DType.ofInt_eq_iff_modEq hd).mpr ?_
  rcases shiftAmount_eq_or d s with heq | ⟨heq, hle⟩
  · rw [heq]
  · rw [heq]
    exact mul_pow_modEq_of_le _ hle

end Kernel

/-! ## To the right -/

/-- A number between the negative of the divisor and the divisor has its sign as the quotient. -/
theorem ediv_eq_of_lt {z m : Int} (hlow : -m ≤ z) (hhigh : z < m) :
    z / m = if z < 0 then -1 else 0 := by
  split
  · next hneg =>
    rw [Int.ediv_eq_iff_of_pos (by omega)]
    omega
  · next hnonneg => exact Int.ediv_eq_zero_of_lt (by omega) hhigh

theorem ediv_pow_eq_of_le {z : Int} {n k : Nat} (h : n ≤ k) (hlow : -2 ^ n ≤ z) (hhigh : z < 2 ^ n) :
    z / 2 ^ n = z / 2 ^ k := by
  have hpow : (2 : Int) ^ n ≤ 2 ^ k := pow_le_pow_right₀ one_le_two h
  rw [ediv_eq_of_lt hlow hhigh, ediv_eq_of_lt (by omega) (by omega)]

theorem DType.Represents.bounds {d : DType} (hd : d.isInteger) {z : Int} (h : d.Represents z) :
    -2 ^ d.bits ≤ z ∧ z < 2 ^ d.bits := by
  cases d with
  | int w =>
    have hpow : (2 : Int) ^ (w.bits - 1) ≤ 2 ^ w.bits :=
      pow_le_pow_right₀ one_le_two (Nat.sub_le _ _)
    exact ⟨(neg_le_neg hpow).trans h.1, h.2.trans_le hpow⟩
  | uint w => exact ⟨(neg_nonpos.mpr (pow_nonneg zero_le_two _)).trans h.1, h.2⟩
  | bool | float p | complex p => cases hd

/-- A quotient lies between the number and its sign, so the type that holds the number holds it. -/
theorem DType.Represents.ediv_pow {d : DType} (hd : d.isInteger) {z : Int} (h : d.Represents z)
    (k : Nat) : d.Represents (z / 2 ^ k) := by
  have hpow : (0 : Int) < 2 ^ k := pow_pos zero_lt_two k
  have hpos : 0 ≤ z → 0 ≤ z / 2 ^ k ∧ z / 2 ^ k ≤ z := fun h0 =>
    ⟨Int.ediv_nonneg h0 hpow.le, Int.ediv_le_self _ h0⟩
  have hneg : z < 0 → z ≤ z / 2 ^ k ∧ z / 2 ^ k < 0 := fun h0 => by
    have hmul : z * 2 ^ k ≤ z * 1 := Int.mul_le_mul_of_nonpos_left h0.le hpow
    exact ⟨Int.le_ediv_of_mul_le hpow (by omega), Int.ediv_neg_of_neg_of_pos h0 hpow⟩
  have hwidth : ∀ w : Width, (0 : Int) < 2 ^ (w.bits - 1) := fun w => pow_pos zero_lt_two _
  cases d with
  | int w =>
    obtain ⟨hlow, hhigh⟩ := h
    have := hwidth w
    constructor <;> omega
  | uint w =>
    obtain ⟨hlow, hhigh⟩ := h
    constructor <;> omega
  | bool | float p | complex p => cases hd

namespace Kernel

variable {d : DType}

theorem toInt_shiftRight (hd : d.isInteger) (a s : Value) :
    Value.toInt ⟨d, shiftRight d a s⟩ = (a.cast d).toInt / 2 ^ s.toInt.toNat := by
  have hrep : d.Represents (a.cast d).toInt :=
    DType.represents_toInt (DType.isIntegral_of_isInteger hd) (a.elemAs d)
  have hshift : (a.cast d).toInt >>> shiftAmount d s = (a.cast d).toInt / 2 ^ s.toInt.toNat := by
    rw [Int.shiftRight_eq_div_pow, Nat.cast_pow, Nat.cast_ofNat]
    rcases shiftAmount_eq_or d s with heq | ⟨heq, hle⟩
    · rw [heq]
    · obtain ⟨hlow, hhigh⟩ := hrep.bounds hd
      rw [heq, ediv_pow_eq_of_le hle hlow hhigh]
  rw [shiftRight, min_shiftAmount hd, hshift, (hrep.ediv_pow hd _).toInt_ofInt]

/-! ## The kernels -/

/--
**Shifts are exact for every number of places.** Applied to two values for an integer type, the
shift to the left gives the element of that type that differs from the product of the first value,
converted to the type, and a power of two by a multiple of two to the power of the width. The shift
to the right gives the quotient by that power of two, rounded down. The power is the number of the
second value, however large, and a negative number counts as zero.
-/
theorem shifts_exact (hd : d.isInteger) (a s : Value) :
    (∃ k v, Registry.standard.get? "left_shift" = some k ∧ k.apply [a, s] d = .ok v ∧
      v.Wraps d ((a.cast d).toInt * 2 ^ s.toInt.toNat)) ∧
    ∃ k v, Registry.standard.get? "right_shift" = some k ∧ k.apply [a, s] d = .ok v ∧
      v.dtype = d ∧ v.toInt = (a.cast d).toInt.fdiv (2 ^ s.toInt.toNat) := by
  constructor
  · refine ⟨ofRule "left_shift" DType.isInteger shiftLeft, ⟨d, shiftLeft d a s⟩, ?_, rfl, ?_⟩
    · rw [Registry.get?_standard]
      rfl
    · rw [shiftLeft_eq hd]
      exact Value.wraps_ofInt hd _
  · refine ⟨ofRule "right_shift" DType.isInteger shiftRight, ⟨d, shiftRight d a s⟩, ?_, rfl, rfl,
      ?_⟩
    · rw [Registry.get?_standard]
      rfl
    · rw [toInt_shiftRight hd, Int.fdiv_eq_ediv_of_nonneg _ (pow_nonneg zero_le_two _)]

/-- Minus five as an unsigned number of 64 bits, moved by more places than any word has. -/
theorem shifts_exact_all_places :
    let s : Value := ⟨.uint .w64, 0xffffffffffffffff⟩
    (∃ k v, Registry.standard.get? "left_shift" = some k ∧
      k.apply [⟨.int .w8, -5⟩, s] (.uint .w64) = .ok v ∧
      v.Wraps (.uint .w64) (0xfffffffffffffffb * 2 ^ 0xffffffffffffffff)) ∧
    ∃ k v, Registry.standard.get? "right_shift" = some k ∧
      k.apply [⟨.int .w8, -5⟩, s] (.uint .w64) = .ok v ∧ v.dtype = .uint .w64 ∧
      v.toInt = (0xfffffffffffffffb : Int).fdiv (2 ^ 0xffffffffffffffff) :=
  shifts_exact (d := .uint .w64) rfl ⟨.int .w8, -5⟩ ⟨.uint .w64, 0xffffffffffffffff⟩

end Kernel

end Broadcast
