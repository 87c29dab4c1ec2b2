import Mathlib.Data.Rat.Floor
import Broadcast.Proofs.IntegerConversion
import Broadcast.Proofs.SignificantBits

/-!
# Floating-point numbers as integers

A floating-point number is read as an integer by cutting off its fraction, held in the range of 128
bits (`Binary.readsAs_truncate`). Single-precision numbers are read through double precision, which
has them all (`Precision.value?_widen`), so nothing is rounded on the way. Conversion to an integer
type then wraps the number that has been read to the width of the type. So a number outside the range
of the type does not become the nearest limit of that range, except by chance
(`Value.cast_float_clamps_iff`).
-/

namespace Broadcast

/-! ## Whole parts -/

/-- The whole number that is left of a number when its fraction is cut off. -/
def wholePart (q : ℚ) : Int :=
  if q < 0 then ⌈q⌉ else ⌊q⌋

theorem wholePart_neg (q : ℚ) : wholePart (-q) = -wholePart q := by
  unfold wholePart
  rcases lt_trichotomy q 0 with hneg | rfl | hpos
  · rw [if_pos hneg, if_neg (neg_pos.mpr hneg).not_gt, Int.floor_neg]
  · simp
  · rw [if_neg hpos.not_gt, if_pos (neg_neg_of_pos hpos), Int.ceil_neg]

theorem wholePart_div_two_pow (m k : Nat) : wholePart (m / 2 ^ k) = (m / 2 ^ k : Nat) := by
  rw [wholePart, if_neg (by positivity : (0 : ℚ) ≤ m / 2 ^ k).not_gt]
  exact_mod_cast Rat.floor_natCast_div_natCast m (2 ^ k)

namespace Binary

variable {f : Format}

theorem wholePart_withSign (negative : Bool) (m k : Nat) :
    wholePart (withSign negative m / 2 ^ k) = withSign negative (m / 2 ^ k) := by
  cases negative with
  | false => exact wholePart_div_two_pow m k
  | true =>
    have hneg : (withSign true m : ℚ) / 2 ^ k = -(m / 2 ^ k) := by
      simp only [withSign, if_true, Int.cast_neg, Int.cast_natCast, neg_div]
    rw [hneg, wholePart_neg, wholePart_div_two_pow]
    rfl

/--
The number `z` reads a datum as a whole number from `lo` to `hi`: NaN is read as zero, an infinity as
the limit on its side, and a finite datum by its whole part, or the limit that this is beyond.
-/
structure ReadsAs (x : Binary f) (lo hi z : Int) : Prop where
  nan : x = .nan → z = 0
  infinite : ∀ negative, x = infinity negative → z = if negative then lo else hi
  finite : ∀ r, x.value? = some r → z = max lo (min hi (wholePart r))

@[simp] theorem decode_infinity (negative : Bool) :
    (infinity negative : Binary f).decode = .infinite negative :=
  if_pos rfl

theorem readsAs_truncate (lo hi : Int) (x : Binary f) : x.ReadsAs lo hi (x.truncate lo hi) where
  nan := by
    rintro rfl
    rfl
  infinite := by
    rintro negative rfl
    rw [truncate, decode_infinity]
  finite := by
    intro r hr
    obtain ⟨negative, m, hdecode, rfl⟩ := value?_eq_some hr
    simp only [truncate, hdecode, wholePart_withSign, Nat.shiftRight_eq_div_pow]

/-- A datum is read as one number only: it is NaN, infinite or finite. -/
theorem ReadsAs.eq {x : Binary f} {lo hi y z : Int} (hy : x.ReadsAs lo hi y)
    (hz : x.ReadsAs lo hi z) : y = z := by
  cases x with
  | nan => exact (hy.nan rfl).trans (hz.nan rfl).symm
  | num negative m hm =>
    by_cases hinfinite : m = f.infinity
    · subst hinfinite
      exact (hy.infinite negative rfl).trans (hz.infinite negative rfl).symm
    · have hvalue := value?_of_decode (x := num negative m hm) (if_neg hinfinite)
      exact (hy.finite _ hvalue).trans (hz.finite _ hvalue).symm

end Binary

/-- Double precision has every number of single precision. -/
theorem Precision.value?_widen (p : Precision) {x : Binary p.format} {r : ℚ}
    (h : x.value? = some r) : (p.widen x).value? = some r := by
  cases p with
  | double => exact h
  | single => exact Binary.value?_convert_of_within Format.binary32_within_binary64 h

/-- A number of either precision is read as the double-precision number that equals it. -/
theorem Binary.ReadsAs.of_widen (p : Precision) {x : Binary p.format} {lo hi z : Int}
    (h : (p.widen x).ReadsAs lo hi z) : x.ReadsAs lo hi z where
  nan := by
    rintro rfl
    cases p <;> exact h.nan rfl
  infinite := by
    rintro negative rfl
    refine h.infinite negative ?_
    cases p with
    | double => rfl
    | single =>
      show (Binary.convert (Binary.infinity negative : Binary .binary32) : Double) = _
      simp only [Binary.convert, Binary.decode_infinity]
  finite := fun r hr => h.finite r (p.value?_widen hr)

/-! ## Ranges of integer types -/

namespace DType

/-- The least number of an integer type. -/
def lowest : DType → Int
  | int w => -2 ^ (w.bits - 1)
  | _ => 0

/-- The greatest number of an integer type. -/
def highest : DType → Int
  | int w => 2 ^ (w.bits - 1) - 1
  | uint w => 2 ^ w.bits - 1
  | _ => 0

/-- The number of an integer type that is nearest to `z`. -/
def clamp (d : DType) (z : Int) : Int :=
  max d.lowest (min d.highest z)

theorem represents_clamp {d : DType} (hd : d.isInteger) (z : Int) : d.Represents (d.clamp z) := by
  cases d with
  | int w =>
    have hpos : (0 : Int) < 2 ^ (w.bits - 1) := pow_pos zero_lt_two _
    simp only [Represents, clamp, lowest, highest]
    omega
  | uint w =>
    have hpos : (0 : Int) < 2 ^ w.bits := pow_pos zero_lt_two _
    simp only [Represents, clamp, lowest, highest]
    omega
  | bool | float p | complex p => cases hd

end DType

/-! ## Conversion -/

namespace Value

variable {p : Precision} {d : DType}

theorem cast_float_eq (x : Binary p.format) (hd : d.isInteger) :
    cast ⟨.float p, x⟩ d = ⟨d, d.ofInt (toInt ⟨.float p, x⟩)⟩ := by
  cases d with
  | int w | uint w => rfl
  | bool | float q | complex q => cases hd

theorem readsAs_iff_eq_toInt (x : Binary p.format) (z : Int) :
    x.ReadsAs (-2 ^ 127) (2 ^ 127 - 1) z ↔ z = toInt ⟨.float p, x⟩ := by
  have hreads : x.ReadsAs (-2 ^ 127) (2 ^ 127 - 1) (toInt ⟨.float p, x⟩) :=
    (Binary.readsAs_truncate _ _ (p.widen x)).of_widen p
  constructor
  · exact fun h => h.eq hreads
  · rintro rfl
    exact hreads

/--
**Floating-point numbers wrap on conversion to an integer type.** The number is read as an integer of
128 bits: its fraction is cut off, numbers beyond the limits are read as the limit, and NaN as zero.
The converted value is that integer taken into the range of the type modulo two to the power of the
width. It is the number of the type nearest to that integer exactly if the integer lies in the range,
or beyond it by a multiple of two to the power of the width.
-/
theorem cast_float_clamps_iff (x : Binary p.format) (hd : d.isInteger) :
    let v : Value := ⟨.float p, x⟩
    (∀ z, x.ReadsAs (-2 ^ 127) (2 ^ 127 - 1) z ↔ z = v.toInt) ∧ (v.cast d).Wraps d v.toInt ∧
      ((v.cast d).toInt = d.clamp v.toInt ↔ 2 ^ d.bits ∣ v.toInt - d.clamp v.toInt) := by
  intro v
  have hwraps : (v.cast d).Wraps d v.toInt := by
    rw [cast_float_eq x hd]
    exact wraps_ofInt hd _
  refine ⟨readsAs_iff_eq_toInt x, hwraps, ?_⟩
  rw [← Int.modEq_iff_dvd]
  constructor
  · intro h
    rw [← h]
    exact hwraps.modEq
  · intro h
    exact hwraps.represents.eq_of_modEq hd (DType.represents_clamp hd _) (hwraps.modEq.trans h.symm)

/-- The negative infinity of single precision does become the least unsigned number. -/
theorem cast_float_clamps_infinite :
    let v : Value := ⟨.float .single, Binary.infinity true⟩
    v.toInt = -2 ^ 127 ∧ (v.cast (.uint .w64)).toInt = 0 := by
  obtain ⟨hreads, _, hclamps⟩ := cast_float_clamps_iff (p := .single) (d := .uint .w64)
    (Binary.infinity true) rfl
  have hread := ((hreads _).mpr rfl).infinite true rfl
  refine ⟨hread, ?_⟩
  rw [hread] at hclamps
  exact hclamps.mpr (by decide)

/-- A double-precision number beyond the range of a type wraps around and does not become its limit. -/
theorem cast_float_wraps_around :
    let v : Value := ⟨.float .double, Binary.ofBits 0x4072c00000000000⟩
    v.toInt = 300 ∧ (v.cast (.uint .w8)).toInt = 44 ∧ (DType.uint .w8).clamp v.toInt = 255 := by
  decide +kernel

end Value

end Broadcast
