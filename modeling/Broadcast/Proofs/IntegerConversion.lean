import Broadcast.Proofs.Integers

/-!
# Conversions between integer types

An integer type keeps a number up to multiples of two to the power of its width. So conversion to it
depends only on the residue of a number (`DType.ofInt_eq_iff_modEq`), and in the range of the type
each residue has one number (`DType.Represents.eq_of_modEq`). A wider type knows more of a number
than a narrower one, which is why a detour over a wider type changes nothing, whatever the signs of
the types on the way.
-/

namespace Broadcast

theorem Word.ofInt_congr {n : Nat} {a b : Int} (h : a ≡ b [ZMOD 2 ^ n]) :
    BitVec.ofInt n a = BitVec.ofInt n b := by
  have hmod : a % ((2 ^ n : Nat) : Int) = b % ((2 ^ n : Nat) : Int) := by exact_mod_cast h
  refine BitVec.eq_of_toInt_eq ?_
  rw [BitVec.toInt_ofInt, BitVec.toInt_ofInt, ← Int.emod_bmod, hmod, Int.emod_bmod]

namespace DType

/-- Two numbers give the same element if they differ by a multiple of two to the power of its width. -/
theorem ofInt_eq_iff_modEq {d : DType} (hd : d.isInteger) {m n : Int} :
    d.ofInt m = d.ofInt n ↔ m ≡ n [ZMOD 2 ^ d.bits] := by
  constructor
  · intro h
    have hm := (Value.wraps_ofInt hd m).modEq
    rw [h] at hm
    exact hm.symm.trans (Value.wraps_ofInt hd n).modEq
  · intro h
    cases d with
    | int w | uint w => exact Word.ofInt_congr h
    | bool | float p | complex p => cases hd

/-- Numbers in the range of an integer type that differ by a multiple of its modulus are equal. -/
theorem Represents.eq_of_modEq {d : DType} (hd : d.isInteger) {m n : Int} (hm : d.Represents m)
    (hn : d.Represents n) (h : m ≡ n [ZMOD 2 ^ d.bits]) : m = n := by
  rw [← hm.toInt_ofInt, ← hn.toInt_ofInt, (ofInt_eq_iff_modEq hd).mpr h]

theorem bits_eq_mul_sizeBytes {d : DType} (hd : d.isInteger) : d.bits = 8 * d.sizeBytes := by
  cases d with
  | int w | uint w => cases w <;> rfl
  | bool | float p | complex p => cases hd

end DType

namespace Value

variable {v : Value} {d d₁ d₂ : DType}

theorem cast_eq_ofInt (hv : v.dtype.isIntegral) (hd : d.isIntegral) :
    v.cast d = ⟨d, d.ofInt v.toInt⟩ := by
  rw [cast, elemAs_eq_ofInt hv d hd]

theorem wraps_cast (hv : v.dtype.isIntegral) (hd : d.isInteger) : (v.cast d).Wraps d v.toInt := by
  rw [cast_eq_ofInt hv (DType.isIntegral_of_isInteger hd)]
  exact wraps_ofInt hd v.toInt

/-- The number of a converted value is the one that the range and the residue leave. -/
theorem toInt_cast_eq_iff (hv : v.dtype.isIntegral) (hd : d.isInteger) {z : Int} :
    (v.cast d).toInt = z ↔ d.Represents z ∧ z ≡ v.toInt [ZMOD 2 ^ d.bits] := by
  have hwraps := wraps_cast hv hd
  constructor
  · rintro rfl
    exact ⟨hwraps.represents, hwraps.modEq⟩
  · rintro ⟨hrep, hmod⟩
    exact hwraps.represents.eq_of_modEq hd hrep (hwraps.modEq.trans hmod.symm)

/-- A detour over an integer type that is at least as wide as the target changes nothing. -/
theorem cast_cast_of_sizeBytes_le (hv : v.dtype.isIntegral) (h₁ : d₁.isInteger)
    (h₂ : d₂.isInteger) (hle : d₂.sizeBytes ≤ d₁.sizeBytes) :
    (v.cast d₁).cast d₂ = v.cast d₂ := by
  have hi₁ := DType.isIntegral_of_isInteger h₁
  have hi₂ := DType.isIntegral_of_isInteger h₂
  have hbits : d₂.bits ≤ d₁.bits := by
    rw [DType.bits_eq_mul_sizeBytes h₁, DType.bits_eq_mul_sizeBytes h₂]
    omega
  have hmod : (v.cast d₁).toInt ≡ v.toInt [ZMOD 2 ^ d₂.bits] :=
    (wraps_cast hv h₁).modEq.of_dvd (pow_dvd_pow 2 hbits)
  rw [cast_eq_ofInt (v := v.cast d₁) hi₁ hi₂, cast_eq_ofInt hv hi₂]
  congr 1
  exact (DType.ofInt_eq_iff_modEq h₂).mpr hmod

/-- A value that is converted to an integer type at least as wide as its own comes back the same. -/
theorem cast_cast_self (hv : v.dtype.isIntegral) (hd : d.isInteger)
    (hle : v.dtype.sizeBytes ≤ d.sizeBytes) : (v.cast d).cast v.dtype = v := by
  have hdi := DType.isIntegral_of_isInteger hd
  by_cases hi : v.dtype.isInteger
  · rw [cast_cast_of_sizeBytes_le hv hd hi hle, cast_self]
  · -- Truth values are no integers, but every integer type holds their numbers.
    have hbool : v.dtype = .bool := by
      obtain ⟨s, x⟩ := v
      cases s with
      | bool => rfl
      | int w | uint w => exact absurd rfl hi
      | float p | complex p => cases hv
    have hrep : d.Represents v.toInt :=
      DType.Represents.of_bool hdi (hbool ▸ DType.represents_toInt hv v.elem)
    rw [cast_eq_ofInt (v := v.cast d) hdi hv, hrep.toInt_cast hv hdi, ← cast_eq_ofInt hv hv,
      cast_self]

/--
**Integer conversions compose.** Let a value be a truth value or an integer. Converted to an integer
type and then to one that is not wider, it is the value converted to the second type at once. So a
value that is converted to an integer type at least as wide as its own, of either sign, and back is
the same. The number of a converted value is the only one in the range of the type that differs from
the number of the value by a multiple of two to the power of the width.
-/
theorem integer_casts_compose (hv : v.dtype.isIntegral) (h₁ : d₁.isInteger) :
    (∀ d₂ : DType, d₂.isInteger → d₂.sizeBytes ≤ d₁.sizeBytes →
      (v.cast d₁).cast d₂ = v.cast d₂) ∧
    (v.dtype.sizeBytes ≤ d₁.sizeBytes → (v.cast d₁).cast v.dtype = v) ∧
    ∀ z : Int, (v.cast d₁).toInt = z ↔ d₁.Represents z ∧ z ≡ v.toInt [ZMOD 2 ^ d₁.bits] :=
  ⟨fun _ h₂ hle => cast_cast_of_sizeBytes_le hv h₁ h₂ hle, cast_cast_self hv h₁,
    fun _ => toInt_cast_eq_iff hv h₁⟩

/-- The least number of 16 bits as an unsigned number of the same width, and on to fewer bits. -/
theorem integer_casts_compose_least :
    let v : Value := ⟨.int .w16, -32768⟩
    (v.cast (.uint .w16)).toInt = 32768 ∧ (v.cast (.uint .w16)).cast (.int .w16) = v ∧
      (v.cast (.uint .w16)).cast (.uint .w8) = v.cast (.uint .w8) := by
  have hwide : (DType.uint .w16).isInteger := rfl
  obtain ⟨hdetour, hback, hnumber⟩ :=
    integer_casts_compose (v := ⟨.int .w16, -32768⟩) rfl hwide
  exact ⟨(hnumber 32768).mpr ⟨⟨by decide, by decide⟩, by decide⟩, hback (by decide),
    hdetour (.uint .w8) rfl (by decide)⟩

end Value

end Broadcast
