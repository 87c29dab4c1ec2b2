import Mathlib.Algebra.Order.Ring.Int
import Mathlib.Data.Int.ModEq
import Broadcast.DType.Promotion
import Broadcast.Value

/-!
# Elements that are whole numbers

Truth values and the elements of integer types are whole numbers in a range of their type, truth
values counting as zero and one. A value of such a type converts to any other as its number does:
numbers in the range are kept, and integer types take all others modulo two to the power of their
width (`Value.Wraps`).

The common type of several such types, if it is one of them again, holds the numbers of each of them
(`Represents.promoteAll`). So conversion to the promoted type loses nothing.
-/

namespace Broadcast

/-! ## Types of whole numbers -/

namespace DType

/-- Truth values and integers. -/
def isIntegral (d : DType) : Bool :=
  d.isBool || d.isInteger

/-- The whole numbers that the elements of a type stand for. -/
def Represents : DType → Int → Prop
  | bool, z => z = 0 ∨ z = 1
  | int w, z => -2 ^ (w.bits - 1) ≤ z ∧ z < 2 ^ (w.bits - 1)
  | uint w, z => 0 ≤ z ∧ z < 2 ^ w.bits
  | _, _ => False

theorem isIntegral_of_isInteger {d : DType} (h : d.isInteger) : d.isIntegral := by
  simp [isIntegral, h]

/-- An element that goes to its number and back is the same element. -/
theorem ofInt_toInt {d : DType} (hd : d.isIntegral) (x : d.Elem) :
    d.ofInt (Value.toInt ⟨d, x⟩) = x := by
  cases d with
  | bool => cases x <;> rfl
  | int w => exact BitVec.ofInt_toInt
  | uint w => exact (BitVec.ofInt_natCast _ _).trans (by simp)
  | float p | complex p => cases hd

theorem represents_toInt {d : DType} (hd : d.isIntegral) (x : d.Elem) :
    d.Represents (Value.toInt ⟨d, x⟩) := by
  cases d with
  | bool => cases x <;> simp [Represents]
  | int w => exact ⟨BitVec.le_toInt x, BitVec.toInt_lt⟩
  | uint w =>
    rw [Value.toInt_uint]
    exact ⟨Int.natCast_nonneg _, by exact_mod_cast BitVec.isLt x⟩
  | float p | complex p => cases hd

theorem toInt_ofInt_int (w : Width) (z : Int) :
    Value.toInt ⟨int w, (int w).ofInt z⟩ = z.bmod (2 ^ w.bits) :=
  BitVec.toInt_ofInt z

theorem toInt_ofInt_uint (w : Width) (z : Int) :
    Value.toInt ⟨uint w, (uint w).ofInt z⟩ = z % 2 ^ w.bits := by
  show ((BitVec.ofInt w.bits z).toNat : Int) = _
  rw [BitVec.toNat_ofInt, Nat.cast_pow, Nat.cast_ofNat, Int.toNat_of_nonneg]
  exact Int.emod_nonneg z (pow_ne_zero _ two_ne_zero)

/-- A number in the range of a type is kept. -/
theorem Represents.toInt_ofInt {d : DType} {z : Int} (h : d.Represents z) :
    Value.toInt ⟨d, d.ofInt z⟩ = z := by
  cases d with
  | bool => rcases h with rfl | rfl <;> rfl
  | int w =>
    obtain ⟨hlow, hhigh⟩ := h
    have htwo : (2 : Int) ^ w.bits = 2 ^ (w.bits - 1) * 2 := by cases w <;> rfl
    rw [toInt_ofInt_int]
    refine Int.bmod_eq_of_le_mul_two ?_ ?_ <;> push_cast <;> omega
  | uint w => rw [toInt_ofInt_uint, Int.emod_eq_of_lt h.1 h.2]
  | float p | complex p => cases h

end DType

/-! ## Values of whole numbers -/

namespace Value

/-- A value of type `d` whose number is `z` up to multiples of two to the power of the width. -/
structure Wraps (v : Value) (d : DType) (z : Int) : Prop where
  dtype_eq : v.dtype = d
  represents : d.Represents v.toInt
  modEq : v.toInt ≡ z [ZMOD 2 ^ d.bits]

theorem wraps_ofInt {d : DType} (hd : d.isInteger) (z : Int) : Wraps ⟨d, d.ofInt z⟩ d z := by
  refine ⟨rfl, DType.represents_toInt (DType.isIntegral_of_isInteger hd) _, ?_⟩
  cases d with
  | int w =>
    rw [DType.toInt_ofInt_int]
    exact_mod_cast Int.bmod_emod
  | uint w =>
    rw [DType.toInt_ofInt_uint]
    exact Int.mod_modEq z _
  | bool | float p | complex p => cases hd

theorem toNumber_eq_int {v : Value} (hv : v.dtype.isIntegral) : v.toNumber = .int v.toInt := by
  obtain ⟨d, x⟩ := v
  cases d with
  | bool | int w | uint w => rfl
  | float p | complex p => cases hv

/-- A value of a whole number converts as its number does. -/
theorem elemAs_eq_ofInt {v : Value} (hv : v.dtype.isIntegral) (d : DType) (hd : d.isIntegral) :
    v.elemAs d = d.ofInt v.toInt := by
  by_cases h : v.dtype = d
  · subst h
    rw [DType.ofInt_toInt hd]
    exact elemAs_mk _ _
  · rw [elemAs, dif_neg h, toNumber_eq_int hv]
    rfl

end Value

/-- A value whose number a type represents is converted to that type without loss. -/
theorem DType.Represents.toInt_cast {v : Value} {d : DType} (h : d.Represents v.toInt)
    (hv : v.dtype.isIntegral) (hd : d.isIntegral) : (v.cast d).toInt = v.toInt := by
  rw [Value.cast, Value.elemAs_eq_ofInt hv d hd, h.toInt_ofInt]

/-! ## Promotion -/

namespace Width

theorem bits_le_max (a b : Width) : a.bits ≤ (max a b).bits ∧ b.bits ≤ (max a b).bits := by
  cases a <;> cases b <;> decide

theorem bits_le_foldl_max : ∀ (l : List Width) (a : Width),
    a.bits ≤ (l.foldl max a).bits ∧ ∀ w ∈ l, w.bits ≤ (l.foldl max a).bits
  | [], a => ⟨Nat.le_refl _, fun w hw => absurd hw List.not_mem_nil⟩
  | b :: l, a => by
    obtain ⟨ha, hb⟩ := bits_le_max a b
    obtain ⟨hstart, hrest⟩ := bits_le_foldl_max l (max a b)
    rw [List.foldl_cons]
    refine ⟨Nat.le_trans ha hstart, List.forall_mem_cons.mpr ⟨Nat.le_trans hb hstart, hrest⟩⟩

/-- No width in a list is larger than its maximum. -/
theorem bits_le_of_max? {l : List Width} {m w : Width} (hm : l.max? = some m) (hw : w ∈ l) :
    w.bits ≤ m.bits := by
  cases l with
  | nil => cases hm
  | cons a l =>
    cases hm
    obtain ⟨hstart, hrest⟩ := bits_le_foldl_max l a
    rcases List.mem_cons.mp hw with rfl | hw
    · exact hstart
    · exact hrest w hw

end Width

namespace DType

theorem Represents.of_bool {d : DType} (hd : d.isIntegral) {z : Int} (h : bool.Represents z) :
    d.Represents z := by
  cases d with
  | bool => exact h
  | int w | uint w => rcases h with rfl | rfl <;> cases w <;> simp [Represents, Width.bits]
  | float p | complex p => cases hd

theorem Represents.int_mono {a b : Width} (hab : a.bits ≤ b.bits) {z : Int}
    (h : (int a).Represents z) : (int b).Represents z := by
  have hpow : (2 : Int) ^ (a.bits - 1) ≤ 2 ^ (b.bits - 1) :=
    pow_le_pow_right₀ one_le_two (Nat.sub_le_sub_right hab 1)
  exact ⟨(neg_le_neg hpow).trans h.1, h.2.trans_le hpow⟩

theorem Represents.uint_mono {a b : Width} (hab : a.bits ≤ b.bits) {z : Int}
    (h : (uint a).Represents z) : (uint b).Represents z :=
  ⟨h.1, h.2.trans_le (pow_le_pow_right₀ one_le_two hab)⟩

/-- A signed type that is wider than an unsigned one holds its numbers. -/
theorem Represents.int_of_uint {a b : Width} (hab : a.bits < b.bits) {z : Int}
    (h : (uint a).Represents z) : (int b).Represents z := by
  have hpow : (2 : Int) ^ a.bits ≤ 2 ^ (b.bits - 1) :=
    pow_le_pow_right₀ one_le_two (Nat.le_sub_one_of_lt hab)
  have hneg : -(2 : Int) ^ (b.bits - 1) ≤ 0 := neg_nonpos.mpr (pow_nonneg zero_le_two _)
  exact ⟨hneg.trans h.1, h.2.trans_le hpow⟩

/-- The type in which a signed and an unsigned one meet is wide enough for both. -/
theorem joinMixed_eq_integral {s u : Width} {d : DType} (h : joinMixed s u = d)
    (hd : d.isIntegral) : ∃ w, d = int w ∧ s.bits ≤ w.bits ∧ u.bits < w.bits := by
  unfold joinMixed at h
  split at h
  · next w hfind =>
    have hle := List.find?_some hfind
    simp only [decide_eq_true_eq] at hle
    exact ⟨w, h.symm, by omega, by omega⟩
  · subst h
    cases hd

theorem joinIntegers_of_mem_int {types : List DType} {a : Width} (ha : int a ∈ types) :
    ∃ s, a.bits ≤ s.bits ∧
      (joinIntegers types = int s ∨ ∃ u, joinIntegers types = joinMixed s u) := by
  have hmem : a ∈ types.filterMap signedWidth? := List.mem_filterMap.mpr ⟨_, ha, rfl⟩
  unfold joinIntegers
  cases hs : (types.filterMap signedWidth?).max? with
  | none =>
    rw [List.max?_eq_none_iff.mp hs] at hmem
    cases hmem
  | some s =>
    refine ⟨s, Width.bits_le_of_max? hs hmem, ?_⟩
    cases (types.filterMap unsignedWidth?).max? with
    | none => exact .inl rfl
    | some u => exact .inr ⟨u, rfl⟩

theorem joinIntegers_of_mem_uint {types : List DType} {a : Width} (ha : uint a ∈ types) :
    ∃ u, a.bits ≤ u.bits ∧
      (joinIntegers types = uint u ∨ ∃ s, joinIntegers types = joinMixed s u) := by
  have hmem : a ∈ types.filterMap unsignedWidth? := List.mem_filterMap.mpr ⟨_, ha, rfl⟩
  unfold joinIntegers
  cases hu : (types.filterMap unsignedWidth?).max? with
  | none =>
    rw [List.max?_eq_none_iff.mp hu] at hmem
    cases hmem
  | some u =>
    refine ⟨u, Width.bits_le_of_max? hu hmem, ?_⟩
    cases (types.filterMap signedWidth?).max? with
    | none => exact .inl rfl
    | some s => exact .inr ⟨s, rfl⟩

theorem promoteAll_eq_joinIntegers {types : List DType} (h : ∀ t ∈ types, t.isIntegral) :
    promoteAll types = joinIntegers types := by
  have hnone : (types.filter fun t => t.isFloat || t.isComplex) = [] := by
    refine List.filter_eq_nil_iff.mpr fun t ht => ?_
    have hintegral := h t ht
    cases t with
    | bool | int w | uint w => exact Bool.false_ne_true
    | float p | complex p => cases hintegral
  rw [promoteAll, hnone]
  rfl

/-- The promoted type of integers and truth values, if it is one itself, holds all their numbers. -/
theorem Represents.promoteAll {types : List DType} (htypes : ∀ t ∈ types, t.isIntegral)
    {d : DType} (hd : DType.promoteAll types = d) (hdi : d.isIntegral) {t : DType}
    (ht : t ∈ types) {z : Int} (hz : t.Represents z) : d.Represents z := by
  rw [promoteAll_eq_joinIntegers htypes] at hd
  cases t with
  | bool => exact hz.of_bool hdi
  | int a =>
    obtain ⟨s, has, hs | ⟨u, hu⟩⟩ := joinIntegers_of_mem_int ht
    · rw [← hd, hs]
      exact hz.int_mono has
    · obtain ⟨w, rfl, hsw, _⟩ := joinMixed_eq_integral (hu.symm.trans hd) hdi
      exact hz.int_mono (Nat.le_trans has hsw)
  | uint a =>
    obtain ⟨u, hau, hu | ⟨s, hs⟩⟩ := joinIntegers_of_mem_uint ht
    · rw [← hd, hu]
      exact hz.uint_mono hau
    · obtain ⟨w, rfl, _, huw⟩ := joinMixed_eq_integral (hs.symm.trans hd) hdi
      exact hz.int_of_uint (Nat.lt_of_le_of_lt hau huw)
  | float p | complex p => exact absurd hz id

end DType

end Broadcast
