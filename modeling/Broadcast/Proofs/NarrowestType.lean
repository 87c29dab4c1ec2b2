import Broadcast.Proofs.Integers

/-!
# The narrowest common type

Truth values and integers promote to a type that holds all of their numbers, as long as there is one
among the types of whole numbers, and no type that holds them is narrower (`promoteAll_narrowest`).
Next to a 64-bit unsigned integer, a signed one leaves no such type, and double precision takes its
place.

That a type holds the numbers of another is said of the elements (`HoldsAll`) and proved on the
ranges: the least number of a signed type and the greatest of an unsigned one rule out every type that
is too narrow.
-/

namespace Broadcast

namespace Width

theorem eight_le_bits (w : Width) : 8 ≤ w.bits := by
  cases w <;> decide

instance : Std.MaxEqOr Width where
  max_eq_or a b := by cases a <;> cases b <;> decide

end Width

namespace DType

/-- Each value of one of the types has its number among the elements of `d`. -/
def HoldsAll (d : DType) (types : List DType) : Prop :=
  ∀ v : Value, v.dtype ∈ types → ∃ x : d.Elem, Value.toInt ⟨d, x⟩ = v.toInt

/-! ## Ranges -/

theorem holdsAll_iff {d : DType} (hd : d.isIntegral) {types : List DType}
    (htypes : ∀ t ∈ types, t.isIntegral) :
    d.HoldsAll types ↔ ∀ t ∈ types, ∀ z, t.Represents z → d.Represents z := by
  constructor
  · intro h t ht z hz
    obtain ⟨x, hx⟩ := h ⟨t, t.ofInt z⟩ ht
    rw [hz.toInt_ofInt] at hx
    exact hx ▸ represents_toInt hd x
  · rintro h ⟨t, y⟩ ht
    have hz : d.Represents (Value.toInt ⟨t, y⟩) := h t ht _ (represents_toInt (htypes t ht) y)
    exact ⟨d.ofInt (Value.toInt ⟨t, y⟩), hz.toInt_ofInt⟩

/-- Only a signed type that is as wide holds the least number of a signed type. -/
theorem eq_int_of_represents {s : Width} {d : DType}
    (h : ∀ z, (int s).Represents z → d.Represents z) : ∃ w, d = int w ∧ s.bits ≤ w.bits := by
  have hpos : (0 : Int) < 2 ^ (s.bits - 1) := pow_pos two_pos _
  have hleast : d.Represents (-2 ^ (s.bits - 1)) := h _ ⟨le_refl _, by omega⟩
  cases d with
  | bool => rcases hleast with h0 | h1 <;> omega
  | int w =>
    have hpow : (2 : Int) ^ (s.bits - 1) ≤ 2 ^ (w.bits - 1) := neg_le_neg_iff.mp hleast.1
    have hle : s.bits - 1 ≤ w.bits - 1 := (pow_le_pow_iff_right₀ one_lt_two).mp hpow
    have hw := w.eight_le_bits
    exact ⟨w, rfl, by omega⟩
  | uint w =>
    have h0 := hleast.1
    omega
  | float p | complex p => exact absurd hleast id

/--
Only a signed type that is wider, or an unsigned one that is as wide, holds the greatest number of an
unsigned type.
-/
theorem eq_int_or_uint_of_represents {u : Width} {d : DType}
    (h : ∀ z, (uint u).Represents z → d.Represents z) :
    (∃ w, d = int w ∧ u.bits < w.bits) ∨ ∃ w, d = uint w ∧ u.bits ≤ w.bits := by
  have hbyte : (2 : Int) ^ 8 ≤ 2 ^ u.bits := pow_le_pow_right₀ one_le_two u.eight_le_bits
  have hgreatest : d.Represents (2 ^ u.bits - 1) := h _ ⟨by omega, by omega⟩
  cases d with
  | bool => rcases hgreatest with h0 | h1 <;> omega
  | int w =>
    have hpow : (2 : Int) ^ u.bits ≤ 2 ^ (w.bits - 1) := Int.sub_one_lt_iff.mp hgreatest.2
    have hle : u.bits ≤ w.bits - 1 := (pow_le_pow_iff_right₀ one_lt_two).mp hpow
    have hw := w.eight_le_bits
    exact .inl ⟨w, rfl, by omega⟩
  | uint w =>
    have hpow : (2 : Int) ^ u.bits ≤ 2 ^ w.bits := Int.sub_one_lt_iff.mp hgreatest.2
    exact .inr ⟨w, rfl, (pow_le_pow_iff_right₀ one_lt_two).mp hpow⟩
  | float p | complex p => exact absurd hgreatest id

/-! ## Joins -/

theorem joinMixed_eq_double {s u : Width} (h : ¬ (joinMixed s u).isIntegral) :
    joinMixed s u = float .double := by
  unfold joinMixed at h ⊢
  split
  · next w hfind =>
    rw [hfind] at h
    exact absurd rfl h
  · rfl

/-- A signed type that is wide enough for both is no narrower than the one in which they meet. -/
theorem joinMixed_narrowest {s u w : Width} (hs : s.bits ≤ w.bits) (hu : u.bits < w.bits) :
    (joinMixed s u).isIntegral ∧ (joinMixed s u).sizeBytes ≤ (int w).sizeBytes := by
  revert hs hu
  cases s <;> cases u <;> cases w <;> decide

/-- The integers of a list meet in the type of one of them, or where a signed and an unsigned do. -/
theorem joinIntegers_cases (types : List DType) :
    joinIntegers types = bool ∨ (∃ s, int s ∈ types ∧ joinIntegers types = int s) ∨
      (∃ u, uint u ∈ types ∧ joinIntegers types = uint u) ∨
      ∃ s u, int s ∈ types ∧ uint u ∈ types ∧ joinIntegers types = joinMixed s u := by
  have hsigned : ∀ s, (types.filterMap signedWidth?).max? = some s → int s ∈ types := by
    intro s hs
    obtain ⟨t, ht, hts⟩ := List.mem_filterMap.mp (List.max?_mem hs)
    cases t <;> simp_all [signedWidth?]
  have hunsigned : ∀ u, (types.filterMap unsignedWidth?).max? = some u → uint u ∈ types := by
    intro u hu
    obtain ⟨t, ht, htu⟩ := List.mem_filterMap.mp (List.max?_mem hu)
    cases t <;> simp_all [unsignedWidth?]
  unfold joinIntegers
  cases hs : (types.filterMap signedWidth?).max? with
  | none =>
    cases hu : (types.filterMap unsignedWidth?).max? with
    | none => exact .inl rfl
    | some u => exact .inr (.inr (.inl ⟨u, hunsigned u hu, rfl⟩))
  | some s =>
    cases hu : (types.filterMap unsignedWidth?).max? with
    | none => exact .inr (.inl ⟨s, hsigned s hs, rfl⟩)
    | some u => exact .inr (.inr (.inr ⟨s, u, hsigned s hs, hunsigned u hu, rfl⟩))

theorem joinIntegers_eq_double {types : List DType} (h : ¬ (joinIntegers types).isIntegral) :
    joinIntegers types = float .double := by
  rcases joinIntegers_cases types with hj | ⟨s, _, hj⟩ | ⟨u, _, hj⟩ | ⟨s, u, _, _, hj⟩
  · exact absurd (by rw [hj]; rfl) h
  · exact absurd (by rw [hj]; rfl) h
  · exact absurd (by rw [hj]; rfl) h
  · rw [hj] at h ⊢
    exact joinMixed_eq_double h

theorem one_le_sizeBytes (d : DType) : 1 ≤ d.sizeBytes := by
  cases d with
  | bool => decide
  | int w | uint w => cases w <;> decide
  | float p | complex p => cases p <;> decide

theorem sizeBytes_le_of_bits_le {d e : DType} (h : d.bits ≤ e.bits) : d.sizeBytes ≤ e.sizeBytes :=
  Nat.div_le_div_right h

/-- A type that holds all numbers of the integers in a list is no narrower than their join. -/
theorem joinIntegers_narrowest {types : List DType} {d : DType}
    (h : ∀ t ∈ types, ∀ z, t.Represents z → d.Represents z) :
    (joinIntegers types).isIntegral ∧ (joinIntegers types).sizeBytes ≤ d.sizeBytes := by
  rcases joinIntegers_cases types with hj | ⟨s, hs, hj⟩ | ⟨u, hu, hj⟩ | ⟨s, u, hs, hu, hj⟩
  · rw [hj]
    exact ⟨rfl, one_le_sizeBytes d⟩
  · obtain ⟨w, rfl, hle⟩ := eq_int_of_represents (h _ hs)
    rw [hj]
    exact ⟨rfl, sizeBytes_le_of_bits_le hle⟩
  · rw [hj]
    refine ⟨rfl, ?_⟩
    rcases eq_int_or_uint_of_represents (h _ hu) with ⟨w, rfl, hlt⟩ | ⟨w, rfl, hle⟩
    · exact sizeBytes_le_of_bits_le (Nat.le_of_lt hlt)
    · exact sizeBytes_le_of_bits_le hle
  · -- The signed one admits signed types only, and among these the unsigned one a wider one only.
    obtain ⟨w, rfl, hle⟩ := eq_int_of_represents (h _ hs)
    rcases eq_int_or_uint_of_represents (h _ hu) with ⟨w', hw', hlt⟩ | ⟨w', hw', _⟩
    · cases hw'
      rw [hj]
      exact joinMixed_narrowest hle hlt
    · cases hw'

/--
**Promotion of whole numbers is lossless and minimal.** Truth values and integers promote to such a
type again exactly if one of these types holds the numbers of all of them, and to double precision
otherwise. In the first case every value keeps its number when it is converted to the promoted type,
and no type that holds all numbers takes fewer bytes.
-/
theorem promoteAll_narrowest {types : List DType} (htypes : ∀ t ∈ types, t.isIntegral) :
    ((promoteAll types).isIntegral ↔ ∃ d : DType, d.isIntegral ∧ d.HoldsAll types) ∧
    (¬ (promoteAll types).isIntegral → promoteAll types = float .double) ∧
    ((promoteAll types).isIntegral →
      (∀ v : Value, v.dtype ∈ types → (v.cast (promoteAll types)).toInt = v.toInt) ∧
      ∀ d : DType, d.isIntegral → d.HoldsAll types →
        (promoteAll types).sizeBytes ≤ d.sizeBytes) := by
  have hnarrowest : ∀ d : DType, d.isIntegral → d.HoldsAll types →
      (promoteAll types).isIntegral ∧ (promoteAll types).sizeBytes ≤ d.sizeBytes := by
    intro d hd hholds
    rw [promoteAll_eq_joinIntegers htypes]
    exact joinIntegers_narrowest ((holdsAll_iff hd htypes).mp hholds)
  refine ⟨⟨?_, ?_⟩, ?_, ?_⟩
  · intro hd
    exact ⟨_, hd, (holdsAll_iff hd htypes).mpr fun t ht z => .promoteAll htypes rfl hd ht⟩
  · rintro ⟨d, hd, hholds⟩
    exact (hnarrowest d hd hholds).1
  · rw [promoteAll_eq_joinIntegers htypes]
    exact joinIntegers_eq_double
  · intro hd
    refine ⟨?_, fun d hdi hholds => (hnarrowest d hdi hholds).2⟩
    intro v hv
    have hv' := htypes _ hv
    exact (Represents.promoteAll htypes rfl hd hv (represents_toInt hv' v.elem)).toInt_cast hv' hd

/-- A signed and a narrower unsigned type meet above both, and the least number is kept. -/
theorem promoteAll_narrowest_mixed :
    promoteAll [bool, int .w16, uint .w16, uint .w8] = int .w32 ∧
      (Value.cast ⟨int .w16, -32768⟩ (int .w32)).toInt = -32768 ∧
      ¬ (int .w16).HoldsAll [bool, int .w16, uint .w16, uint .w8] := by
  have htypes : ∀ t ∈ [bool, int .w16, uint .w16, uint .w8], t.isIntegral := by decide
  obtain ⟨_, _, h⟩ := promoteAll_narrowest htypes
  obtain ⟨hkeep, hnarrow⟩ := h rfl
  exact ⟨rfl, hkeep ⟨int .w16, -32768⟩ (by decide), fun hholds =>
    absurd (hnarrow (int .w16) rfl hholds) (by decide)⟩

-- No type of whole numbers holds these two.
example : promoteAll [uint .w64, int .w8] = float .double := rfl

end DType

end Broadcast
