import Broadcast.Proofs.PromotedTypes

/-!
# Promotion in two steps

A nested expression promotes some of its types first and the result with the others afterwards.
This gives the type of the flat expression with one exception (`promote_promoteAll`): a 64-bit
unsigned and a signed integer that meet in the flat expression only make it double precision, but
each of them alone gives way to single precision.

The integers alone can be joined in two steps, so the two results can differ only next to a
floating-point type. There both are the types of highest rank, of the same floating-point types and
of the joins of the integers, which the nested expression sees one by one.
-/

namespace Broadcast.DType

/-- A list with both a 64-bit unsigned integer and a signed one, which no integer type holds. -/
def Mixed (types : List DType) : Prop :=
  uint .w64 ∈ types ∧ ∃ w, int w ∈ types

theorem joinMixed_eq_double_iff : ∀ {s u : Width}, joinMixed s u = float .double ↔ u = .w64 := by
  decide

theorem joinMixed_ne_uint : ∀ {s u w : Width}, joinMixed s u ≠ uint w := by
  decide

theorem joinIntegers_eq_double_iff {types : List DType} :
    joinIntegers types = float .double ↔ Mixed types := by
  constructor
  · intro h
    rcases joinIntegers_cases types with hj | ⟨s, _, hj⟩ | ⟨u, _, hj⟩ | ⟨s, u, hs, hu, hj⟩
    · cases h.symm.trans hj
    · cases h.symm.trans hj
    · cases h.symm.trans hj
    · obtain rfl := joinMixed_eq_double_iff.mp (hj.symm.trans h)
      exact ⟨hu, s, hs⟩
  · rintro ⟨hu, w, hw⟩
    obtain ⟨u, hbits, hjoin⟩ := joinIntegers_of_mem_uint hu
    obtain rfl : u = .w64 := by cases u <;> simp_all [Width.bits]
    rcases hjoin with hj | ⟨s, hj⟩
    · -- A signed integer in the list leaves no unsigned join.
      obtain ⟨s, _, hs | ⟨v, hs⟩⟩ := joinIntegers_of_mem_int hw
      · cases hj.symm.trans hs
      · exact absurd (hs.symm.trans hj) joinMixed_ne_uint
    · rw [hj]
      exact joinMixed_eq_double_iff.mpr rfl

/-- Besides its own ones, a list has double precision as a floating-point part if it is mixed. -/
theorem mem_parts_iff_of_isFloating {types : List DType} {d : DType} (hd : d.isFloating) :
    d ∈ parts types ↔ d ∈ types ∨ d = float .double ∧ Mixed types := by
  rw [mem_parts, ← joinIntegers_eq_double_iff]
  constructor
  · rintro (rfl | ⟨hmem, _⟩)
    · have hjoin : joinIntegers types = float .double :=
        joinIntegers_eq_double fun h => isIntegral_iff_not_isFloating.mp h hd
      exact .inr ⟨hjoin, hjoin⟩
    · exact .inl hmem
  · rintro (hmem | ⟨rfl, hjoin⟩)
    · exact .inr ⟨hmem, hd⟩
    · exact .inl hjoin.symm

theorem isFloating_promoteAll {types : List DType} {t : DType} (ht : t ∈ types)
    (hfloating : t.isFloating) : (promoteAll types).isFloating := by
  have hle := (promoteAll_isHighest types).rank_le t (mem_parts.mpr (.inr ⟨ht, hfloating⟩))
  rw [isFloating_iff_rank] at hfloating ⊢
  omega

/-! ## Two lists -/

section TwoLists

variable {xs ys : List DType}

theorem Mixed.append (h : Mixed xs ∨ Mixed ys) : Mixed (xs ++ ys) := by
  rcases h with ⟨hu, w, hw⟩ | ⟨hu, w, hw⟩
  · exact ⟨List.mem_append_left _ hu, w, List.mem_append_left _ hw⟩
  · exact ⟨List.mem_append_right _ hu, w, List.mem_append_right _ hw⟩

theorem mem_append_parts_iff {d : DType} (hd : d.isFloating) :
    d ∈ parts xs ++ parts ys ↔ d ∈ xs ++ ys ∨ d = float .double ∧ (Mixed xs ∨ Mixed ys) := by
  rw [List.mem_append, List.mem_append, mem_parts_iff_of_isFloating hd,
    mem_parts_iff_of_isFloating hd, and_or_left]
  exact or_or_or_comm

theorem IsHighest.promote {a b : DType} (ha : IsHighest a xs) (hb : IsHighest b ys)
    (h : a.isFloating ∨ b.isFloating) : IsHighest (promote a b) (xs ++ ys) := by
  obtain ⟨hle, hle'⟩ := rank_le_promote a b
  constructor
  · rw [promote_eq_ite_rank h]
    split
    · exact List.mem_append_left _ ha.mem
    · exact List.mem_append_right _ hb.mem
  · intro t ht
    rcases List.mem_append.mp ht with ht | ht
    · exact Nat.le_trans (ha.rank_le t ht) hle
    · exact Nat.le_trans (hb.rank_le t ht) hle'

/-- Next to a floating-point type, promotion in two steps gives the highest part of either list. -/
theorem isHighest_nested {t : DType} (ht : t ∈ xs ++ ys) (hfloating : t.isFloating) :
    (promote (promoteAll xs) (promoteAll ys)).isFloating ∧
      IsHighest (promote (promoteAll xs) (promoteAll ys)) (parts xs ++ parts ys) := by
  have hsome : (promoteAll xs).isFloating ∨ (promoteAll ys).isFloating :=
    (List.mem_append.mp ht).imp (isFloating_promoteAll · hfloating)
      (isFloating_promoteAll · hfloating)
  have hhighest := (promoteAll_isHighest xs).promote (promoteAll_isHighest ys) hsome
  refine ⟨?_, hhighest⟩
  have hle := hhighest.rank_le t ((mem_append_parts_iff hfloating).mpr (.inl ht))
  rw [isFloating_iff_rank] at hfloating ⊢
  omega

/--
Two lists that are not mixed make a mixed one together, and single precision is the only
floating-point type in them.
-/
structure SplitMixed (xs ys : List DType) : Prop where
  left : ¬ Mixed xs
  right : ¬ Mixed ys
  mixed : Mixed (xs ++ ys)
  single_mem : float .single ∈ xs ++ ys
  double_notMem : float .double ∉ xs ++ ys
  complex_notMem : ∀ p, complex p ∉ xs ++ ys

namespace SplitMixed

theorem eq_single (h : SplitMixed xs ys) {t : DType} (ht : t ∈ xs ++ ys)
    (hfloating : t.isFloating) : t = float .single := by
  cases t with
  | bool | int w | uint w => cases hfloating
  | float p =>
    cases p with
    | single => rfl
    | double => exact absurd ht h.double_notMem
  | complex p => exact absurd ht (h.complex_notMem p)

theorem nested_eq (h : SplitMixed xs ys) :
    promote (promoteAll xs) (promoteAll ys) = float .single := by
  obtain ⟨hfloating, hmem, _⟩ := isHighest_nested h.single_mem rfl
  rcases (mem_append_parts_iff hfloating).mp hmem with hmem | ⟨_, hmixed⟩
  · exact h.eq_single hmem hfloating
  · exact absurd hmixed (not_or.mpr ⟨h.left, h.right⟩)

theorem flat_eq (h : SplitMixed xs ys) : promoteAll (xs ++ ys) = float .double := by
  refine promoteAll_eq_iff.mpr ⟨?_, ?_⟩
  · exact (mem_parts_iff_of_isFloating rfl).mpr (.inr ⟨rfl, h.mixed⟩)
  · intro t ht
    rcases mem_parts.mp ht with ht | ⟨ht, hfloating⟩
    · rw [ht, joinIntegers_eq_double_iff.mpr h.mixed]
    · rw [h.eq_single ht hfloating]
      decide

end SplitMixed

/-- If single precision is the highest part of either list, a mixed list has been split. -/
theorem splitMixed_of_isHighest (h : IsHighest (float .single) (parts xs ++ parts ys))
    (hmixed : Mixed (xs ++ ys)) : SplitMixed xs ys := by
  have hpart : ∀ {t : DType}, t.isFloating → 5 < t.rank →
      ¬ (t ∈ xs ++ ys ∨ t = float .double ∧ (Mixed xs ∨ Mixed ys)) := by
    intro t hfloating hlt ht
    exact absurd (h.rank_le t ((mem_append_parts_iff hfloating).mpr ht)) (Nat.not_le.mpr hlt)
  have hdouble := hpart (t := float .double) rfl (by decide)
  refine ⟨?_, ?_, hmixed, ?_, ?_, ?_⟩
  · exact fun hleft => hdouble (.inr ⟨rfl, .inl hleft⟩)
  · exact fun hright => hdouble (.inr ⟨rfl, .inr hright⟩)
  · exact ((mem_append_parts_iff rfl).mp h.mem).resolve_right fun h => by cases h.1
  · exact fun hmem => hdouble (.inl hmem)
  · intro p hmem
    exact hpart rfl (by cases p <;> decide) (.inl hmem)

theorem eq_of_not_splitMixed (h : ¬ SplitMixed xs ys) :
    promote (promoteAll xs) (promoteAll ys) = promoteAll (xs ++ ys) := by
  by_cases hsome : ∃ t ∈ xs ++ ys, t.isFloating
  · obtain ⟨t, ht, hfloating⟩ := hsome
    obtain ⟨hnested, hhighest⟩ := isHighest_nested ht hfloating
    refine (promoteAll_eq_iff.mpr ⟨?_, ?_⟩).symm
    · refine (mem_parts_iff_of_isFloating hnested).mpr ?_
      exact ((mem_append_parts_iff hnested).mp hhighest.mem).imp_right (.imp_right Mixed.append)
    · intro d hd
      by_cases hdf : d.isFloating
      · rcases (mem_parts_iff_of_isFloating hdf).mp hd with hd | ⟨rfl, hmixed⟩
        · exact hhighest.rank_le d ((mem_append_parts_iff hdf).mpr (.inl hd))
        · -- Below double precision there is single precision only.
          by_contra hlt
          have hlow : 5 ≤ (promote (promoteAll xs) (promoteAll ys)).rank :=
            isFloating_iff_rank.mp hnested
          have hhigh : (promote (promoteAll xs) (promoteAll ys)).rank < 6 := Nat.not_le.mp hlt
          have hsingle : promote (promoteAll xs) (promoteAll ys) = float .single :=
            eq_of_rank_eq hnested (Nat.le_antisymm (Nat.le_of_lt_succ hhigh) hlow)
          exact h (splitMixed_of_isHighest (hsingle ▸ hhighest) hmixed)
      · rw [isFloating_iff_rank] at hnested hdf
        omega
  · have hintegral : ∀ t ∈ xs ++ ys, t.isIntegral := by
      intro t ht
      exact isIntegral_iff_not_isFloating.mpr fun hfloating => hsome ⟨t, ht, hfloating⟩
    obtain ⟨hxs, hys⟩ := List.forall_mem_append.mp hintegral
    rw [promoteAll_eq_joinIntegers hxs, promoteAll_eq_joinIntegers hys,
      promoteAll_eq_joinIntegers hintegral, joinIntegers_append]

end TwoLists

/--
**Promotion in two steps.** Promoting two lists apart and the results together gives the type to
which the lists promote together, unless a 64-bit unsigned and a signed integer come together only
then, and single precision is the only floating-point type in the lists. In that case promotion in
two steps gives single precision, and promotion at once gives double precision.
-/
theorem promote_promoteAll (xs ys : List DType) :
    (promote (promoteAll xs) (promoteAll ys) = promoteAll (xs ++ ys) ↔ ¬ SplitMixed xs ys) ∧
    (SplitMixed xs ys → promote (promoteAll xs) (promoteAll ys) = float .single ∧
      promoteAll (xs ++ ys) = float .double) := by
  refine ⟨⟨?_, eq_of_not_splitMixed⟩, fun h => ⟨h.nested_eq, h.flat_eq⟩⟩
  intro heq h
  rw [h.nested_eq, h.flat_eq] at heq
  cases heq

/-- The unsigned integer is promoted alone, and the signed one next to single precision. -/
theorem promote_promoteAll_split :
    SplitMixed [uint .w64] [int .w8, float .single] ∧
      promote (promoteAll [uint .w64]) (promoteAll [int .w8, float .single]) = float .single ∧
      promoteAll ([uint .w64] ++ [int .w8, float .single]) = float .double ∧
      promote (promoteAll [uint .w64, int .w8]) (promoteAll [float .single])
        = promoteAll ([uint .w64, int .w8] ++ [float .single]) := by
  have hsplit : SplitMixed [uint .w64] [int .w8, float .single] := by
    constructor <;> simp [Mixed]
  obtain ⟨hnested, hflat⟩ := (promote_promoteAll _ _).2 hsplit
  refine ⟨hsplit, hnested, hflat, (promote_promoteAll _ _).1.mpr ?_⟩
  exact fun h => h.left ⟨by simp, .w8, by simp⟩

end Broadcast.DType
