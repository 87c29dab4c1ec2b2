import Mathlib.Data.Fintype.Option
import Broadcast.Proofs.NarrowestType

/-!
# The promoted type of a list

The type to which a list promotes hangs on nothing but which types occur in it, and it grows with
the list (`promoteAll_members`). Both follow from a description of the promoted type without a fold:
among the join of the integers and the floating-point types of the list, it is the one of highest
rank (`promoteAll_eq_iff`). Above the integers no two types share a rank, so there is only one such
type.

The integers are joined by their widest signed and widest unsigned type. So joining the integers of
two lists apart makes no difference (`joinIntegers_append`), even where the join is no integer.
-/

namespace Broadcast

/-! ## Widths -/

namespace Width

instance : Fintype Width where
  elems := ⟨all, by decide⟩
  complete w := by cases w <;> decide

instance : LE Width where
  le a b := a.rank ≤ b.rank

instance : Std.IsLinearOrder Width where
  le_refl a := Nat.le_refl a.rank
  le_trans _ _ _ := Nat.le_trans
  le_antisymm a b := by cases a <;> cases b <;> decide
  le_total a b := Nat.le_total a.rank b.rank

instance : Std.LawfulOrderMax Width where
  max_le_iff a b c := by cases a <;> cases b <;> cases c <;> decide

theorem max?_congr {l l' : List Width} (h : ∀ w, w ∈ l ↔ w ∈ l') : l.max? = l'.max? := by
  refine Option.ext fun m => ?_
  simp only [List.max?_eq_some_iff, h]

theorem max?_append (l l' : List Width) : (l ++ l').max? = Option.merge max l.max? l'.max? := by
  cases hl : l.max? with
  | none =>
    rw [List.max?_eq_none_iff.mp hl, List.nil_append]
    cases l'.max? <;> rfl
  | some a =>
    cases hl' : l'.max? with
    | none =>
      rw [List.max?_eq_none_iff.mp hl', List.append_nil, hl]
      rfl
    | some b =>
      obtain ⟨ha, hle⟩ := List.max?_eq_some_iff.mp hl
      obtain ⟨hb, hle'⟩ := List.max?_eq_some_iff.mp hl'
      refine List.max?_eq_some_iff.mpr ⟨?_, ?_⟩
      · rcases Std.MaxEqOr.max_eq_or a b with h | h <;> simp [h, ha, hb]
      · intro w hw
        rcases List.mem_append.mp hw with hw | hw
        · exact Std.le_trans (hle w hw) Std.left_le_max
        · exact Std.le_trans (hle' w hw) Std.right_le_max

end Width

namespace DType

instance : Fintype DType where
  elems := ⟨all, by decide⟩
  complete := mem_all

/-! ## Integers -/

/-- The type in which a signed and an unsigned width meet, either of which may be missing. -/
def joinWidths : Option Width → Option Width → DType
  | some s, some u => joinMixed s u
  | some s, none => int s
  | none, some u => uint u
  | none, none => bool

theorem joinIntegers_eq (types : List DType) : joinIntegers types
    = joinWidths (types.filterMap signedWidth?).max? (types.filterMap unsignedWidth?).max? := by
  unfold joinIntegers joinWidths
  rfl

/-- The widths of two lists may be joined first, or what the widths of each of them meet in. -/
theorem joinWidths_merge : ∀ s s' u u' : Option Width,
    joinWidths (s.merge max s') (u.merge max u')
      = promote (joinWidths s u) (joinWidths s' u') := by
  decide +kernel

/-- The integers of two lists may be joined apart. -/
theorem joinIntegers_append (xs ys : List DType) :
    joinIntegers (xs ++ ys) = promote (joinIntegers xs) (joinIntegers ys) := by
  simp only [joinIntegers_eq, List.filterMap_append, Width.max?_append, joinWidths_merge]

theorem joinIntegers_congr {xs ys : List DType} (h : ∀ t, t ∈ xs ↔ t ∈ ys) :
    joinIntegers xs = joinIntegers ys := by
  have hmem : ∀ (f : DType → Option Width) (w : Width),
      w ∈ xs.filterMap f ↔ w ∈ ys.filterMap f := by
    intro f w
    simp only [List.mem_filterMap, h]
  rw [joinIntegers_eq, joinIntegers_eq, Width.max?_congr (hmem signedWidth?),
    Width.max?_congr (hmem unsignedWidth?)]

/-! ## Ranks -/

/-- Real and complex numbers. -/
def isFloating (d : DType) : Bool :=
  d.isFloat || d.isComplex

theorem isFloating_iff_rank : ∀ {d : DType}, d.isFloating ↔ 5 ≤ d.rank := by
  decide

theorem isIntegral_iff_not_isFloating : ∀ {d : DType}, d.isIntegral ↔ ¬ d.isFloating := by
  decide

/-- Floating-point types are told apart by their ranks. -/
theorem eq_of_rank_eq : ∀ {a b : DType}, a.isFloating → a.rank = b.rank → a = b := by
  decide

theorem rank_le_promote : ∀ a b : DType,
    a.rank ≤ (promote a b).rank ∧ b.rank ≤ (promote a b).rank := by
  decide

/-- Next to a floating-point type, the type of higher rank is the common one. -/
theorem promote_eq_ite_rank : ∀ {a b : DType}, a.isFloating ∨ b.isFloating →
    promote a b = if b.rank ≤ a.rank then a else b := by
  decide

/-! ## The type of highest rank -/

/-- A type of the list whose rank no other one exceeds. -/
structure IsHighest (d : DType) (types : List DType) : Prop where
  mem : d ∈ types
  rank_le : ∀ t ∈ types, t.rank ≤ d.rank

/-- What is left of a list once its integers are joined. -/
def parts (types : List DType) : List DType :=
  joinIntegers types :: types.filter isFloating

theorem mem_parts {types : List DType} {d : DType} :
    d ∈ parts types ↔ d = joinIntegers types ∨ d ∈ types ∧ d.isFloating := by
  simp [parts]

theorem isHighest_foldl_promote : ∀ {types : List DType} (start : DType),
    (∀ t ∈ types, t.isFloating) → IsHighest (types.foldl promote start) (start :: types)
  | [], start, _ => ⟨List.mem_singleton.mpr rfl, by simp⟩
  | t :: types, start, h => by
    obtain ⟨ht, htypes⟩ := List.forall_mem_cons.mp h
    obtain ⟨hmem, hle⟩ := isHighest_foldl_promote (promote start t) htypes
    obtain ⟨hstart, hrank⟩ := rank_le_promote start t
    obtain ⟨hnext, hrest⟩ := List.forall_mem_cons.mp hle
    rw [List.foldl_cons]
    refine ⟨?_, ?_⟩
    · rcases List.mem_cons.mp hmem with h | h
      · rw [h, promote_eq_ite_rank (.inr ht)]
        split <;> simp
      · exact List.mem_cons_of_mem _ (List.mem_cons_of_mem _ h)
    · refine List.forall_mem_cons.mpr ⟨Nat.le_trans hstart hnext, ?_⟩
      exact List.forall_mem_cons.mpr ⟨Nat.le_trans hrank hnext, hrest⟩

theorem promoteAll_isHighest (types : List DType) : IsHighest (promoteAll types) (parts types) :=
  isHighest_foldl_promote _ fun _ ht => (List.mem_filter.mp ht).2

/-- No two of the types that are left share a rank. -/
theorem IsHighest.unique {types : List DType} {a b : DType} (ha : IsHighest a (parts types))
    (hb : IsHighest b (parts types)) : a = b := by
  have hrank : a.rank = b.rank := Nat.le_antisymm (hb.rank_le a ha.mem) (ha.rank_le b hb.mem)
  rcases mem_parts.mp ha.mem with h | ⟨_, hfloating⟩
  · rcases mem_parts.mp hb.mem with h' | ⟨_, hfloating⟩
    · rw [h, h']
    · exact (eq_of_rank_eq hfloating hrank.symm).symm
  · exact eq_of_rank_eq hfloating hrank

/-- The promoted type is the highest of the floating-point types and the join of the integers. -/
theorem promoteAll_eq_iff {types : List DType} {d : DType} :
    promoteAll types = d ↔ IsHighest d (parts types) := by
  constructor
  · rintro rfl
    exact promoteAll_isHighest types
  · exact (promoteAll_isHighest types).unique

theorem promoteAll_congr {xs ys : List DType} (h : ∀ t, t ∈ xs ↔ t ∈ ys) :
    promoteAll xs = promoteAll ys := by
  have hparts : ∀ t, t ∈ parts xs ↔ t ∈ parts ys := by
    intro t
    rw [mem_parts, mem_parts, joinIntegers_congr h, h]
  obtain ⟨hmem, hle⟩ := promoteAll_isHighest ys
  exact promoteAll_eq_iff.mpr ⟨(hparts _).mpr hmem, fun t ht => hle t ((hparts t).mp ht)⟩

theorem joinIntegers_singleton {d : DType} (h : d.isIntegral) : joinIntegers [d] = d := by
  cases d with
  | bool | int w | uint w => rfl
  | float p | complex p => cases h

/-- With one more type in front, the promoted type is of no lower rank, nor lower than that type. -/
theorem rank_le_promoteAll_cons (t : DType) (types : List DType) :
    (promoteAll types).rank ≤ (promoteAll (t :: types)).rank ∧
      t.rank ≤ (promoteAll (t :: types)).rank := by
  have hle := (promoteAll_isHighest (t :: types)).rank_le
  have hjoin : joinIntegers (t :: types) = promote (joinIntegers [t]) (joinIntegers types) :=
    joinIntegers_append [t] types
  have htop : (joinIntegers (t :: types)).rank ≤ (promoteAll (t :: types)).rank :=
    hle _ (mem_parts.mpr (.inl rfl))
  obtain ⟨hfirst, hrest⟩ := rank_le_promote (joinIntegers [t]) (joinIntegers types)
  rw [← hjoin] at hfirst hrest
  constructor
  · rcases mem_parts.mp (promoteAll_isHighest types).mem with h | ⟨hmem, hfloating⟩
    · rw [h]
      exact Nat.le_trans hrest htop
    · exact hle _ (mem_parts.mpr (.inr ⟨List.mem_cons_of_mem _ hmem, hfloating⟩))
  · by_cases ht : t.isFloating
    · exact hle _ (mem_parts.mpr (.inr ⟨List.mem_cons_self, ht⟩))
    · rw [joinIntegers_singleton (isIntegral_iff_not_isFloating.mpr ht)] at hfirst
      exact Nat.le_trans hfirst htop

theorem promoteAll_pair : ∀ a b : DType, promoteAll [a, b] = promote a b := by
  decide

/--
**Promotion hangs on which types occur.** Lists of the same types, in any order and however often
each is listed, promote to the same type. Adding a type to a list, at any place, never lowers the
rank of the promoted type, which is then at least the rank of the added type. One type promotes to
itself, and two types to their common type.
-/
theorem promoteAll_members :
    (∀ xs ys : List DType, (∀ t, t ∈ xs ↔ t ∈ ys) → promoteAll xs = promoteAll ys) ∧
    (∀ (front back : List DType) (t : DType),
      (promoteAll (front ++ back)).rank ≤ (promoteAll (front ++ t :: back)).rank ∧
      t.rank ≤ (promoteAll (front ++ t :: back)).rank) ∧
    (∀ a, promoteAll [a] = a) ∧
    ∀ a b, promoteAll [a, b] = promote a b := by
  refine ⟨fun _ _ => promoteAll_congr, ?_, by decide, promoteAll_pair⟩
  intro front back t
  have hfirst : promoteAll (front ++ t :: back) = promoteAll (t :: (front ++ back)) :=
    promoteAll_congr fun u => List.perm_middle.mem_iff
  rw [hfirst]
  exact rank_le_promoteAll_cons t (front ++ back)

/-- Pair by pair, the first two of these give way to single precision before the third comes. -/
theorem promoteAll_members_fallback :
    promoteAll [float .single, uint .w64, int .w8]
        = promoteAll [int .w8, float .single, uint .w64, int .w8] ∧
      promoteAll [float .single, uint .w64, int .w8] = float .double ∧
      promote (promote (float .single) (uint .w64)) (int .w8) = float .single :=
  ⟨promoteAll_members.1 _ _ (by decide), rfl, rfl⟩

end DType

end Broadcast
