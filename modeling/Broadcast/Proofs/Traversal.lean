import Broadcast.Proofs.RowMajor

/-!
# The order of a traversal

A traversal starts at the first index and goes on by `advance`, which counts up from the last axis
with a carry. `unravel` finds an index by dividing its place by the sizes. Both describe the walk of
the shape (`traverse_eq_mapM`, `unravel_ordinal`), so the index after that of a place is the index
of the next place (`unravel_succ`), and `traversal_in_order` says what a traversal visits.
-/

namespace Broadcast.Index

variable {s : Shape}

/-! ## Places and their indices -/

/-- An index is found again from its place. -/
theorem unravel_ordinal {index : Index} (h : InBounds index s) :
    unravel (ordinal index s) s = .ok index := by
  obtain ⟨found, hfound, hb, ho⟩ := unravel_eq_ok (ordinal_lt h)
  rw [hfound, eq_of_ordinal_eq hb h ho]

/-- Going on from the index of a place leads to the index of the next place. -/
theorem unravel_succ {index : Index} (h : InBounds index s)
    (hlt : ordinal index s + 1 < s.prod) :
    unravel (ordinal index s + 1) s = .ok (advance s index) := by
  obtain ⟨hb, ho⟩ := advance_inBounds h hlt
  rw [← ho]
  exact unravel_ordinal hb

/-! ## The indices that are visited -/

theorem nodup_walk (s : Shape) : (walk s).Nodup := by
  refine (pairwise_walk s).imp ?_
  rintro index _ hlt rfl
  exact List.lt_irrefl index hlt

theorem walk_of_zero_mem (h : 0 ∈ s) : walk s = [] := by
  rw [← List.length_eq_zero_iff, length_walk]
  exact List.prod_eq_zero h

/-- Collecting the indices themselves gives the walk. -/
theorem all_eq_walk {count : Nat} (hcount : s.numel = .ok count) :
    all s = .ok (walk s).toArray := by
  have hself : (walk s).mapM (fun index => (.ok index : Except Fault Index)) = .ok (walk s) :=
    mapM_eq_ok_iff.mpr (List.forall₂_same.mpr fun _ _ => rfl)
  rw [all, traverse_eq_mapM hcount, hself]
  rfl

/--
**A traversal visits every index once and in order.** Let the elements of a shape be countable.
Then a traversal makes as many visits as there are elements, in strictly increasing lexicographic
order, to every index in bounds exactly once and to nothing else: one visit to the empty index where
there are no axes, and none where an axis is empty. Whatever is read on the way, it is read at these
indices in this order, up to the first fault.

The index of each visit is the one that `unravel` finds for its number. It is in bounds, that number
is its place, and before the last visit `advance` turns it into the index of the next one.
-/
theorem traversal_in_order {count : Nat} (hcount : s.numel = .ok count) :
    ∃ visited : Array Index, all s = .ok visited ∧
      (∀ (α : Type) (read : Index → Except Fault α),
        traverse s read = List.toArray <$> visited.toList.mapM read) ∧
      visited.size = count ∧
      visited.toList.Pairwise (· < ·) ∧
      visited.toList.Nodup ∧
      (∀ index : Index, index ∈ visited ↔ InBounds index s) ∧
      (s = [] → visited = #[[]]) ∧
      (0 ∈ s → visited = #[]) ∧
      ∀ k < count, ∃ index, unravel k s = .ok index ∧ visited[k]? = some index ∧
        InBounds index s ∧ ordinal index s = k ∧
        (k + 1 < count → unravel (k + 1) s = .ok (advance s index)) := by
  refine ⟨(walk s).toArray, all_eq_walk hcount, fun _ read => traverse_eq_mapM hcount read, ?_,
    pairwise_walk s, nodup_walk s, ?_, ?_, ?_, ?_⟩
  · rw [List.size_toArray, length_walk, (Shape.numel_eq_ok hcount).1]
  · intro index
    rw [List.mem_toArray]
    exact mem_walk
  · rintro rfl
    rfl
  · intro hzero
    rw [walk_of_zero_mem hzero]
  · intro k hk
    obtain ⟨rfl, _⟩ := Shape.numel_eq_ok hcount
    obtain ⟨index, hindex, hb, rfl⟩ := unravel_eq_ok hk
    refine ⟨index, hindex, ?_, hb, rfl, unravel_succ hb⟩
    rw [List.getElem?_toArray]
    exact getElem?_walk hb

/-- The carry at the end of a row passes over an axis of size one. -/
theorem traversal_in_order_carry :
    unravel 2 [2, 1, 3] = .ok [0, 0, 2] ∧ ordinal [0, 0, 2] [2, 1, 3] = 2 ∧
      unravel 3 [2, 1, 3] = .ok (advance [2, 1, 3] [0, 0, 2]) ∧
      advance [2, 1, 3] [0, 0, 2] = [1, 0, 0] := by
  have hcount : Shape.numel [2, 1, 3] = .ok 6 := rfl
  obtain ⟨visited, _, _, _, _, _, _, _, _, hvisits⟩ := traversal_in_order hcount
  obtain ⟨index, hindex, _, _, hplace, hnext⟩ := hvisits 2 (by decide)
  obtain rfl : [0, 0, 2] = index := Except.ok.inj hindex
  exact ⟨hindex, hplace, hnext (by decide), rfl⟩

end Broadcast.Index
