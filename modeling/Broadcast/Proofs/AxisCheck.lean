import Mathlib.Data.List.Nodup
import Mathlib.Data.List.Perm.Subperm
import Broadcast.View

/-!
# The check of an order of axes

An order of all axes is a permutation of the numbers below the rank. The check goes through a list of
axes once and marks those that it has passed.

* `Marked.isSome_markSeen_iff` — an axis can be marked exactly if it is below the rank and new
* `Marked.markSeen` — the marks are then on the axes passed, this one included
* `Marked.isSome_foldlM_iff` — all axes of a list can be marked exactly if they are below the rank and
  differ from each other and from those passed before
* `isPermutation_iff` — such a list leaves no axis out if it is as long as the rank
-/

namespace Broadcast

theorem lt_of_perm_range {axes : List Nat} {n k : Nat} (h : axes.Perm (List.range n))
    (hk : k ∈ axes) : k < n :=
  List.mem_range.mp (h.mem_iff.mp hk)

theorem length_of_perm_range {axes : List Nat} {n : Nat} (h : axes.Perm (List.range n)) :
    axes.length = n := by
  simpa using h.length_eq

namespace View

variable {rank axis : Nat} {passed axes : List Nat} {seen seen' : Vector Bool rank}

/-- The marks are on the axes that have been passed, each of them once. -/
structure Marked (passed : List Nat) (seen : Vector Bool rank) : Prop where
  getElem_iff : ∀ axis (h : axis < rank), seen[axis] = true ↔ axis ∈ passed
  distinct : passed.Nodup

theorem marked_replicate (rank : Nat) : Marked [] (Vector.replicate rank false) where
  getElem_iff axis h := by simp
  distinct := .nil

/-! ## One axis -/

theorem markSeen_eq_some_iff : markSeen seen axis = some seen' ↔
    ∃ h : axis < rank, seen[axis] = false ∧ seen.set axis true = seen' := by
  unfold markSeen
  split
  · next h => cases hseen : seen[axis] <;> simp [h, hseen]
  · next h => simp [h]

theorem Marked.isSome_markSeen_iff (h : Marked passed seen) :
    (markSeen seen axis).isSome ↔ axis < rank ∧ axis ∉ passed := by
  rw [Option.isSome_iff_exists]
  constructor
  · rintro ⟨seen', hstep⟩
    obtain ⟨haxis, hseen, -⟩ := markSeen_eq_some_iff.mp hstep
    refine ⟨haxis, fun hmem => ?_⟩
    rw [(h.getElem_iff axis haxis).mpr hmem] at hseen
    cases hseen
  · rintro ⟨haxis, hmem⟩
    refine ⟨seen.set axis true, markSeen_eq_some_iff.mpr ⟨haxis, ?_, rfl⟩⟩
    rwa [← Bool.not_eq_true, h.getElem_iff axis haxis]

theorem Marked.markSeen (h : Marked passed seen) (hstep : View.markSeen seen axis = some seen') :
    Marked (passed ++ [axis]) seen' where
  getElem_iff other hother := by
    obtain ⟨haxis, -, rfl⟩ := markSeen_eq_some_iff.mp hstep
    rw [Vector.getElem_set]
    split
    · next heq => simp [heq]
    · next hne => simp [h.getElem_iff other hother, Ne.symm hne]
  distinct := by
    have hfresh := (h.isSome_markSeen_iff.mp (Option.isSome_of_eq_some hstep)).2
    exact List.nodup_append_comm.mp (List.nodup_cons.mpr ⟨hfresh, h.distinct⟩)

/-! ## All axes -/

/-- The axes of a list can be marked one after another if none of them is out of range or repeated. -/
theorem Marked.isSome_foldlM_iff (h : Marked passed seen) :
    (axes.foldlM View.markSeen seen).isSome ↔
      (∀ axis ∈ axes, axis < rank) ∧ (passed ++ axes).Nodup := by
  induction axes generalizing passed seen with
  | nil => simpa using h.distinct
  | cons axis axes ih =>
    rw [List.foldlM_cons]
    cases hstep : View.markSeen seen axis with
    | none =>
      -- What cannot be marked is out of range or a repetition, whatever comes after it.
      have hstop : ¬ (axis < rank ∧ axis ∉ passed) := by
        rw [← h.isSome_markSeen_iff, hstep]
        simp
      refine iff_of_false (by simp) ?_
      rintro ⟨hrange, hdistinct⟩
      have hfresh : axis ∉ passed := fun hmem =>
        (List.nodup_append.mp hdistinct).2.2 axis hmem axis List.mem_cons_self rfl
      exact hstop ⟨hrange axis List.mem_cons_self, hfresh⟩
    | some seen' =>
      have haxis := (h.isSome_markSeen_iff.mp (Option.isSome_of_eq_some hstep)).1
      have hrest := ih (h.markSeen hstep)
      rw [List.append_assoc, List.singleton_append] at hrest
      simpa [haxis] using hrest

/-- The check accepts exactly the orders of all axes. -/
theorem isPermutation_iff : isPermutation axes rank ↔ axes.Perm (List.range rank) := by
  unfold isPermutation
  split
  · next hlen =>
    simp only [Bool.false_eq_true, false_iff]
    exact fun horder => hlen (length_of_perm_range horder)
  · next hlen =>
    rw [(marked_replicate rank).isSome_foldlM_iff, List.nil_append]
    constructor
    · rintro ⟨hrange, hdistinct⟩
      -- Different numbers below the rank, and as many of them, are all of them.
      have hsub : axes ⊆ List.range rank := fun axis hmem => List.mem_range.mpr (hrange axis hmem)
      refine (hdistinct.subperm hsub).perm_of_length_le ?_
      rw [List.length_range]
      omega
    · intro horder
      exact ⟨fun axis => lt_of_perm_range horder, horder.nodup_iff.mpr List.nodup_range⟩

end View

end Broadcast
