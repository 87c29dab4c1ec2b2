import Mathlib.Algebra.Group.End
import Mathlib.Data.Fintype.EquivFin
import Mathlib.Logic.Equiv.Fin.Rotate
import Broadcast.Proofs.AxisOrder
import Broadcast.Proofs.IdleAxes

/-!
# Permutations act on views

A view of some rank can be permuted by the permutations of that many axes and by nothing else:
`axesOf` lists a permutation, and the lists that pass the check of `permute` (`isPermutation_iff`) are
exactly these (`perm_range_iff`). Permuting twice is permuting by the composition, the first permutation applied
last (`permute_permute`), since the axis at a place is looked up in the second list first and what
is found there in the first. So permuting by the inverse undoes it.

All of this is about the description of a view and needs no more than that it has as many strides as
axes. That the elements stay the same is a statement about addresses (`Inside.read_permute`).
-/

namespace Broadcast

/-! ## Orders of axes -/

/-- The order of axes that a permutation describes: at each place, the axis that comes there. -/
def axesOf {rank : Nat} (σ : Equiv.Perm (Fin rank)) : List Nat :=
  List.ofFn fun k => (σ k).val

section AxesOf

variable {rank : Nat} {axes : List Nat}

@[simp] theorem length_axesOf (σ : Equiv.Perm (Fin rank)) : (axesOf σ).length = rank := by
  simp [axesOf]

theorem axesOf_one : axesOf (1 : Equiv.Perm (Fin rank)) = List.range rank := by
  refine List.ext_getElem (by simp) ?_
  intro k hk hk'
  simp [axesOf]

theorem nodup_axesOf (σ : Equiv.Perm (Fin rank)) : (axesOf σ).Nodup := by
  refine List.nodup_ofFn.mpr ?_
  intro i j hij
  exact σ.injective (Fin.ext hij)

theorem axesOf_perm (σ : Equiv.Perm (Fin rank)) : (axesOf σ).Perm (List.range rank) := by
  refine (List.perm_ext_iff_of_nodup (nodup_axesOf σ) List.nodup_range).mpr ?_
  intro axis
  simp only [axesOf, List.mem_ofFn, List.mem_range]
  constructor
  · rintro ⟨k, rfl⟩
    exact (σ k).isLt
  · intro hlt
    exact ⟨σ.symm ⟨axis, hlt⟩, by simp⟩

/-- A list that names every axis once names them in the order of a permutation. -/
theorem exists_eq_axesOf (h : axes.Perm (List.range rank)) :
    ∃ σ : Equiv.Perm (Fin rank), axes = axesOf σ := by
  have hlen := length_of_perm_range h
  have hlt : ∀ k : Fin rank, axes[k] < rank := fun k => lt_of_perm_range h (List.getElem_mem _)
  have hinjective : Function.Injective fun k : Fin rank => (⟨axes[k], hlt k⟩ : Fin rank) := by
    intro i j hij
    have hnodup : axes.Nodup := h.nodup_iff.mpr List.nodup_range
    exact Fin.ext (hnodup.getElem_inj_iff.mp (Fin.mk.inj hij))
  refine ⟨Equiv.ofBijective _ (Finite.injective_iff_bijective.mp hinjective), ?_⟩
  refine List.ext_getElem (by simp [hlen]) ?_
  intro k hk hk'
  simp [axesOf]

theorem perm_range_iff :
    axes.Perm (List.range rank) ↔ ∃ σ : Equiv.Perm (Fin rank), axes = axesOf σ := by
  constructor
  · exact exists_eq_axesOf
  · rintro ⟨σ, rfl⟩
    exact axesOf_perm σ

/-- What is listed in one order and read in another is listed in the composed order. -/
theorem map_axesOf_mul {β : Type} (σ τ : Equiv.Perm (Fin rank)) (f : Nat → β) (d : β) :
    (axesOf τ).map (((axesOf σ).map f).getD · d) = (axesOf (σ * τ)).map f := by
  refine List.ext_getElem (by simp) ?_
  intro k hk hk'
  simp [axesOf]

end AxesOf

/-! ## Permuted views -/

namespace View

variable {α : Type} {v : View α}

/-- The view with its axes in the order of a permutation. -/
def permuted (v : View α) (σ : Equiv.Perm (Fin v.dims.length)) : View α :=
  ⟨v.data, (axesOf σ).map (v.dims.getD · 0), (axesOf σ).map (v.strides.getD · 0), v.offset⟩

theorem permute_axesOf (v : View α) (σ : Equiv.Perm (Fin v.dims.length)) :
    v.permute (axesOf σ) = .ok (v.permuted σ) :=
  permute_eq_ok_iff.mpr ⟨axesOf_perm σ, rfl⟩

/-- A view can be permuted by the permutations of its axes and by nothing else. -/
theorem exists_permute_iff {axes : List Nat} : (∃ w, v.permute axes = .ok w) ↔
    ∃ σ : Equiv.Perm (Fin v.dims.length), axes = axesOf σ := by
  rw [← perm_range_iff]
  constructor
  · rintro ⟨w, hw⟩
    exact (permute_eq_ok_iff.mp hw).1
  · intro h
    exact ⟨_, permute_eq_ok_iff.mpr ⟨h, rfl⟩⟩

theorem permute_permute (v : View α) (σ τ : Equiv.Perm (Fin v.dims.length)) :
    (v.permute (axesOf σ) >>= fun w => w.permute (axesOf τ)) = v.permute (axesOf (σ * τ)) := by
  have hnext : (axesOf τ).Perm (List.range (v.permuted σ).dims.length) := by
    simpa [permuted] using axesOf_perm τ
  rw [permute_axesOf, permute_axesOf]
  refine permute_eq_ok_iff.mpr ⟨hnext, ?_⟩
  simp only [permuted, rearrange, map_axesOf_mul]

/-- Naming the axes in their own order changes nothing. -/
theorem permute_one (hlen : v.strides.length = v.dims.length) :
    v.permute (axesOf (1 : Equiv.Perm (Fin v.dims.length))) = .ok v := by
  rw [permute_axesOf, permuted, axesOf_one, map_getD_range, ← hlen, map_getD_range]

theorem permute_inverse (hlen : v.strides.length = v.dims.length)
    (σ : Equiv.Perm (Fin v.dims.length)) :
    (v.permute (axesOf σ) >>= fun w => w.permute (axesOf σ⁻¹)) = .ok v := by
  rw [permute_permute, mul_inv_cancel, permute_one hlen]

/--
**Permutations act on views and keep their elements.** Let a view be accepted. It can be permuted by
a list of axes exactly if the list is a permutation of its axes. Permuted by one permutation and
then by another, it is the view permuted by their composition: the axis that comes to place `k` is
`σ (τ k)`. The identity changes nothing, and the inverse of a permutation undoes it. If no size is
beyond `2 ^ 63`, the permuted view reads at a rearranged index what the view reads at the index, and
neither read leaves the word.
-/
theorem permutations_act {data : Array α} {dims : Shape} {strides : List Int} {offset : Nat}
    (hv : new data dims strides offset = .ok v) :
    (∀ axes : List Nat, (∃ w, v.permute axes = .ok w) ↔
      ∃ σ : Equiv.Perm (Fin v.dims.length), axes = axesOf σ) ∧
    (∀ σ τ : Equiv.Perm (Fin v.dims.length),
      (v.permute (axesOf σ) >>= fun w => w.permute (axesOf τ)) = v.permute (axesOf (σ * τ))) ∧
    v.permute (axesOf (1 : Equiv.Perm (Fin v.dims.length))) = .ok v ∧
    (∀ σ : Equiv.Perm (Fin v.dims.length),
      (v.permute (axesOf σ) >>= fun w => w.permute (axesOf σ⁻¹)) = .ok v) ∧
    (data.size < Word.half → offset < Word.size → (∀ n ∈ dims, n ≤ Word.half) →
      ∀ (σ : Equiv.Perm (Fin v.dims.length)) (index : Index), index.InBounds v.dims →
        ∃ w x, v.permute (axesOf σ) = .ok w ∧ v.read index = .ok x ∧
          w.read (rearrange (axesOf σ) index) = .ok x) := by
  have hlen : v.strides.length = v.dims.length := by
    obtain ⟨rfl, hlen⟩ := new_eq_ok hv
    exact hlen
  refine ⟨fun _ => exists_permute_iff, permute_permute v, permute_one hlen, permute_inverse hlen,
    ?_⟩
  intro hdata hoffset hdims σ index hb
  have hinside := ((new_eq_ok_iff hdata (fun _ => hdims) hoffset).mp hv).2
  obtain ⟨x, _, hx⟩ := hinside.read_eq hb
  exact ⟨_, x, permute_axesOf v σ, hx, (hinside.read_permute (permute_axesOf v σ) hb).trans hx⟩

/-- Two rows of three, each read backwards, with an axis of size one behind them. -/
def backwardRows : View Nat :=
  ⟨#[10, 20, 30, 40, 50, 60], [2, 3, 1], [3, -1, 7], 2⟩

/-- A rotation and a reversal of three axes, which do not commute. -/
theorem permutations_act_backwardRows :
    (backwardRows.permute [1, 2, 0] >>= fun w => w.permute [2, 1, 0])
        = backwardRows.permute [0, 2, 1] ∧
      (backwardRows.permute [1, 2, 0] >>= fun w => w.permute [2, 0, 1]) = .ok backwardRows ∧
      ∃ w, backwardRows.permute [1, 2, 0] = .ok w ∧ backwardRows.read [1, 2, 0] = .ok 40 ∧
        w.read [2, 0, 1] = .ok 40 := by
  have hv : new #[10, 20, 30, 40, 50, 60] [2, 3, 1] [3, -1, 7] 2 = .ok backwardRows := rfl
  obtain ⟨_, hmul, _, hinverse, hread⟩ := permutations_act hv
  obtain ⟨w, x, hw, hx, hx'⟩ :=
    hread (by decide) (by decide) (by decide) (finRotate 3) [1, 2, 0] (by decide)
  cases hx
  exact ⟨hmul (finRotate 3) Fin.revPerm, hinverse (finRotate 3), w, hw, rfl, hx'⟩

end View

end Broadcast
