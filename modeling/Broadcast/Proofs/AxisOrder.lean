import Broadcast.Proofs.Addressing
import Broadcast.Proofs.AxisCheck
import Broadcast.Proofs.Projection

/-!
# Axes in another order

`rearrange axes` brings what is listed axis by axis, such as a shape or an index, into the order in
which `axes` names the axes. Permuting a view rearranges its shape and its strides together
(`permute_eq_ok_iff`). The bounds of its addresses are sums over the axes, so the view stays inside
its data (`Inside.permute`). An address is such a sum too, so an index that is rearranged in the same
way has the same address (`Inside.read_permute`): the order of the terms makes no difference as long
as all sums fit.
-/

namespace Broadcast

/-- The entries of a list in the order in which `axes` names them. -/
def rearrange (axes l : List Nat) : List Nat :=
  axes.map (l.getD · 0)

section Rearrange

variable {axes l : List Nat}

theorem map_getD_range {β : Type} (l : List β) (d : β) :
    (List.range l.length).map (fun k => l.getD k d) = l := by
  refine List.ext_getElem (by simp) ?_
  intro k hk hk'
  rw [List.getElem_map, List.getElem_range, List.getD_eq_getElem?_getD,
    List.getElem?_eq_getElem hk', Option.getD_some]

@[simp] theorem length_rearrange : (rearrange axes l).length = axes.length := by
  simp [rearrange]

/-- An order of all axes brings every entry to some place. -/
theorem rearrange_perm (h : axes.Perm (List.range l.length)) : (rearrange axes l).Perm l := by
  have hmap := h.map (fun k => l.getD k 0)
  rwa [map_getD_range l] at hmap

theorem getElem_rearrange {k : Nat} (hk : k < axes.length) (hl : axes[k] < l.length)
    (hr : k < (rearrange axes l).length) : (rearrange axes l)[k] = l[axes[k]] := by
  simp [rearrange, hl]

theorem inBounds_rearrange {index : Index} {dims : Shape} (h : axes.Perm (List.range dims.length))
    (hb : index.InBounds dims) : Index.InBounds (rearrange axes index) (rearrange axes dims) := by
  obtain ⟨hlen, hcomponents⟩ := Index.inBounds_iff.mp hb
  refine Index.inBounds_iff.mpr ⟨by simp, ?_⟩
  intro k hi hs
  have hk : k < axes.length := by simpa using hi
  have haxis : axes[k] < dims.length := lt_of_perm_range h (List.getElem_mem hk)
  rw [getElem_rearrange hk (hlen ▸ haxis), getElem_rearrange hk haxis]
  exact hcomponents _ (hlen ▸ haxis) haxis

end Rearrange

namespace View

variable {α : Type}

/-- Permuting succeeds exactly for an order of all axes, and rearranges sizes and strides. -/
theorem permute_eq_ok_iff {v w : View α} {axes : List Nat} :
    v.permute axes = .ok w ↔ axes.Perm (List.range v.dims.length) ∧
      w = ⟨v.data, rearrange axes v.dims, axes.map (v.strides.getD · 0), v.offset⟩ := by
  rw [permute, ← isPermutation_iff]
  split
  · next h =>
    simp only [h, true_and, Except.ok.injEq]
    exact eq_comm
  · next h => simp [h]

theorem map_zip_getD_range {index : List Nat} {strides : List Int}
    (hlen : strides.length = index.length) :
    (List.range index.length).map (fun k => (index.getD k 0, strides.getD k 0))
      = index.zip strides := by
  rw [← List.zip_map', map_getD_range index, ← hlen, map_getD_range strides]

/-- Components and strides that are rearranged together stay together. -/
theorem zip_rearrange_perm {axes : List Nat} {index : Index} {strides : List Int}
    (h : axes.Perm (List.range index.length)) (hlen : strides.length = index.length) :
    ((rearrange axes index).zip (axes.map (strides.getD · 0))).Perm (index.zip strides) := by
  have hmap := h.map (fun k => (index.getD k 0, strides.getD k 0))
  rwa [map_zip_getD_range hlen, ← List.zip_map'] at hmap

/-- The extreme displacements do not depend on the order of the axes. -/
theorem reach_perm {farther : Int → Int → Int} {axes axes' : List (Nat × Int)}
    (h : axes.Perm axes') : reach farther axes = reach farther axes' :=
  (h.map _).sum_eq

/-- Permuting the axes keeps a view inside its data. -/
theorem Inside.permute {v w : View α} {axes : List Nat} (hv : Inside v)
    (h : v.permute axes = .ok w) : Inside w := by
  obtain ⟨horder, rfl⟩ := permute_eq_ok_iff.mp h
  -- The axes come in another order, and the bounds are sums over all axes.
  have hdims : (rearrange axes v.dims).Perm v.dims := rearrange_perm horder
  have hzip := zip_rearrange_perm horder hv.length_eq
  refine ⟨by simp, hv.size_lt, ?_, ?_, ?_⟩
  · intro h0 n hn
    exact hv.dims_le (fun hmem => h0 (hdims.mem_iff.mpr hmem)) n (hdims.mem_iff.mp hn)
  · intro h0
    rw [reach_perm hzip]
    exact hv.low fun hmem => h0 (hdims.mem_iff.mpr hmem)
  · intro h0
    rw [reach_perm hzip]
    exact hv.high fun hmem => h0 (hdims.mem_iff.mpr hmem)

theorem displacement_eq_sum_zip : ∀ (index : Index) (strides : List Int),
    displacement index strides
      = ((index.zip strides).map fun move => (move.1 : Int) * move.2).sum
  | [], strides => by simp
  | _ :: _, [] => by simp [displacement]
  | i :: index, stride :: strides => by
    rw [displacement_cons, displacement_eq_sum_zip index strides, List.zip_cons_cons,
      List.map_cons, List.sum_cons]

/-- The displacement of an index does not depend on the order of the axes. -/
theorem displacement_rearrange {axes : List Nat} {index : Index} {strides : List Int}
    (h : axes.Perm (List.range index.length)) (hlen : strides.length = index.length) :
    displacement (rearrange axes index) (axes.map (strides.getD · 0))
      = displacement index strides := by
  rw [displacement_eq_sum_zip, displacement_eq_sum_zip]
  exact ((zip_rearrange_perm h hlen).map _).sum_eq

/-- A permuted view reads at the rearranged index what the view reads at the index. -/
theorem Inside.read_permute {v w : View α} {axes : List Nat} (hv : Inside v)
    (h : v.permute axes = .ok w) {index : Index} (hb : index.InBounds v.dims) :
    w.read (rearrange axes index) = v.read index := by
  have hw := hv.permute h
  obtain ⟨horder, rfl⟩ := permute_eq_ok_iff.mp h
  have hlen := Index.length_of_inBounds hb
  obtain ⟨x, hx, hread⟩ := hv.read_eq hb
  obtain ⟨y, hy, hread'⟩ := hw.read_eq (inBounds_rearrange horder hb)
  have haddress : displacement (rearrange axes index) (axes.map (v.strides.getD · 0))
      = displacement index v.strides :=
    displacement_rearrange (hlen ▸ horder) (hv.length_eq.trans hlen.symm)
  simp only [haddress] at hy
  rw [hread, hread', Option.some.inj (hy.symm.trans hx)]

end View

end Broadcast
