import Broadcast.Proofs.AxisOrder
import Broadcast.Proofs.Flattening

/-!
# Broadcasting and transposition

Views of one rank may be permuted before they are broadcast together or after: the outcome is the
same, with its axes in the other order (`transposed_expression`). Each layer moves with the axes on
its own:

* shapes — on the axis that comes to a place, the same sizes meet as before
  (`Shape.broadcast_rearrange`)
* plans — an axis is kept or read at zero by its own size, wherever it stands
  (`Plan.project_rearrange`)
* views — a rearranged index has the same address (`View.Inside.read_permute`)

The ranks must be equal. Shapes of different ranks are aligned at their last axes, and an order of
the axes of the longest says nothing about those of the others.
-/

namespace Broadcast

variable {axes : List Nat}

/-! ## Shapes -/

namespace Shape

variable {shapes : List Shape} {rank : Nat}

theorem maxRank_of_forall_length (hne : shapes ≠ []) (h : ∀ s ∈ shapes, s.length = rank) :
    maxRank shapes = rank := by
  obtain ⟨s, hs⟩ := List.exists_mem_of_ne_nil shapes hne
  have hle := length_le_maxRank hs
  have hlen := h s hs
  rcases maxRank_attained shapes with hzero | ⟨t, ht, hattained⟩
  · omega
  · rw [← hattained, h t ht]

theorem forall_length_rearrange (haxes : axes.Perm (List.range rank)) :
    ∀ s ∈ shapes.map (rearrange axes), s.length = rank := by
  intro s hs
  obtain ⟨t, _, rfl⟩ := List.mem_map.mp hs
  rw [length_rearrange, length_of_perm_range haxes]

/-- On each axis of the rearranged shapes, the sizes of another axis meet. -/
theorem axisSizes_rearrange (haxes : axes.Perm (List.range rank))
    (h : ∀ s ∈ shapes, s.length = rank) {k : Nat} (hk : k < axes.length) :
    axisSizes rank k (shapes.map (rearrange axes)) = axisSizes rank axes[k] shapes := by
  have haxis := lt_of_perm_range haxes (List.getElem_mem hk)
  rw [axisSizes, List.map_map]
  refine List.map_congr_left fun s hs => ?_
  obtain rfl := h s hs
  have hself : (rearrange axes s).length = s.length := by
    rw [length_rearrange, length_of_perm_range haxes]
  have hplace : k < (rearrange axes s).length := by simpa using hk
  calc (padded s.length (rearrange axes s)).getD k 1
      = (padded (rearrange axes s).length (rearrange axes s)).getD k 1 := by rw [hself]
    _ = (rearrange axes s)[k] := getD_padded_self hplace
    _ = s[axes[k]] := getElem_rearrange hk haxis hplace
    _ = (padded s.length s).getD axes[k] 1 := (getD_padded_self haxis).symm

/-- Rearranged shapes have the rearranged common shape. -/
theorem broadcast_rearrange (haxes : axes.Perm (List.range rank)) (hne : shapes ≠ [])
    (h : ∀ s ∈ shapes, s.length = rank) {out : Shape} (hout : broadcast shapes = .ok out) :
    broadcast (shapes.map (rearrange axes)) = .ok (rearrange axes out) := by
  have hlen := length_of_perm_range haxes
  obtain ⟨hrank, hsize⟩ := isCommon_iff.mp (broadcast_eq_ok_iff.mp hout)
  rw [maxRank_of_forall_length hne h] at hrank
  refine broadcast_eq_ok_iff.mpr (isCommon_iff.mpr ⟨?_, ?_⟩)
  · rw [maxRank_of_forall_length (by simpa using hne) (forall_length_rearrange haxes),
      length_rearrange, hlen]
  · intro k hlt
    have hk : k < axes.length := by simpa using hlt
    have haxis : axes[k] < out.length := hrank ▸ lt_of_perm_range haxes (List.getElem_mem hk)
    rw [length_rearrange, hlen, axisSizes_rearrange haxes h hk, getElem_rearrange hk haxis, ← hrank]
    exact hsize _ haxis

theorem exists_broadcast_rearrange_iff (haxes : axes.Perm (List.range rank)) (hne : shapes ≠ [])
    (h : ∀ s ∈ shapes, s.length = rank) :
    (∃ out, broadcast (shapes.map (rearrange axes)) = .ok out) ↔
      ∃ out, broadcast shapes = .ok out := by
  constructor
  · intro hexists
    rw [exists_broadcast_iff] at hexists ⊢
    rw [maxRank_of_forall_length (by simpa using hne) (forall_length_rearrange haxes)] at hexists
    rw [maxRank_of_forall_length hne h]
    intro axis hlt
    -- Every axis comes to some place.
    obtain ⟨k, hk, rfl⟩ := List.getElem_of_mem (haxes.mem_iff.mpr (List.mem_range.mpr hlt))
    rw [← axisSizes_rearrange haxes h hk]
    exact hexists k (length_of_perm_range haxes ▸ hk)
  · rintro ⟨out, hout⟩
    exact ⟨_, broadcast_rearrange haxes hne h hout⟩

end Shape

/-! ## Plans -/

/-- Projecting a rearranged index to a rearranged shape of the same rank. -/
theorem Plan.project_rearrange {s : Shape} {index : Index} (haxes : axes.Perm (List.range s.length))
    (hindex : index.length = s.length) :
    (align (rearrange axes s) s.length).project (rearrange axes index)
      = rearrange axes ((align s s.length).project index) := by
  have hlen := length_of_perm_range haxes
  have hleft : ((align (rearrange axes s) s.length).project (rearrange axes index)).length
      = axes.length := by
    rw [length_project_align (by simp [hlen]) (by simp [hlen]), length_rearrange]
  refine List.ext_getElem (by simp [hleft]) ?_
  intro k hk hk'
  have hka : k < axes.length := hleft ▸ hk
  have haxis : axes[k] < s.length := lt_of_perm_range haxes (List.getElem_mem hka)
  have hown : axes[k] < ((align s s.length).project index).length := by
    rw [length_project_align (Nat.le_refl _) hindex]
    exact haxis
  rw [getElem_rearrange hka hown, getElem_project_align (by simpa using hka) (by simp; omega),
    getElem_project_align haxis (by omega), getElem_rearrange hka haxis]
  simp only [length_rearrange, hlen, Nat.sub_self, Nat.zero_add]
  rw [getElem_rearrange hka (hindex ▸ haxis)]

/-! ## Views -/

/-- A view together with the type of its elements. -/
structure TypedView where
  dtype : DType
  view : View dtype.Elem

namespace TypedView

def toOperand (v : TypedView) : Operand Value :=
  (v.view.toOperand v.dtype).map (Value.mk v.dtype)

@[simp] theorem shape_toOperand (v : TypedView) : v.toOperand.shape = v.view.dims := rfl

def permute (v : TypedView) (axes : List Nat) : Except Fault TypedView := do
  let w ← v.view.permute axes
  return ⟨v.dtype, w⟩

/-- A view of the given rank that is accepted, all of it within the range of machine words. -/
structure Accepted (rank : Nat) (v : TypedView) : Prop where
  accepted : View.new v.view.data v.view.dims v.view.strides v.view.offset = .ok v.view
  rank_eq : v.view.dims.length = rank
  dims_le : ∀ n ∈ v.view.dims, n ≤ Word.half
  size_lt : v.view.data.size < Word.half
  offset_lt : v.view.offset < Word.size

theorem Accepted.inside {rank : Nat} {v : TypedView} (hv : v.Accepted rank) : v.view.Inside :=
  ((View.new_eq_ok_iff hv.size_lt (fun _ => hv.dims_le) hv.offset_lt).mp hv.accepted).2

theorem Accepted.readable {rank : Nat} {v : TypedView} (hv : v.Accepted rank) :
    v.toOperand.Readable :=
  (hv.inside.readable v.dtype).map _

/-- What a permuted view has in common with the view, as operands. -/
structure Permuted (axes : List Nat) (v w : TypedView) : Prop where
  dims_eq : w.view.dims = rearrange axes v.view.dims
  read_eq : ∀ index : Index, index.InBounds v.view.dims →
    w.toOperand.read (rearrange axes index) = v.toOperand.read index

theorem Accepted.permuted {rank : Nat} {v w : TypedView} (hv : v.Accepted rank)
    (h : v.permute axes = .ok w) : Permuted axes v w := by
  obtain ⟨u, hu, h⟩ := bind_eq_ok_iff.mp h
  cases h
  refine ⟨?_, ?_⟩
  · obtain ⟨_, rfl⟩ := View.permute_eq_ok_iff.mp hu
    rfl
  · intro index hb
    exact congrArg (Value.mk v.dtype <$> ·) (hv.inside.read_permute hu hb)

theorem Accepted.exists_permute {rank : Nat} {v : TypedView} (hv : v.Accepted rank)
    (haxes : axes.Perm (List.range rank)) : ∃ w, v.permute axes = .ok w :=
  ⟨_, bind_eq_ok_iff.mpr ⟨_, View.permute_eq_ok_iff.mpr ⟨hv.rank_eq.symm ▸ haxes, rfl⟩, rfl⟩⟩

end TypedView

/-! ## Expressions -/

section Expressions

variable {rank : Nat} {vs ws : List TypedView} {fn : Pointwise}

theorem TypedView.map_shape_permuted (h : List.Forall₂ (TypedView.Permuted axes) vs ws) :
    (ws.map (·.toOperand)).map (·.shape)
      = ((vs.map (·.toOperand)).map (·.shape)).map (rearrange axes) := by
  induction h with
  | nil => rfl
  | cons hvw _ ih => simp only [List.map_cons, ih, TypedView.shape_toOperand, hvw.dims_eq]

theorem TypedView.forall_length_shape (hvs : ∀ v ∈ vs, v.Accepted rank) :
    ∀ s ∈ (vs.map (·.toOperand)).map (·.shape), s.length = rank := by
  intro s hs
  rw [List.map_map] at hs
  obtain ⟨v, hv, rfl⟩ := List.mem_map.mp hs
  exact (hvs v hv).rank_eq

/-- Permuted views give the elements of the views to a function, in the same order. -/
theorem Nary.read_permuted (haxes : axes.Perm (List.range rank)) (hvs : ∀ v ∈ vs, v.Accepted rank)
    (h : List.Forall₂ (TypedView.Permuted axes) vs ws) {e e' : Nary}
    (he : Nary.of fn (vs.map (·.toOperand)) = .ok e)
    (he' : Nary.of fn (ws.map (·.toOperand)) = .ok e')
    (hrank : e.toOperand.shape.length = rank)
    (hshape : e'.toOperand.shape = rearrange axes e.toOperand.shape) {index : Index}
    (hb : index.InBounds e.toOperand.shape) :
    e.toOperand.read index = e'.toOperand.read (rearrange axes index) := by
  have hb' : Index.InBounds (rearrange axes index) e'.toOperand.shape :=
    hshape ▸ inBounds_rearrange (hrank.symm ▸ haxes) hb
  have hrank' : e'.toOperand.shape.length = rank := by
    rw [hshape, length_rearrange, length_of_perm_range haxes]
  have hindex : index.length = rank := (Index.length_of_inBounds hb).trans hrank
  rw [Nary.read_eq_mapM he hb, Nary.read_eq_mapM he' hb', hrank, hrank']
  congr 1
  refine mapM_congr_of_forall₂ (List.forall₂_map_left_iff.mpr (List.forall₂_map_right_iff.mpr ?_))
  refine ((List.forall₂_and_left vs ws).mpr ⟨fun v hv => hv, h⟩).imp ?_
  rintro v w ⟨hv, hvw⟩
  obtain rfl := (hvs v hv).rank_eq
  have hmem : v.view.dims ∈ (vs.map (·.toOperand)).map (·.shape) :=
    List.mem_map_of_mem (List.mem_map_of_mem hv)
  have hown := (project_inBounds (Nary.broadcast_of he) hmem hb).2
  rw [Shape.rank, hrank] at hown
  rw [TypedView.shape_toOperand, TypedView.shape_toOperand, hvw.dims_eq,
    Plan.project_rearrange haxes hindex, hvw.read_eq _ hown]

/--
**Broadcasting commutes with transposition.** Some views of one rank, with sizes up to `2 ^ 63`,
can all be permuted by an order of their axes. A function over the permuted views is built exactly
if it is built over the views. Then its shape is the rearranged shape, and reading it at a
rearranged index gives the element that is read over the views at the index.
-/
theorem transposed_expression (fn : Pointwise) (haxes : axes.Perm (List.range rank))
    (hne : vs ≠ []) (hvs : ∀ v ∈ vs, v.Accepted rank) :
    ∃ ws, vs.mapM (·.permute axes) = .ok ws ∧
      ((∃ e', Nary.of fn (ws.map (·.toOperand)) = .ok e') ↔
        ∃ e, Nary.of fn (vs.map (·.toOperand)) = .ok e) ∧
      ∀ e e', Nary.of fn (vs.map (·.toOperand)) = .ok e →
        Nary.of fn (ws.map (·.toOperand)) = .ok e' →
        e'.toOperand.shape = rearrange axes e.toOperand.shape ∧
          ∀ index : Index, index.InBounds e.toOperand.shape →
            ∃ x, e.toOperand.read index = .ok x ∧
              e'.toOperand.read (rearrange axes index) = .ok x := by
  obtain ⟨ws, hws⟩ := exists_mapM_eq_ok fun v hv => (hvs v hv).exists_permute haxes
  have hpermuted : List.Forall₂ (TypedView.Permuted axes) vs ws :=
    ((List.forall₂_and_left vs ws).mpr ⟨hvs, mapM_eq_ok_iff.mp hws⟩).imp
      fun _ _ h => h.1.permuted h.2
  have hshapes := TypedView.map_shape_permuted hpermuted
  have hranks := TypedView.forall_length_shape hvs
  have hnonempty : (vs.map (·.toOperand)).map (·.shape) ≠ [] := by simpa using hne
  refine ⟨ws, hws, ?_, ?_⟩
  · rw [Nary.exists_of_iff, Nary.exists_of_iff, hshapes,
      Shape.exists_broadcast_rearrange_iff haxes hnonempty hranks, List.length_map,
      List.length_map, hpermuted.length_eq]
  · intro e e' he he'
    have hout := Nary.broadcast_of he
    have hout' := Nary.broadcast_of he'
    rw [hshapes, Shape.broadcast_rearrange haxes hnonempty hranks hout] at hout'
    have hshape := (Except.ok.inj hout').symm
    have hrank : e.toOperand.shape.length = rank := by
      rw [(Shape.broadcast_eq_ok_iff.mp hout).length_eq,
        Shape.maxRank_of_forall_length hnonempty hranks]
    refine ⟨hshape, ?_⟩
    intro index hb
    have hreadable : ∀ x ∈ vs.map (·.toOperand), x.Readable := by
      intro x hx
      obtain ⟨v, hv, rfl⟩ := List.mem_map.mp hx
      exact (hvs v hv).readable
    obtain ⟨x, hx⟩ := Nary.readable he hreadable index hb
    exact ⟨x, hx, (Nary.read_permuted haxes hvs hpermuted he he' hrank hshape hb).symm.trans hx⟩

/-- The rows of a matrix, the last one first. -/
def TypedView.reversedRows : TypedView :=
  ⟨.uint .w32, ⟨#[1, 2, 3, 4, 5, 6], [2, 3], [-3, 1], 3⟩⟩

/-- One row with the same element everywhere. -/
def TypedView.constantRow : TypedView :=
  ⟨.uint .w32, ⟨#[10], [1, 3], [7, 0], 0⟩⟩

/-- Reversed rows times a constant row, transposed. -/
theorem transposed_product : ∃ ws e e',
    [TypedView.reversedRows, .constantRow].mapM (·.permute [1, 0]) = .ok ws ∧
      Nary.of .product [TypedView.reversedRows.toOperand, TypedView.constantRow.toOperand]
        = .ok e ∧
      Nary.of .product (ws.map (·.toOperand)) = .ok e' ∧
      e.toOperand.shape = [2, 3] ∧ e'.toOperand.shape = [3, 2] ∧
      e.toOperand.read [1, 2] = .ok ⟨.uint .w32, (30 : BitVec 32)⟩ ∧
      e'.toOperand.read [2, 1] = .ok ⟨.uint .w32, (30 : BitVec 32)⟩ := by
  have haccepted : ∀ v ∈ [TypedView.reversedRows, .constantRow], v.Accepted 2 := by
    intro v hv
    rcases List.mem_pair.mp hv with rfl | rfl
    · refine ⟨?_, rfl, by decide, by decide, by decide⟩
      show View.new (α := BitVec 32) #[1, 2, 3, 4, 5, 6] [2, 3] [-3, 1] 3 = .ok _
      rfl
    · refine ⟨?_, rfl, by decide, by decide, by decide⟩
      show View.new (α := BitVec 32) #[10] [1, 3] [7, 0] 0 = .ok _
      rfl
  have haxes : [1, 0].Perm (List.range 2) := by decide
  obtain ⟨ws, hws, hbuilt, hsame⟩ :=
    transposed_expression .product haxes (List.cons_ne_nil _ _) haccepted
  have he : Nary.of .product [TypedView.reversedRows.toOperand, TypedView.constantRow.toOperand]
      = .ok _ := rfl
  obtain ⟨e', he'⟩ := hbuilt.mpr ⟨_, he⟩
  obtain ⟨hshape, hread⟩ := hsame _ e' he he'
  obtain ⟨x, hx, hx'⟩ := hread [1, 2] (by decide)
  cases hx
  exact ⟨ws, _, e', hws, he, he', rfl, hshape, rfl, hx'⟩

end Expressions

end Broadcast
