import Mathlib.Data.Set.Card
import Broadcast.Proofs.Projection

/-!
# How often elements are read

Reading an expression at every index of its shape reads each operand at the projections of these
indices. A projection sets the components on axes of size one to zero and keeps the others, and
every index of the operand is the projection of equally many indices: one for each choice of
components on the axes that the operand lacks or along which it is stretched (`projection_exact`).

The indices with a given projection are counted axis by axis. On each axis the components to choose
from are counted alone, whatever the others are (`encard_image2_cons`).
-/

namespace Broadcast

namespace Shape

/--
The number of indices of `out` at which one element of a shape is read: the product of the sizes on
the axes that the shape lacks and on those where it has size one.
-/
def copies (s out : Shape) : Nat :=
  (out.take (out.rank - s.rank)).prod
    * (List.zipWith (fun n m => if n = 1 then m else 1) s (out.drop (out.rank - s.rank))).prod

end Shape

namespace Index

/-! ## Counting axis by axis -/

theorem encard_image2_cons (first : Set Nat) (rest : Set Index) :
    (Set.image2 List.cons first rest).encard = first.encard * rest.encard := by
  have hinj : Function.Injective2 (List.cons : Nat → Index → Index) := by
    intro i j index index' h
    exact List.cons.inj h
  rw [← Set.image_uncurry_prod, hinj.uncurry.encard_image, Set.encard_prod]

theorem encard_lt (n : Nat) : {i : Nat | i < n}.encard = n := by
  have hrange : {i : Nat | i < n} = (Finset.range n : Set Nat) := by
    ext i
    simp
  rw [hrange, Set.encard_coe_eq_coe_finsetCard, Finset.card_range]

/-- Components on further axes in front may be chosen freely. -/
theorem encard_drop (P : Index → Prop) (back : Shape) : ∀ front : Shape,
    {index : Index | index.InBounds (front ++ back) ∧ P (index.drop front.length)}.encard
      = front.prod * {index : Index | index.InBounds back ∧ P index}.encard
  | [] => by simp
  | n :: front => by
    have hcons : {index : Index | index.InBounds (n :: front ++ back) ∧
        P (index.drop (n :: front).length)}
        = Set.image2 List.cons {i | i < n}
          {index : Index | index.InBounds (front ++ back) ∧ P (index.drop front.length)} := by
      ext index
      cases index with
      | nil => simp [InBounds]
      | cons i index => simp [InBounds, and_assoc]
    rw [hcons, encard_image2_cons, encard_lt, encard_drop P back front, List.prod_cons,
      Nat.cast_mul, mul_assoc]

/-- On one axis, every component is read at zero, or each component where it stands. -/
theorem encard_component {n m i : Nat} (hn : n = 1 ∨ n = m) (hi : i < n) :
    {j : Nat | j < m ∧ (if n ≠ 1 then j else 0) = i}.encard
      = ((if n = 1 then m else 1 : Nat) : ℕ∞) := by
  by_cases hone : n = 1
  · have hzero : i = 0 := by omega
    simp [hone, hzero, encard_lt]
  · have hsingle : {j : Nat | j < m ∧ (if n ≠ 1 then j else 0) = i} = {i} := by
      ext j
      simp only [if_pos hone, Set.mem_ofPred_eq, Set.mem_singleton_iff]
      omega
    rw [hsingle, Set.encard_singleton, if_neg hone, Nat.cast_one]

/-- Under an output of its own rank, an operand's index is read as often as axes are stretched. -/
theorem encard_project {s back : Shape} (h : List.Forall₂ (fun n m => n = 1 ∨ n = m) s back) :
    ∀ {own : Index}, own.InBounds s →
      {index : Index | index.InBounds back ∧ (Plan.align s s.length).project index = own}.encard
        = (List.zipWith (fun n m => if n = 1 then m else 1) s back).prod := by
  induction h with
  | nil =>
    intro own hown
    cases own with
    | nil =>
      have hsingle : {index : Index | index.InBounds [] ∧
          (Plan.align [] 0).project index = []} = {[]} := by
        ext index
        cases index <;> simp [InBounds, Plan.project]
      exact (congrArg Set.encard hsingle).trans (Set.encard_singleton _)
    | cons i own => exact absurd hown id
  | @cons n m s back hn h ih =>
    intro own hown
    cases own with
    | nil => exact absurd hown id
    | cons i own =>
      have hcons : {index : Index | index.InBounds (m :: back) ∧
          (Plan.align (n :: s) (n :: s).length).project index = i :: own}
          = Set.image2 List.cons {j | j < m ∧ (if n ≠ 1 then j else 0) = i}
            {index : Index | index.InBounds back ∧
              (Plan.align s s.length).project index = own} := by
        ext index
        cases index with
        | nil => simp [InBounds]
        | cons j index =>
          simp [InBounds, Plan.project, Plan.align, and_assoc, and_left_comm]
      rw [hcons, encard_image2_cons, encard_component hn hown.1, ih hown.2, List.zipWith_cons_cons,
        List.prod_cons, Nat.cast_mul]

end Index

/-! ## Projections -/

namespace Plan

/-- A plan drops the components of the axes that the operand lacks and goes on with the others. -/
theorem project_append (s front : Shape) (index : Index) :
    (align s (front.length + s.length)).project index
      = (align s s.length).project (index.drop front.length) := by
  simp [project, align]

/-- Each index of an operand is the projection of as many indices as it has copies. -/
theorem encard_map_eq_ok {shapes : List Shape} {out s : Shape}
    (hout : Shape.broadcast shapes = .ok out) (hs : s ∈ shapes) {own : Index}
    (hown : own.InBounds s) :
    {index : Index | index.InBounds out ∧ (align s out.rank).map index = .ok own}.encard
      = s.copies out := by
  obtain ⟨front, back, rfl, hback⟩ := Shape.exists_append_of_broadcast hout hs
  have hrank : (front ++ back : Shape).rank = front.length + s.length := by
    rw [Shape.rank, List.length_append, hback.length_eq]
  have hlead : (front ++ back : Shape).rank - s.rank = front.length := by
    rw [hrank, Shape.rank, Nat.add_sub_cancel]
  -- In bounds of the common shape, a plan is never asked for an index of another rank.
  have hfibre : {index : Index | index.InBounds (front ++ back) ∧
      (align s (front ++ back : Shape).rank).map index = .ok own}
      = {index : Index | index.InBounds (front ++ back) ∧
        (align s s.length).project (index.drop front.length) = own} := by
    ext index
    simp only [Set.mem_ofPred_eq]
    refine and_congr_right fun hb => ?_
    rw [map_eq_ok_iff, and_iff_right (project_inBounds hout hs hb).1, hrank, project_append]
  rw [hfibre, Index.encard_drop fun index => (align s s.length).project index = own,
    Index.encard_project hback hown, Shape.copies, hlead, List.take_left, List.drop_left,
    Nat.cast_mul]

end Plan

/--
**Reading through a plan is an exact projection.** For shapes that broadcast together, each of them
has a plan, which takes every index in bounds of the common shape to one in bounds of the shape:
zero on the axes of size one, and the component of the common axis on the others. And every index in
bounds of the shape is met equally often, once for each choice of components on the axes that the
shape lacks or where it has size one.
-/
theorem projection_exact {shapes : List Shape} {out s : Shape}
    (hout : Shape.broadcast shapes = .ok out) (hs : s ∈ shapes) :
    ∃ plan, Plan.of s out.rank = .ok plan ∧
      (∀ index : Index, index.InBounds out → ∃ own : Index, plan.map index = .ok own ∧
        own.InBounds s ∧ ∀ k (hk : k < s.length),
          own[k]? = if s[k] = 1 then some 0 else index[out.rank - s.rank + k]?) ∧
      ∀ own : Index, own.InBounds s →
        {index : Index | index.InBounds out ∧ plan.map index = .ok own}.encard
          = s.copies out := by
  have hle : s.length ≤ out.rank := Shape.length_le_of_broadcast hout hs
  refine ⟨Plan.align s out.rank, if_pos hle, ?_, fun own => Plan.encard_map_eq_ok hout hs⟩
  intro index hb
  obtain ⟨hlen, hown⟩ := project_inBounds hout hs hb
  refine ⟨_, Plan.map_eq_ok_iff.mpr ⟨hlen, rfl⟩, hown, ?_⟩
  intro k hk
  have hindex : out.rank - s.rank + k < index.length := by
    rw [Index.length_of_inBounds hb]
    show out.length - s.length + k < out.length
    have hle : s.length ≤ out.length := hle
    omega
  have hproject : k < ((Plan.align s out.rank).project index).length := by
    rw [Index.length_of_inBounds hown]
    exact hk
  rw [List.getElem?_eq_getElem hproject, List.getElem?_eq_getElem hindex,
    Plan.getElem_project_align hk hindex]
  by_cases hone : s[k] = 1 <;> simp [hone, Shape.rank]

/-- A column next to a stack of rows: each of its elements is read for every row and layer. -/
theorem projection_exact_column :
    Shape.broadcast [[3, 1], [2, 1, 4]] = .ok [2, 3, 4] ∧
      {index : Index | index.InBounds [2, 3, 4] ∧
        (Plan.align [3, 1] 3).map index = .ok [2, 0]}.encard = 8 := by
  have hout : Shape.broadcast [[3, 1], [2, 1, 4]] = .ok [2, 3, 4] := by decide
  refine ⟨hout, ?_⟩
  obtain ⟨plan, hplan, _, hcount⟩ := projection_exact hout (s := [3, 1]) (by decide)
  cases hplan
  exact hcount [2, 0] (by decide)

end Broadcast
