import Broadcast.Proofs.Flattening
import Broadcast.Proofs.OperandOrder

/-!
# Broadcasting as a partial join

A shape stretches to another if axes may be added in front of it and axes of size one widened until
it is the other (`StretchesTo`). Broadcasting is the join for this order, where there is one:

* the order in which the shapes are listed makes no difference to the common shape, nor to the axis
  on which a conflict is found (`broadcast_congr`)
* some of the shapes may be joined first (`broadcast_append_eq_ok_iff`)
* the common shape is the least one to which all of the shapes stretch (`IsCommon.stretchesTo`)
-/

namespace Broadcast.Shape

/-! ## The order of the list -/

theorem FirstClash.not_agree {sizes : List Nat} {first second : Nat}
    (h : FirstClash sizes first second) : ¬ Agree sizes := by
  obtain ⟨hfirst, hsecond⟩ := h
  intro hagree
  have hone : first ≠ 1 := by simpa using List.find?_some hfirst
  have htwo : second ≠ 1 ∧ second ≠ first := by simpa using List.find?_some hsecond
  exact htwo.2 (hagree _ (List.mem_of_find?_eq_some hsecond) _ (List.mem_of_find?_eq_some hfirst)
    htwo.1 hone)

/-- Of two lists with the same shapes, neither has its first conflict on a later axis. -/
theorem FirstConflict.axis_le {shapes shapes' : List Shape} (h : ∀ s, s ∈ shapes ↔ s ∈ shapes')
    {c c' : Conflict} (hc : FirstConflict shapes c) (hc' : FirstConflict shapes' c') :
    c.axis ≤ c'.axis := by
  by_contra hlt
  have hagree := (hc.agree_before c'.axis (Nat.not_le.mp hlt)).congr (mem_axisSizes_congr h _ _)
  rw [maxRank_congr h] at hagree
  exact hc'.clash.not_agree hagree

/-- The common shape, or the axis of the first conflict, depends only on which shapes there are. -/
theorem broadcast_congr {shapes shapes' : List Shape} (h : ∀ s, s ∈ shapes ↔ s ∈ shapes') :
    (broadcast shapes).mapError Conflict.axis = (broadcast shapes').mapError Conflict.axis := by
  cases hs : broadcast shapes with
  | ok out =>
    have hout : broadcast shapes' = .ok out :=
      broadcast_eq_ok_iff.mpr ((broadcast_eq_ok_iff.mp hs).congr h)
    rw [hout]
  | error c =>
    cases hs' : broadcast shapes' with
    | ok out =>
      have hout := (broadcast_eq_ok_iff.mp hs').congr fun s => (h s).symm
      rw [broadcast_eq_ok_iff.mpr hout] at hs
      cases hs
    | error c' =>
      have hc := broadcast_eq_error_iff.mp hs
      have hc' := broadcast_eq_error_iff.mp hs'
      have haxis : c.axis = c'.axis :=
        Nat.le_antisymm (hc.axis_le h hc') (hc'.axis_le (fun s => (h s).symm) hc)
      simp [Except.mapError, haxis]

/-! ## Joining in two steps -/

theorem broadcast_append_eq_ok_iff {xs ys : List Shape} {out : Shape} :
    broadcast (xs ++ ys) = .ok out ↔
      ∃ p q, broadcast xs = .ok p ∧ broadcast ys = .ok q ∧ broadcast [p, q] = .ok out := by
  -- With common shapes for both lists, they stand for the lists one after the other.
  have hparts : ∀ {p q : Shape}, broadcast xs = .ok p → broadcast ys = .ok q →
      (broadcast [p, q] = .ok out ↔ broadcast (xs ++ ys) = .ok out) := by
    intro p q hp hq
    have hfirst : broadcast ([] ++ p :: ys) = .ok out ↔ broadcast ([] ++ (xs ++ ys)) = .ok out :=
      broadcast_nested_iff hp
    have hsecond : broadcast ([p] ++ q :: []) = .ok out ↔ broadcast ([p] ++ (ys ++ [])) = .ok out :=
      broadcast_nested_iff hq
    rw [List.append_nil] at hsecond
    exact hsecond.trans hfirst
  constructor
  · intro h
    have hfront : broadcast ([] ++ (xs ++ ys)) = .ok out := h
    have hback : broadcast (xs ++ (ys ++ [])) = .ok out := by rw [List.append_nil, h]
    obtain ⟨p, hp⟩ := exists_broadcast_of_append hfront
    obtain ⟨q, hq⟩ := exists_broadcast_of_append hback
    exact ⟨p, q, hp, hq, (hparts hp hq).mpr h⟩
  · rintro ⟨p, q, hp, hq, h⟩
    exact (hparts hp hq).mp h

/-! ## The least target -/

/-- Filled up in front, a shape has size one or the other's size on every axis. -/
structure StretchesTo (s t : Shape) : Prop where
  length_le : s.length ≤ t.length
  size : ∀ axis (hlt : axis < t.length),
    (s.padded t.length).getD axis 1 = 1 ∨ (s.padded t.length).getD axis 1 = t[axis]

/-- A shape stretches to another exactly if broadcasting the two gives the other. -/
theorem broadcast_pair_eq_ok_iff {s t : Shape} :
    broadcast [s, t] = .ok t ↔ s.StretchesTo t := by
  have hrank : maxRank [s, t] = max s.length t.length := by
    simp [maxRank, rank]
  rw [broadcast_eq_ok_iff, isCommon_iff, hrank]
  constructor
  · rintro ⟨hlen, hsize⟩
    refine ⟨by omega, ?_⟩
    intro axis hlt
    exact (hsize axis hlt).eq_one_or _ (by simp [axisSizes])
  · rintro ⟨hlen, hsize⟩
    refine ⟨by omega, ?_⟩
    intro axis hlt
    have hself := getD_padded_self hlt
    constructor
    · intro n hn
      rcases List.mem_pair.mp hn with rfl | rfl
      · exact hsize axis hlt
      · exact .inr hself
    · exact .inr (List.mem_pair.mpr (.inr hself.symm))

/-- Every shape stretches to the common shape. -/
theorem IsCommon.stretchesTo_of_mem {shapes : List Shape} {out s : Shape}
    (h : IsCommon shapes out) (hs : s ∈ shapes) : s.StretchesTo out where
  length_le := h.length_le s hs
  size axis hlt := (h.size axis hlt).eq_one_or _ (List.mem_map_of_mem hs)

/-- The common shape stretches to every shape to which all of the shapes stretch. -/
theorem IsCommon.stretchesTo {shapes : List Shape} {out t : Shape} (h : IsCommon shapes out)
    (ht : ∀ s ∈ shapes, s.StretchesTo t) : out.StretchesTo t := by
  have hlen : out.length ≤ t.length := by
    rcases h.length_attained with rfl | ⟨s, hs, hlen⟩
    · exact Nat.zero_le _
    · exact hlen ▸ (ht s hs).length_le
  refine ⟨hlen, ?_⟩
  intro axis hlt
  have hjoin := h.isJoin_padded (h.length_eq ▸ hlen) hlt
  -- A common size is one, or it is the size of one of the shapes.
  rcases hjoin.attained with hone | hmem
  · exact .inl hone
  · obtain ⟨s, hs, hsize⟩ := List.mem_map.mp hmem
    rw [← hsize]
    exact (ht s hs).size axis hlt

/--
**Broadcasting is a partial join.** A list of shapes in any other order has the same common shape, or
a conflict on the same axis. Two lists together have a common shape exactly if each of them has one
and these two have one, which it then is. And the common shape is the least target of all shapes in
the list: each of them stretches to it, and it stretches to whatever they all stretch to.
-/
theorem broadcast_partial_join :
    (∀ xs ys : List Shape, xs.Perm ys →
      (broadcast xs).mapError Conflict.axis = (broadcast ys).mapError Conflict.axis) ∧
    (∀ (xs ys : List Shape) (out : Shape), broadcast (xs ++ ys) = .ok out ↔
      ∃ p q, broadcast xs = .ok p ∧ broadcast ys = .ok q ∧ broadcast [p, q] = .ok out) ∧
    ∀ (xs : List Shape) (out : Shape), broadcast xs = .ok out →
      (∀ x ∈ xs, broadcast [x, out] = .ok out) ∧
      ∀ t : Shape, (∀ x ∈ xs, broadcast [x, t] = .ok t) → broadcast [out, t] = .ok t := by
  refine ⟨?_, fun _ _ _ => broadcast_append_eq_ok_iff, ?_⟩
  · intro xs ys hperm
    exact broadcast_congr fun s => hperm.mem_iff
  · intro xs out hout
    have hcommon := broadcast_eq_ok_iff.mp hout
    simp only [broadcast_pair_eq_ok_iff]
    exact ⟨fun x hx => hcommon.stretchesTo_of_mem hx, fun t ht => hcommon.stretchesTo ht⟩

/-- A column and a row join in a matrix, which stretches to a stack of as many rows and columns. -/
theorem broadcast_partial_join_matrix :
    (broadcast [[2, 1], [3], [4, 3]]).mapError Conflict.axis
        = (broadcast [[3], [4, 3], [2, 1]]).mapError Conflict.axis ∧
      broadcast [[2, 1], [3]] = .ok [2, 3] ∧ broadcast [[2, 3], [0, 2, 3]] = .ok [0, 2, 3] := by
  obtain ⟨hperm, _, hleast⟩ := broadcast_partial_join
  refine ⟨hperm _ _ (by decide), by decide, ?_⟩
  exact (hleast [[2, 1], [3]] [2, 3] (by decide)).2 [0, 2, 3] (by decide)

end Broadcast.Shape
