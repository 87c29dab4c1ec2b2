import Mathlib.Data.List.GetD
import Broadcast.Proofs.Projection

/-!
# The broadcasting rule

Shapes have a common shape exactly if on every axis, after filling up the shorter ones with ones in
front, all sizes other than one agree. This module states the rule on the filled-up shapes, without
the running common size that the computation carries along, where one stands for no size yet:

* `IsCommon` — what the common shape is
* `FirstConflict` — what is reported if there is none: the outermost axis on which two sizes
  disagree, the first size other than one there, and the first later one that differs from it
* `broadcast_rule` — the computation gives the one or the other

Both descriptions determine the shape or the conflict, so each is met by the outcome and by
nothing else.
-/

namespace Broadcast.Shape

/-! ## Shapes filled up in front -/

/-- A shape filled up in front with ones to the given rank. -/
def padded (rank : Nat) (s : Shape) : Shape :=
  List.replicate (rank - s.length) 1 ++ s

/-- The sizes of all shapes on one axis, after filling them up to the given rank. -/
def axisSizes (rank axis : Nat) (shapes : List Shape) : List Nat :=
  shapes.map fun s => (s.padded rank).getD axis 1

theorem sizeAt_eq_getD_padded (s : Shape) (rank axis : Nat) :
    s.sizeAt rank axis = (s.padded rank).getD axis 1 := by
  unfold sizeAt padded
  split
  · next hlead => rw [List.getD_append _ _ _ _ (by simpa using hlead), List.getD_replicate _ hlead]
  · next hown =>
    rw [List.getD_append_right _ _ _ _ (by simpa using Nat.not_lt.mp hown), List.length_replicate]

theorem joinAxis_eq_foldlM (shapes : List Shape) (rank axis : Nat) :
    joinAxis shapes rank axis = (axisSizes rank axis shapes).foldlM (joinSize axis) 1 := by
  simp only [joinAxis, axisSizes, ← sizeAt_eq_getD_padded]

/-! ## One axis -/

/-- All sizes other than one are equal. -/
def Agree (sizes : List Nat) : Prop :=
  ∀ m ∈ sizes, ∀ n ∈ sizes, m ≠ 1 → n ≠ 1 → m = n

/-- The size that all sizes other than one have, or one if there is none. -/
structure IsJoin (sizes : List Nat) (n : Nat) : Prop where
  eq_one_or : ∀ m ∈ sizes, m = 1 ∨ m = n
  attained : n = 1 ∨ n ∈ sizes

/--
The first size other than one, and the first one after it that is neither one nor equal to it. All
sizes before the first are one, so it makes no difference where the search for the second begins.
-/
def FirstClash (sizes : List Nat) (first second : Nat) : Prop :=
  sizes.find? (fun n => n ≠ 1) = some first ∧
    sizes.find? (fun n => n ≠ 1 ∧ n ≠ first) = some second

theorem IsJoin.agree {sizes : List Nat} {n : Nat} (h : IsJoin sizes n) : Agree sizes := by
  intro m hm k hk hm1 hk1
  rw [(h.eq_one_or m hm).resolve_left hm1, (h.eq_one_or k hk).resolve_left hk1]

theorem exists_isJoin_iff {sizes : List Nat} : (∃ n, IsJoin sizes n) ↔ Agree sizes := by
  constructor
  · rintro ⟨n, hn⟩
    exact hn.agree
  · intro h
    cases hfind : sizes.find? (fun n => n ≠ 1) with
    | none =>
      have hones : ∀ m ∈ sizes, m = 1 := by simpa using hfind
      exact ⟨1, fun m hm => .inl (hones m hm), .inl rfl⟩
    | some n =>
      have hmem : n ∈ sizes := List.mem_of_find?_eq_some hfind
      have hne : n ≠ 1 := by simpa using List.find?_some hfind
      exact ⟨n, fun m hm => or_iff_not_imp_left.mpr fun hm1 => h m hm n hmem hm1 hne, .inr hmem⟩

/-- Going on from a size other than one stops at the first size that disagrees with it. -/
theorem foldlM_joinSize_eq_error_iff {axis : Nat} : ∀ {sizes : List Nat} {common : Nat}
    {c : Conflict}, common ≠ 1 →
    (sizes.foldlM (joinSize axis) common = .error c ↔ c.axis = axis ∧ c.first = common ∧
      sizes.find? (fun n => n ≠ 1 ∧ n ≠ common) = some c.second)
  | [], common, c, _ => by simp [pure, Except.pure]
  | size :: sizes, common, c, hcommon => by
    rw [List.foldlM_cons]
    by_cases hsize : size ≠ 1 ∧ size ≠ common
    · have hjoin : joinSize axis common size = .error ⟨axis, common, size⟩ := by
        rw [joinSize, if_neg hsize.1, if_neg hcommon, if_neg (Ne.symm hsize.2)]
      rw [hjoin, List.find?_cons_of_pos (by simpa using hsize)]
      cases c
      simp [bind, Except.bind, eq_comm]
    · have hjoin : joinSize axis common size = .ok common := by
        unfold joinSize
        grind
      rw [hjoin, List.find?_cons_of_neg (by simpa using hsize)]
      exact foldlM_joinSize_eq_error_iff hcommon

/-- Going through all sizes stops at the first clash. -/
theorem foldlM_joinSize_one_eq_error_iff {axis : Nat} : ∀ {sizes : List Nat} {c : Conflict},
    sizes.foldlM (joinSize axis) 1 = .error c ↔
      c.axis = axis ∧ FirstClash sizes c.first c.second
  | [], c => by simp [FirstClash, pure, Except.pure]
  | size :: sizes, c => by
    rw [List.foldlM_cons, FirstClash]
    by_cases hsize : size = 1
    · have hjoin : joinSize axis 1 size = .ok 1 := by rw [joinSize, if_pos hsize]
      rw [hjoin, List.find?_cons_of_neg (by simpa using hsize),
        List.find?_cons_of_neg (by simp [hsize])]
      exact foldlM_joinSize_one_eq_error_iff
    · have hjoin : joinSize axis 1 size = .ok size := by
        rw [joinSize, if_neg hsize, if_pos rfl]
      rw [hjoin, List.find?_cons_of_pos (by simpa using hsize), Option.some.injEq]
      refine (foldlM_joinSize_eq_error_iff hsize).trans ?_
      -- From here on the size itself is the first one.
      refine and_congr_right fun _ => ?_
      rw [eq_comm (a := size)]
      refine and_congr_right fun hfirst => ?_
      rw [hfirst, List.find?_cons_of_neg (by simp)]

theorem joinAxis_eq_ok_iff {shapes : List Shape} {rank axis n : Nat} :
    joinAxis shapes rank axis = .ok n ↔ IsJoin (axisSizes rank axis shapes) n := by
  rw [joinAxis_eq_foldlM, foldlM_joinSize_eq_ok_iff]
  constructor
  · rintro ⟨_, hall, hattained⟩
    exact ⟨hall, hattained⟩
  · rintro ⟨hall, hattained⟩
    exact ⟨.inl rfl, hall, hattained⟩

theorem joinAxis_eq_error_iff {shapes : List Shape} {rank axis : Nat} {c : Conflict} :
    joinAxis shapes rank axis = .error c ↔
      c.axis = axis ∧ FirstClash (axisSizes rank axis shapes) c.first c.second := by
  rw [joinAxis_eq_foldlM, foldlM_joinSize_one_eq_error_iff]

/-! ## All axes -/

/-- The common shape: the largest rank, and on each axis the common size. -/
structure IsCommon (shapes : List Shape) (out : Shape) : Prop where
  length_le : ∀ s ∈ shapes, s.length ≤ out.length
  length_attained : out = [] ∨ ∃ s ∈ shapes, s.length = out.length
  size : ∀ axis (hlt : axis < out.length), IsJoin (axisSizes out.length axis shapes) out[axis]

/-- The first conflict: the outermost axis on which sizes disagree, and the first two that do. -/
structure FirstConflict (shapes : List Shape) (c : Conflict) : Prop where
  axis_lt : c.axis < maxRank shapes
  agree_before : ∀ axis < c.axis, Agree (axisSizes (maxRank shapes) axis shapes)
  clash : FirstClash (axisSizes (maxRank shapes) c.axis shapes) c.first c.second

theorem foldl_max_attained : ∀ {l : List Nat} {start : Nat},
    l.foldl max start = start ∨ l.foldl max start ∈ l
  | [], start => .inl rfl
  | m :: l, start => by
    have hrest : l.foldl max (max start m) = max start m ∨ l.foldl max (max start m) ∈ l :=
      foldl_max_attained
    rw [List.foldl_cons, List.mem_cons]
    rcases hrest with h | h
    · omega
    · exact .inr (.inr h)

theorem maxRank_attained (shapes : List Shape) :
    maxRank shapes = 0 ∨ ∃ s ∈ shapes, s.length = maxRank shapes :=
  foldl_max_attained.imp id List.mem_map.mp

theorem IsCommon.length_eq {shapes : List Shape} {out : Shape} (h : IsCommon shapes out) :
    out.length = maxRank shapes := by
  refine Nat.le_antisymm ?_ ?_
  · rcases h.length_attained with rfl | ⟨s, hs, hlen⟩
    · exact Nat.zero_le _
    · exact hlen ▸ length_le_maxRank hs
  · rcases maxRank_attained shapes with hzero | ⟨s, hs, hlen⟩
    · exact hzero ▸ Nat.zero_le _
    · exact hlen ▸ h.length_le s hs

theorem isCommon_iff {shapes : List Shape} {out : Shape} :
    IsCommon shapes out ↔ out.length = maxRank shapes ∧
      ∀ axis (hlt : axis < out.length), IsJoin (axisSizes out.length axis shapes) out[axis] := by
  constructor
  · intro h
    exact ⟨h.length_eq, h.size⟩
  · rintro ⟨hlen, hsize⟩
    refine ⟨?_, ?_, hsize⟩
    · rw [hlen]
      exact fun s hs => length_le_maxRank hs
    · rw [← List.length_eq_zero_iff, hlen]
      exact maxRank_attained shapes

theorem broadcast_eq_ok_iff {shapes : List Shape} {out : Shape} :
    broadcast shapes = .ok out ↔ IsCommon shapes out := by
  rw [isCommon_iff]
  constructor
  · intro h
    obtain ⟨hlen, haxes⟩ := broadcast_eq_ok h
    exact ⟨hlen, fun axis hlt => joinAxis_eq_ok_iff.mp (haxes axis hlt)⟩
  · rintro ⟨hlen, hsize⟩
    refine mapM_eq_ok_iff.mpr (List.forall₂_iff_get.mpr ⟨by simp [hlen], ?_⟩)
    intro axis hrange hlt
    simp only [List.get_eq_getElem, List.getElem_range, ← hlen]
    exact joinAxis_eq_ok_iff.mpr (hsize axis hlt)

theorem exists_joinAxis_iff {shapes : List Shape} {rank axis : Nat} :
    (∃ n, joinAxis shapes rank axis = .ok n) ↔ Agree (axisSizes rank axis shapes) := by
  simp only [joinAxis_eq_ok_iff, exists_isJoin_iff]

theorem exists_broadcast_iff {shapes : List Shape} :
    (∃ out, broadcast shapes = .ok out) ↔
      ∀ axis < maxRank shapes, Agree (axisSizes (maxRank shapes) axis shapes) := by
  constructor
  · rintro ⟨out, hout⟩ axis hlt
    have hcommon := broadcast_eq_ok_iff.mp hout
    rw [← hcommon.length_eq] at hlt ⊢
    exact (hcommon.size axis hlt).agree
  · intro h
    refine exists_mapM_eq_ok fun axis hmem => ?_
    exact exists_joinAxis_iff.mpr (h axis (List.mem_range.mp hmem))

theorem broadcast_eq_error_iff {shapes : List Shape} {c : Conflict} :
    broadcast shapes = .error c ↔ FirstConflict shapes c := by
  rw [broadcast, mapM_eq_error_iff]
  simp only [List.length_range, List.getElem_range, exists_joinAxis_iff, joinAxis_eq_error_iff]
  constructor
  · rintro ⟨axis, hlt, ⟨rfl, hclash⟩, hbefore⟩
    exact ⟨hlt, hbefore, hclash⟩
  · rintro ⟨hlt, hbefore, hclash⟩
    exact ⟨c.axis, hlt, ⟨rfl, hclash⟩, hbefore⟩

/-- The sizes on an axis can all be looked up: no shape has more axes than the largest rank. -/
theorem mapM_alignedSize_eq_ok {shapes : List Shape} {axis : Nat} (hlt : axis < maxRank shapes) :
    shapes.mapM (fun s => s.alignedSize axis (maxRank shapes))
      = .ok (axisSizes (maxRank shapes) axis shapes) := by
  refine mapM_eq_ok_iff.mpr (List.forall₂_map_right_iff.mpr (List.forall₂_same.mpr fun s hs => ?_))
  rw [alignedSize, if_neg (Nat.not_lt.mpr (length_le_maxRank hs)), if_neg (Nat.not_le.mpr hlt),
    sizeAt_eq_getD_padded]

/--
**Broadcasting follows the rule.** Shapes of any ranks and sizes have a common shape exactly if on
every axis all sizes other than one agree, and it is the one of the largest rank with the common
size on every axis. Otherwise the first conflict is reported: the outermost axis that has one, and
the first two sizes that disagree there. Every size that is looked at on the way exists.
-/
theorem broadcast_rule (shapes : List Shape) :
    ((∃ out, broadcast shapes = .ok out) ↔
      ∀ axis < maxRank shapes, Agree (axisSizes (maxRank shapes) axis shapes)) ∧
    (∀ out, broadcast shapes = .ok out ↔ IsCommon shapes out) ∧
    (∀ c, broadcast shapes = .error c ↔ FirstConflict shapes c) ∧
    ∀ axis < maxRank shapes, shapes.mapM (fun s => s.alignedSize axis (maxRank shapes))
      = .ok (axisSizes (maxRank shapes) axis shapes) :=
  ⟨exists_broadcast_iff, fun _ => broadcast_eq_ok_iff, fun _ => broadcast_eq_error_iff,
    fun _ hlt => mapM_alignedSize_eq_ok hlt⟩

-- The outer axis is judged first, and there the third shape disagrees with the first one.
example : broadcast [[2, 3], [1, 4], [5, 4]] = .error ⟨0, 2, 5⟩ := by decide

end Broadcast.Shape
