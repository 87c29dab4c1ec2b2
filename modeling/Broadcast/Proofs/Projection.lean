import Broadcast.Layout
import Broadcast.Proofs.RowMajor

/-!
# Projections

Reading an expression at an index of its shape reads every operand at the projection of that index.
The key fact is `project_inBounds`: if some shapes are broadcast together, then an index in bounds
of the common shape is projected to an index in bounds of each of them. On an axis where the operand
has size one the component becomes zero; on any other axis the operand has the common size.

With it, gathering the elements of the operands is a plain list of reads (`gather_eq_mapM`), each of
them in bounds. A repetition reads its source in bounds too (`readRepeated_eq`).
-/

namespace Broadcast

/-! ## Indices in bounds, axis by axis -/

theorem Index.inBounds_iff_forall₂ : ∀ {index : Index} {s : Shape},
    index.InBounds s ↔ List.Forall₂ (· < ·) index s
  | [], [] => by simp [InBounds]
  | i :: index, [] => by simp [InBounds]
  | [], n :: s => by simp [InBounds]
  | i :: index, n :: s => by
    rw [List.forall₂_cons, ← inBounds_iff_forall₂, InBounds]

theorem Index.inBounds_iff {index : Index} {s : Shape} :
    index.InBounds s ↔ index.length = s.length ∧
      ∀ k (hi : k < index.length) (hs : k < s.length), index[k] < s[k] := by
  rw [inBounds_iff_forall₂, List.forall₂_iff_get]
  rfl

namespace Shape

/-! ## The common size of an axis -/

/-- Going through the sizes from a common size on succeeds if that size is the common one. -/
theorem foldlM_joinSize_eq_ok_iff {axis : Nat} : ∀ {sizes : List Nat} {common n : Nat},
    sizes.foldlM (joinSize axis) common = .ok n ↔
      (common = 1 ∨ common = n) ∧ (∀ m ∈ sizes, m = 1 ∨ m = n) ∧ (n = common ∨ n ∈ sizes)
  | [], common, n => by
    constructor
    · intro h
      cases h
      exact ⟨.inr rfl, fun m hm => absurd hm List.not_mem_nil, .inl rfl⟩
    · rintro ⟨_, _, hattained⟩
      rw [hattained.resolve_right List.not_mem_nil]
      rfl
  | size :: sizes, common, n => by
    rw [List.foldlM_cons, List.forall_mem_cons, List.mem_cons]
    unfold joinSize
    -- Three branches go on with a common size; in the last one there is no size to go on with.
    split
    · refine foldlM_joinSize_eq_ok_iff.trans ?_
      grind
    · split
      · refine foldlM_joinSize_eq_ok_iff.trans ?_
        grind
      · split
        · refine foldlM_joinSize_eq_ok_iff.trans ?_
          grind
        · constructor
          · intro h
            cases h
          · rintro ⟨hcommon, ⟨hsize, _⟩, _⟩
            omega

/-- On an axis that is joined, each shape has size one or the common size. -/
theorem sizeAt_of_joinAxis {shapes : List Shape} {rank axis n : Nat}
    (h : joinAxis shapes rank axis = .ok n) {s : Shape} (hs : s ∈ shapes) :
    s.sizeAt rank axis = 1 ∨ s.sizeAt rank axis = n :=
  (foldlM_joinSize_eq_ok_iff.mp h).2.1 _ (List.mem_map_of_mem hs)

/-! ## The common shape -/

theorem le_foldl_max : ∀ {l : List Nat} {start : Nat},
    start ≤ l.foldl max start ∧ ∀ n ∈ l, n ≤ l.foldl max start
  | [], start => by simp
  | m :: l, start => by
    rw [List.foldl_cons]
    obtain ⟨hstart, hrest⟩ : max start m ≤ l.foldl max (max start m) ∧
        ∀ n ∈ l, n ≤ l.foldl max (max start m) := le_foldl_max
    refine ⟨by omega, ?_⟩
    intro n hn
    rcases List.mem_cons.mp hn with rfl | hn
    · omega
    · exact hrest n hn

theorem length_le_maxRank {shapes : List Shape} {s : Shape} (hs : s ∈ shapes) :
    s.length ≤ maxRank shapes :=
  le_foldl_max.2 _ (List.mem_map_of_mem hs)

/-- A common shape has the largest rank, and the joined size on every axis. -/
theorem broadcast_eq_ok {shapes : List Shape} {out : Shape} (h : broadcast shapes = .ok out) :
    out.length = maxRank shapes ∧
      ∀ axis (hlt : axis < out.length), joinAxis shapes out.length axis = .ok out[axis] := by
  have hall := mapM_eq_ok_iff.mp h
  have hlen : out.length = maxRank shapes := by
    rw [← hall.length_eq, List.length_range]
  refine ⟨hlen, ?_⟩
  intro axis hlt
  have hget := (List.forall₂_iff_get.mp hall).2 axis (by rw [List.length_range]; omega) hlt
  simp only [List.get_eq_getElem, List.getElem_range] at hget
  rw [hlen]
  exact hget

/-- An axis of a shape lies behind the axes that alignment adds. -/
theorem sizeAt_lead_add {s : Shape} {rank k : Nat} (hk : k < s.length) :
    s.sizeAt rank (rank - s.length + k) = s[k] := by
  rw [sizeAt, if_neg (by omega), Nat.add_sub_cancel_left, List.getD_eq_getElem?_getD,
    List.getElem?_eq_getElem hk, Option.getD_some]

theorem length_le_of_broadcast {shapes : List Shape} {out s : Shape}
    (hout : broadcast shapes = .ok out) (hs : s ∈ shapes) : s.length ≤ out.length :=
  (broadcast_eq_ok hout).1 ▸ length_le_maxRank hs

/-- On each of its axes, a shape has size one or the common size. -/
theorem getElem_of_broadcast {shapes : List Shape} {out s : Shape}
    (hout : broadcast shapes = .ok out) (hs : s ∈ shapes) {k : Nat} (hk : k < s.length) :
    ∃ haxis : out.length - s.length + k < out.length,
      s[k] = 1 ∨ s[k] = out[out.length - s.length + k] := by
  have hle := length_le_of_broadcast hout hs
  have haxis : out.length - s.length + k < out.length := by omega
  have hsize := sizeAt_of_joinAxis ((broadcast_eq_ok hout).2 _ haxis) hs
  rw [sizeAt_lead_add hk] at hsize
  exact ⟨haxis, hsize⟩

theorem zero_mem_of_broadcast {shapes : List Shape} {out s : Shape}
    (hout : broadcast shapes = .ok out) (hs : s ∈ shapes) (hzero : 0 ∈ s) :
    0 ∈ out := by
  obtain ⟨k, hk, h0⟩ := List.getElem_of_mem hzero
  obtain ⟨haxis, hsize⟩ := getElem_of_broadcast hout hs hk
  have hcommon : out[out.length - s.length + k] = 0 := by omega
  exact hcommon ▸ List.getElem_mem haxis

/-- A common shape ends with the axes of each shape, the axes of size one stretched. -/
theorem exists_append_of_broadcast {shapes : List Shape} {out s : Shape}
    (hout : broadcast shapes = .ok out) (hs : s ∈ shapes) :
    ∃ front back, out = front ++ back ∧ List.Forall₂ (fun n m => n = 1 ∨ n = m) s back := by
  have hle := length_le_of_broadcast hout hs
  refine ⟨out.take (out.length - s.length), out.drop (out.length - s.length),
    (List.take_append_drop _ _).symm, List.forall₂_iff_get.mpr ⟨?_, ?_⟩⟩
  · rw [List.length_drop]
    omega
  · intro k hk _
    obtain ⟨_, hsize⟩ := getElem_of_broadcast hout hs hk
    simpa using hsize

end Shape

/-! ## Projections -/

theorem Plan.length_project {p : Plan} {index : Index} (h : index.length = p.lead + p.rank) :
    (p.project index).length = p.rank := by
  rw [project, List.length_zipWith, List.length_drop, h]
  show min (p.lead + p.rank - p.lead) p.rank = p.rank
  omega

theorem Plan.getElem_project_align {s : Shape} {rank k : Nat} {index : Index} (hk : k < s.length)
    (hlt : rank - s.length + k < index.length)
    (hp : k < ((Plan.align s rank).project index).length) :
    ((Plan.align s rank).project index)[k]
      = if s[k] ≠ 1 then index[rank - s.length + k] else 0 := by
  simp [project, align]

/-- The projection of an index of the common shape is an index of every shape. -/
theorem project_inBounds {shapes : List Shape} {out s : Shape} {index : Index}
    (hout : Shape.broadcast shapes = .ok out) (hs : s ∈ shapes) (hb : index.InBounds out) :
    index.length = (Plan.align s out.rank).lead + (Plan.align s out.rank).rank ∧
      ((Plan.align s out.rank).project index).InBounds s := by
  have hle : s.length ≤ out.rank := Shape.length_le_of_broadcast hout hs
  obtain ⟨hlen, hcomponents⟩ := Index.inBounds_iff.mp hb
  have hmap : index.length = (Plan.align s out.rank).lead + (Plan.align s out.rank).rank := by
    rw [Plan.lead_add_rank_align hle]
    exact hlen
  refine ⟨hmap, Index.inBounds_iff.mpr ⟨?_, ?_⟩⟩
  · rw [Plan.length_project hmap, Plan.rank_align]
  · intro k hk hks
    obtain ⟨haxis, hsize⟩ := Shape.getElem_of_broadcast hout hs hks
    have hlt : out.rank - s.length + k < index.length := by
      rw [hlen]
      exact haxis
    rw [Plan.getElem_project_align hks hlt hk]
    split
    -- An axis of any size but one has the common size.
    · next hne =>
      rw [hsize.resolve_left hne]
      exact hcomponents _ hlt haxis
    · next hone =>
      omega

/-! ## Gathering -/

namespace Layout

variable {α : Type} {args : List (Operand α)} {types : List DType} {l : Layout} {index : Index}

theorem of_eq_ok {shapes : List Shape} (h : Layout.of shapes types = .ok l) :
    Shape.broadcast shapes = .ok l.shape ∧ l.dtype = DType.promoteAll types ∧
      l.plans = shapes.map (Plan.align · l.shape.rank) := by
  obtain ⟨shape, hshape, h⟩ := bind_eq_ok_iff.mp h
  cases h
  exact ⟨hshape, rfl, rfl⟩

/-- Every operand is read at an index in bounds. -/
theorem project_operand_inBounds (h : Layout.of (args.map (·.shape)) types = .ok l)
    (hb : index.InBounds l.shape) {x : Operand α} (hx : x ∈ args) :
    ((Plan.align x.shape l.shape.rank).project index).InBounds x.shape :=
  (project_inBounds (of_eq_ok h).1 (List.mem_map_of_mem hx) hb).2

/-- Gathering reads each operand at the projection of the index. -/
theorem gather_eq_mapM (h : Layout.of (args.map (·.shape)) types = .ok l)
    (hb : index.InBounds l.shape) :
    l.gather args index
      = args.mapM fun x => x.read ((Plan.align x.shape l.shape.rank).project index) := by
  obtain ⟨hshape, _, hplans⟩ := of_eq_ok h
  rw [gather, hplans, List.map_map, ← List.map_prod_left_eq_zip, List.mapM_map]
  refine mapM_congr_of_mem ?_
  intro x hx
  obtain ⟨hlen, _⟩ := project_inBounds hshape (List.mem_map_of_mem hx) hb
  show ((Plan.align x.shape l.shape.rank).map index >>= x.read) = _
  rw [Plan.map_eq_ok_iff.mpr ⟨hlen, rfl⟩]
  rfl

end Layout

/-! ## Repetition -/

/-- A repetition reads its source at the index whose copies hold the component. -/
theorem Operand.readRepeated_eq {α : Type} {x : Operand α} {count times i : Nat}
    (hcount : x.numel = .ok count) (hi : i < count * times) :
    ∃ own, Index.unravel (i / times) x.shape = .ok own ∧ own.InBounds x.shape ∧
      ∀ rest, x.readRepeated times (i :: rest) = x.read own := by
  have hprod : count = List.prod x.shape := (Shape.numel_eq_ok hcount).1
  have htimes : times ≠ 0 := by
    rintro rfl
    exact absurd hi (Nat.not_lt_zero i)
  have hlt : i / times < List.prod x.shape := by
    rw [← hprod]
    exact (Nat.div_lt_iff_lt_mul (Nat.pos_of_ne_zero htimes)).mpr hi
  obtain ⟨own, hown, hb, _⟩ := Index.unravel_eq_ok hlt
  refine ⟨own, hown, hb, ?_⟩
  intro rest
  rw [readRepeated, if_neg htimes, hown]
  rfl

end Broadcast
