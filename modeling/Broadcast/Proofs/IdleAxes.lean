import Broadcast.Proofs.Addressing
import Broadcast.Proofs.Projection

/-!
# Axes along which a view does not move

An axis is idle if it has size one or stride zero: whatever component is given for it, the address
stays where it is. Axes can be made idle in either way without changing what a view reads.

* `stretched_refines_plan` — a view can be read under a larger shape by rewriting the index (a
  plan) or by rewriting the strides (zero on the axes to be stretched), and the two cannot be told
  apart
* `accepted_readable_iff` — an accepted view can be read everywhere exactly if the last component
  of every axis with a stride fits a signed word. Beyond that the check of the bounds wraps around,
  which does not matter on an idle axis only

Neither the check of the bounds nor reading notices an idle axis, because the numbers it works on
fit the word before the axis and are the same after it.
-/

namespace Broadcast

/-! ## Steps that change nothing -/

/-- Two entries that are the same, or both idle. -/
def SameButIdle {α : Type} (Idle : α → Prop) (a b : α) : Prop :=
  a = b ∨ Idle a ∧ Idle b

section Idle

variable {ε σ α : Type} {step : σ → α → Except ε σ} {Fits : σ → Prop} {Idle : α → Prop}

theorem foldlM_idle_append (hidle : ∀ s a, Fits s → Idle a → step s a = .ok s) {s : σ}
    (hs : Fits s) (rest : List α) : ∀ {idle : List α}, (∀ a ∈ idle, Idle a) →
    (idle ++ rest).foldlM step s = rest.foldlM step s
  | [], _ => rfl
  | a :: idle, h => by
    rw [List.forall_mem_cons] at h
    rw [List.cons_append, List.foldlM_cons, hidle s a hs h.1]
    exact foldlM_idle_append hidle hs rest h.2

/-- Two runs that differ only in idle steps end alike. -/
theorem foldlM_eq_of_idle (hidle : ∀ s a, Fits s → Idle a → step s a = .ok s)
    (hstep : ∀ s a s', Fits s → step s a = .ok s' → Fits s') {as bs : List α}
    (h : List.Forall₂ (SameButIdle Idle) as bs) {s : σ} (hs : Fits s) :
    as.foldlM step s = bs.foldlM step s := by
  induction h generalizing s with
  | nil => rfl
  | @cons a b as bs hab _ ih =>
    rw [List.foldlM_cons, List.foldlM_cons]
    rcases hab with rfl | ⟨ha, hb⟩
    · cases hnext : step s a with
      | error e => rfl
      | ok s' => exact ih (hstep s a s' hs hnext)
    · rw [hidle s a hs ha, hidle s b hs hb]
      exact ih hs

end Idle

/-! ## Numbers that a word holds -/

namespace Word

/-- A number that a signed word holds. -/
def Holds (z : Int) : Prop :=
  -(half : Int) ≤ z ∧ z < half

theorem Holds.signed_eq {z : Int} (h : Holds z) : signed z = .ok z :=
  signed_eq_ok_iff.mpr ⟨h, rfl⟩

theorem holds_of_signed {z w : Int} (h : signed z = .ok w) : Holds w := by
  obtain ⟨hword, rfl⟩ := signed_eq_ok_iff.mp h
  exact hword

theorem holds_asSigned (n : Nat) : Holds (asSigned n) :=
  ⟨Int.le_bmod (by decide), asSigned_lt_half n⟩

/-- A place that lies inside data of a size that fits a signed word is an address from zero on. -/
theorem Holds.bounds_of_asUnsigned_lt {z : Int} (h : Holds z) {size : Nat} (hsize : size < half)
    (hlt : asUnsigned z < size) : 0 ≤ z ∧ z < size := by
  unfold Holds half at h
  unfold half at hsize
  unfold asUnsigned Word.size at hlt
  omega

end Word

namespace View

open Index (InBounds)

variable {α : Type}

/-! ## Idle axes -/

/-- An axis along which the addresses do not change. -/
def IdleAxis (axis : Nat × Int) : Prop :=
  axis.1 = 1 ∨ axis.2 = 0

/-- A component, with the stride of its axis, that does not change the address. -/
def IdleMove (move : Nat × Int) : Prop :=
  move.1 = 0 ∨ move.2 = 0

/-- A range of addresses whose two ends fit the word. -/
def RangeHolds (range : Int × Int) : Prop :=
  Word.Holds range.1 ∧ Word.Holds range.2

theorem extendRange_idle (range : Int × Int) (axis : Nat × Int) (hrange : RangeHolds range)
    (h : IdleAxis axis) :
    extendRange range axis = .ok range := by
  have hreach : axis.2 * Word.asSigned (axis.1 - 1) = 0 := by
    rcases h with h | h
    · rw [h]
      exact Int.mul_zero _
    · rw [h, Int.zero_mul]
  have hzero : Word.signed 0 = .ok 0 := rfl
  rw [extendRange, hreach, hzero]
  show (if 0 ≤ axis.2 then _ else _) = _
  split
  · rw [Int.add_zero, hrange.2.signed_eq]
    rfl
  · rw [Int.add_zero, hrange.1.signed_eq]
    rfl

theorem rangeHolds_of_extendRange (range : Int × Int) (axis : Nat × Int) (range' : Int × Int)
    (hrange : RangeHolds range) (h : extendRange range axis = .ok range') :
    RangeHolds range' := by
  obtain ⟨move, _, h⟩ := bind_eq_ok_iff.mp h
  split at h
  · obtain ⟨high, hhigh, h⟩ := bind_eq_ok_iff.mp h
    cases h
    exact ⟨hrange.1, Word.holds_of_signed hhigh⟩
  · obtain ⟨low, hlow, h⟩ := bind_eq_ok_iff.mp h
    cases h
    exact ⟨Word.holds_of_signed hlow, hrange.2⟩

theorem moveAlong_idle (address : Int) (move : Nat × Int) (haddress : Word.Holds address)
    (h : IdleMove move) : moveAlong address move = .ok address := by
  have hdistance : Word.asSigned move.1 * move.2 = 0 := by
    rcases h with h | h
    · rw [h]
      exact Int.zero_mul _
    · rw [h, Int.mul_zero]
  have hzero : Word.signed 0 = .ok 0 := rfl
  rw [moveAlong, hdistance, hzero]
  show Word.signed (address + 0) = _
  rw [Int.add_zero, haddress.signed_eq]

theorem holds_of_moveAlong (address : Int) (move : Nat × Int) (address' : Int)
    (_ : Word.Holds address) (h : moveAlong address move = .ok address') :
    Word.Holds address' := by
  obtain ⟨distance, _, h⟩ := bind_eq_ok_iff.mp h
  exact Word.holds_of_signed h

theorem addressRange_eq_of_idle {dims dims' : Shape} {strides strides' : List Int} (offset : Nat)
    (h : List.Forall₂ (SameButIdle IdleAxis) (dims.zip strides) (dims'.zip strides')) :
    addressRange dims strides offset = addressRange dims' strides' offset := by
  have hstart := Word.holds_asSigned offset
  unfold addressRange
  generalize Word.asSigned offset = start at hstart ⊢
  exact foldlM_eq_of_idle extendRange_idle rangeHolds_of_extendRange h ⟨hstart, hstart⟩

/-- Whether a view is accepted hangs on its range of addresses, unless it has no elements. -/
theorem new_of_new {data : Array α} {dims dims' : Shape} {strides strides' : List Int}
    {offset : Nat} {v : View α} (h : new data dims strides offset = .ok v)
    (hlen : strides'.length = dims'.length) (hzero : 0 ∈ dims → 0 ∈ dims')
    (hrange : addressRange dims' strides' offset = addressRange dims strides offset) :
    new data dims' strides' offset = .ok ⟨data, dims', strides', offset⟩ := by
  unfold new at h ⊢
  rw [if_neg (fun hne => hne hlen)]
  split at h
  · cases h
  · split
    · rfl
    · next h0 =>
      rw [if_neg (fun hmem => h0 (hzero hmem))] at h
      obtain ⟨range, heq, h⟩ := bind_eq_ok_iff.mp h
      rw [hrange]
      refine bind_eq_ok_iff.mpr ⟨range, heq, ?_⟩
      split at h
      · cases h
      · next hin => rw [if_neg hin]

theorem new_eq_ok {data : Array α} {dims : Shape} {strides : List Int} {offset : Nat} {v : View α}
    (h : new data dims strides offset = .ok v) :
    v = ⟨data, dims, strides, offset⟩ ∧ strides.length = dims.length := by
  unfold new at h
  split at h
  · cases h
  · next hlen =>
    have hlen : strides.length = dims.length := Decidable.not_not.mp hlen
    split at h
    · cases h
      exact ⟨rfl, hlen⟩
    · obtain ⟨range, _, h⟩ := bind_eq_ok_iff.mp h
      split at h
      · cases h
      · cases h
        exact ⟨rfl, hlen⟩

/-- Views of the same data read the same where they have the same address. -/
theorem read_eq_of_address {v w : View α} {index index' : Index} (hdata : v.data = w.data)
    (hb : InBounds index v.dims) (hb' : InBounds index' w.dims)
    (haddress : v.address index = w.address index') : v.read index = w.read index' := by
  rw [read, read, if_pos hb, if_pos hb', haddress, hdata]

/-! ## Stretching -/

/-- The strides of a view, with zero on the axes where it has size one. -/
def stoppedStrides (dims : Shape) (strides : List Int) : List Int :=
  dims.zipWith (fun n stride => if n = 1 then 0 else stride) strides

/--
The strides that read a view under a larger shape: zero on the axes that the view lacks and on
those where it has size one.
-/
def stretchedStrides (dims : Shape) (strides : List Int) (rank : Nat) : List Int :=
  List.replicate (rank - dims.length) 0 ++ stoppedStrides dims strides

theorem length_stretchedStrides {dims : Shape} {strides : List Int} {rank : Nat}
    (hlen : strides.length = dims.length) (hle : dims.length ≤ rank) :
    (stretchedStrides dims strides rank).length = rank := by
  rw [stretchedStrides, List.length_append, List.length_replicate, stoppedStrides,
    List.length_zipWith, hlen, Nat.min_self]
  omega

/-- What stands in front of the axes of a view is what the view lacks. -/
theorem length_append_sub {dims : Shape} {front back : List Nat}
    (hback : back.length = dims.length) :
    (front ++ back).length - dims.length = front.length := by
  rw [List.length_append, hback, Nat.add_sub_cancel]

/-- Stretched strides stand at idle axes in front and at the axes of the view behind. -/
theorem zip_stretchedStrides {dims : Shape} {strides : List Int} {front back : List Nat}
    (hback : back.length = dims.length) :
    (front ++ back).zip (stretchedStrides dims strides (front ++ back).length)
      = front.zip (List.replicate front.length 0) ++ back.zip (stoppedStrides dims strides) := by
  rw [stretchedStrides, length_append_sub hback, List.zip_append (by simp)]

theorem snd_eq_zero_of_mem_zip {front : List Nat} {move : Nat × Int} {n : Nat}
    (h : move ∈ front.zip (List.replicate n 0)) : move.2 = 0 :=
  List.eq_of_mem_replicate (List.of_mem_zip (a := move.1) (b := move.2) h).2

/-- On the axes of its own, a stretched view differs from the view in idle axes only. -/
theorem forall₂_stretched_axes : ∀ {dims out : Shape} {strides : List Int},
    strides.length = dims.length → List.Forall₂ (fun n m => n = 1 ∨ n = m) dims out →
    List.Forall₂ (SameButIdle IdleAxis) (dims.zip strides)
      (out.zip (stoppedStrides dims strides))
  | [], [], [], _, .nil => .nil
  | n :: dims, m :: out, stride :: strides, hlen, .cons h hrest => by
    refine .cons ?_ (forall₂_stretched_axes (Nat.succ.inj hlen) hrest)
    by_cases hn : n = 1
    · exact .inr ⟨.inl hn, .inr (if_pos hn)⟩
    · exact .inl (Prod.ext (h.resolve_left hn) (if_neg hn).symm)

/-- Where a plan makes a component zero, the stretched view makes the stride zero. -/
theorem forall₂_stretched_moves : ∀ {index : Index} {dims : Shape} {strides : List Int},
    index.length = dims.length → strides.length = dims.length →
    List.Forall₂ (SameButIdle IdleMove)
      ((index.zipWith (fun i (keep : Bool) => if keep then i else 0)
        (dims.map (· ≠ 1))).zip strides)
      (index.zip (stoppedStrides dims strides))
  | [], [], [], _, _ => .nil
  | i :: index, n :: dims, stride :: strides, hindex, hlen => by
    refine .cons ?_ (forall₂_stretched_moves (Nat.succ.inj hindex) (Nat.succ.inj hlen))
    by_cases hn : n = 1
    · exact .inr ⟨.inl (by simp [hn]), .inr (if_pos hn)⟩
    · exact .inl (by simp [hn])

theorem addressRange_stretched {dims front back : Shape} {strides : List Int}
    (hlen : strides.length = dims.length)
    (hback : List.Forall₂ (fun n m => n = 1 ∨ n = m) dims back) (offset : Nat) :
    addressRange (front ++ back) (stretchedStrides dims strides (front ++ back).length) offset
      = addressRange dims strides offset := by
  have hstart := Word.holds_asSigned offset
  unfold addressRange
  generalize Word.asSigned offset = start at hstart ⊢
  rw [zip_stretchedStrides hback.length_eq.symm,
    foldlM_idle_append extendRange_idle ⟨hstart, hstart⟩ _
      (fun axis hmem => .inr (snd_eq_zero_of_mem_zip hmem))]
  exact (foldlM_eq_of_idle extendRange_idle rangeHolds_of_extendRange
    (forall₂_stretched_axes hlen hback) ⟨hstart, hstart⟩).symm

theorem address_stretched {v w : View α} (hlen : v.strides.length = v.dims.length)
    (hoffset : w.offset = v.offset) {rank : Nat} (hle : v.dims.length ≤ rank)
    (hstrides : w.strides = stretchedStrides v.dims v.strides rank) {index : Index}
    (hindex : index.length = rank) :
    v.address ((Plan.align v.dims rank).project index) = w.address index := by
  subst hindex
  obtain ⟨front, back, rfl, hback⟩ : ∃ front back, index = front ++ back ∧
      back.length = v.dims.length :=
    ⟨index.take (index.length - v.dims.length), index.drop (index.length - v.dims.length),
      (List.take_append_drop _ _).symm, by rw [List.length_drop]; omega⟩
  have hproject : (Plan.align v.dims (front ++ back).length).project (front ++ back)
      = back.zipWith (fun i (keep : Bool) => if keep then i else 0) (v.dims.map (· ≠ 1)) := by
    simp only [Plan.project, Plan.align, length_append_sub hback, List.drop_left]
  have hstart := Word.holds_asSigned v.offset
  rw [address, address, hproject, hstrides, hoffset, zip_stretchedStrides hback,
    foldlM_idle_append moveAlong_idle hstart _
      (fun move hmem => .inr (snd_eq_zero_of_mem_zip hmem))]
  exact foldlM_eq_of_idle moveAlong_idle holds_of_moveAlong
    (forall₂_stretched_moves hback hlen) hstart

/--
**Rewriting the index and rewriting the strides are the same.** If a view is accepted and its shape
is broadcast with others, then the view over the same data and offset with the common shape and the
stretched strides is accepted too, however large the common shape is. At every index in bounds it
reads what the view reads through its plan, or fails with the same fault.
-/
theorem stretched_refines_plan {data : Array α} {dims : Shape} {strides : List Int} {offset : Nat}
    {v : View α} (hv : new data dims strides offset = .ok v) {shapes : List Shape} {out : Shape}
    (hdims : v.dims ∈ shapes) (hout : Shape.broadcast shapes = .ok out) :
    ∃ w plan, new v.data out (stretchedStrides v.dims v.strides out.rank) v.offset = .ok w ∧
      Plan.of v.dims out.rank = .ok plan ∧
      ∀ index, InBounds index out → (plan.map index >>= v.read) = w.read index := by
  obtain ⟨rfl, hlen⟩ := new_eq_ok hv
  have hle : dims.length ≤ out.rank := Shape.length_le_of_broadcast hout hdims
  have hrange : addressRange out (stretchedStrides dims strides out.rank) offset
      = addressRange dims strides offset := by
    obtain ⟨front, back, rfl, hback⟩ := Shape.exists_append_of_broadcast hout hdims
    exact addressRange_stretched hlen hback offset
  have haccepted := new_of_new hv (length_stretchedStrides hlen hle)
    (Shape.zero_mem_of_broadcast hout hdims) hrange
  refine ⟨_, Plan.align dims out.rank, haccepted, if_pos hle, ?_⟩
  intro index hb
  have hindex : index.length = out.rank := Index.length_of_inBounds hb
  obtain ⟨hmap, hown⟩ := project_inBounds hout hdims hb
  rw [Plan.map_eq_ok_iff.mpr ⟨hmap, rfl⟩]
  refine read_eq_of_address rfl hown hb ?_
  exact address_stretched (v := ⟨data, dims, strides, offset⟩) (w := ⟨data, out, _, offset⟩)
    hlen rfl hle rfl hindex

/-- A reversed row of two under three axes, one of them longer than any data. -/
theorem stretched_reversed_row :
    ∃ v w plan, new #[10, 20] [1, 2] [7, -1] 1 = .ok v ∧
      Shape.broadcast [[1, 2], [0x8000000000000001, 3, 1]] = .ok [0x8000000000000001, 3, 2] ∧
      new #[10, 20] [0x8000000000000001, 3, 2] [0, 0, -1] 1 = .ok w ∧
      Plan.of [1, 2] 3 = .ok plan ∧
      (plan.map [0x8000000000000000, 2, 1] >>= v.read) = w.read [0x8000000000000000, 2, 1] ∧
      w.read [0x8000000000000000, 2, 1] = .ok 10 := by
  have hv : new #[10, 20] [1, 2] [7, -1] 1 = .ok ⟨#[10, 20], [1, 2], [7, -1], 1⟩ := rfl
  have hout : Shape.broadcast [[1, 2], [0x8000000000000001, 3, 1]]
      = .ok [0x8000000000000001, 3, 2] := rfl
  obtain ⟨w, plan, hw, hplan, hread⟩ := stretched_refines_plan hv List.mem_cons_self hout
  have hsame := hread [0x8000000000000000, 2, 1] (by decide)
  refine ⟨_, w, plan, hv, hout, hw, hplan, hsame, ?_⟩
  cases hplan
  rw [← hsame]
  rfl

/-! ## Sizes beyond a signed word -/

/-- The sizes of a view, with those of the axes of stride zero cut down to one. -/
def movingDims (dims : Shape) (strides : List Int) : Shape :=
  dims.zipWith (fun n stride => if stride = 0 then 1 else n) strides

/-- An index of a view, with the components of the axes of stride zero set to zero. -/
def movingIndex (index : Index) (strides : List Int) : Index :=
  index.zipWith (fun i stride => if stride = 0 then 0 else i) strides

/-- Cutting down what stands at a zero stride leaves the list as it is but for idle entries. -/
theorem forall₂_moving {Idle : Nat × Int → Prop} (hidle : ∀ n, Idle (n, 0)) (c : Nat) :
    ∀ (l : List Nat) (strides : List Int),
    List.Forall₂ (SameButIdle Idle)
      ((l.zipWith (fun n stride => if stride = 0 then c else n) strides).zip strides)
      (l.zip strides)
  | [], _ => .nil
  | _ :: _, [] => .nil
  | n :: l, stride :: strides => by
    refine .cons ?_ (forall₂_moving hidle c l strides)
    by_cases hs : stride = 0
    · subst hs
      exact .inr ⟨hidle _, hidle _⟩
    · exact .inl (Prod.ext (if_neg hs) rfl)

theorem inBounds_moving : ∀ {index : Index} {dims : Shape} {strides : List Int},
    strides.length = dims.length → InBounds index dims →
    InBounds (movingIndex index strides) (movingDims dims strides)
  | [], [], [], _, _ => trivial
  | i :: index, n :: dims, stride :: strides, hlen, hb => by
    refine ⟨?_, inBounds_moving (Nat.succ.inj hlen) hb.2⟩
    show (if stride = 0 then 0 else i) < if stride = 0 then 1 else n
    split
    · exact Nat.zero_lt_one
    · exact hb.1

theorem movingDims_le : ∀ {dims : Shape} {strides : List Int},
    (∀ axis ∈ dims.zip strides, axis.2 ≠ 0 → axis.1 ≤ Word.half) →
    ∀ n ∈ movingDims dims strides, n ≤ Word.half
  | [], _, _, n, hn => absurd hn List.not_mem_nil
  | _ :: _, [], _, n, hn => absurd hn List.not_mem_nil
  | m :: dims, stride :: strides, h, n, hn => by
    rw [List.zip_cons_cons, List.forall_mem_cons] at h
    rcases List.mem_cons.mp hn with rfl | hn
    · show (if stride = 0 then 1 else m) ≤ Word.half
      split
      · decide
      · next hs => exact h.1 hs
    · exact movingDims_le h.2 n hn

theorem read_eq_ok {v : View α} {index : Index} {x : α} (h : v.read index = .ok x) :
    ∃ place, v.address index = .ok place ∧ v.data[Word.asUnsigned place]? = some x := by
  unfold read at h
  split at h
  · obtain ⟨place, hplace, h⟩ := bind_eq_ok_iff.mp h
    split at h
    · next hx =>
      cases h
      exact ⟨place, hplace, hx⟩
    · cases h
  · cases h

/-- A view whose moving axes fit a signed word reads an element of its data everywhere. -/
theorem read_of_moving_le {data : Array α} {dims : Shape} {strides : List Int} {offset : Nat}
    {v : View α} (hdata : data.size < Word.half) (hoffset : offset < Word.size)
    (hv : new data dims strides offset = .ok v)
    (hfit : ∀ axis ∈ dims.zip strides, axis.2 ≠ 0 → axis.1 ≤ Word.half) {index : Index}
    (hb : InBounds index dims) : ∃ x ∈ v.data, v.read index = .ok x := by
  obtain ⟨rfl, hlen⟩ := new_eq_ok hv
  have h0 := Index.zero_notMem_of_inBounds hb
  have hmoving := inBounds_moving hlen hb
  -- With the idle axes cut down to one, all sizes fit, and the view is inside its data.
  have hw : new data (movingDims dims strides) strides offset
      = .ok ⟨data, movingDims dims strides, strides, offset⟩ :=
    new_of_new hv (by simp [movingDims, hlen]) (fun hmem => absurd hmem h0)
      (addressRange_eq_of_idle offset (forall₂_moving (fun _ => .inr rfl) 1 dims strides))
  have hin := ((new_eq_ok_iff hdata (fun _ => movingDims_le hfit) hoffset).mp hw).2
  obtain ⟨x, hx, hread⟩ := hin.read_eq hmoving
  refine ⟨x, Array.mem_of_getElem? hx, ?_⟩
  rw [← hread]
  refine read_eq_of_address (v := ⟨data, dims, strides, offset⟩) rfl hb hmoving (Eq.symm ?_)
  exact foldlM_eq_of_idle moveAlong_idle holds_of_moveAlong
    (forall₂_moving (fun _ => .inr rfl) 0 index strides) (Word.holds_asSigned offset)

theorem idle_origin (dims : Shape) (strides : List Int) :
    ∀ move ∈ (Index.origin dims).zip strides, IdleMove move := by
  intro move hmem
  exact .inl (List.eq_of_mem_replicate (List.of_mem_zip (a := move.1) (b := move.2) hmem).1)

/-- Along each axis there is an index that moves along that axis only. -/
theorem exists_index_along {n c : Nat} {stride : Int} (hc : c < n) :
    ∀ {dims : Shape} {strides : List Int}, 0 ∉ dims → (n, stride) ∈ dims.zip strides →
    ∃ index, InBounds index dims ∧ ∀ start, Word.Holds start →
      (index.zip strides).foldlM moveAlong start = moveAlong start (c, stride)
  | [], _, _, h => absurd h List.not_mem_nil
  | _ :: _, [], _, h => absurd h List.not_mem_nil
  | m :: dims, s :: strides, h0, h => by
    rw [List.mem_cons, not_or] at h0
    rcases List.mem_cons.mp h with h | h
    · cases h
      refine ⟨c :: Index.origin dims, ⟨hc, Index.inBounds_origin h0.2⟩, ?_⟩
      intro start hstart
      rw [List.zip_cons_cons, List.foldlM_cons]
      cases hnext : moveAlong start (c, stride) with
      | error fault => rfl
      | ok next =>
        have hidle := foldlM_idle_append moveAlong_idle
          (holds_of_moveAlong start _ next hstart hnext) [] (idle_origin dims strides)
        rw [List.append_nil] at hidle
        exact hidle
    · obtain ⟨index, hb, hmoves⟩ := exists_index_along hc h0.2 h
      refine ⟨0 :: index, ⟨Nat.pos_of_ne_zero (Ne.symm h0.1), hb⟩, ?_⟩
      intro start hstart
      rw [List.zip_cons_cons, List.foldlM_cons, moveAlong_idle start (0, s) hstart (.inl rfl)]
      exact hmoves start hstart

/-- A view that can be read everywhere does not move along an axis beyond a signed word. -/
theorem moving_le_of_read {v : View α} (hdata : v.data.size < Word.half) (h0 : 0 ∉ v.dims)
    (hread : ∀ index, InBounds index v.dims → ∃ x ∈ v.data, v.read index = .ok x) {n : Nat}
    {stride : Int} (haxis : (n, stride) ∈ v.dims.zip v.strides) (hmoves : stride ≠ 0) :
    n ≤ Word.half := by
  by_contra hlarge
  have hstart := Word.holds_asSigned v.offset
  -- At rest on all other axes, every component of this one gives an address inside the data.
  have hinside : ∀ c < n, ∃ place, moveAlong (Word.asSigned v.offset) (c, stride) = .ok place ∧
      0 ≤ place ∧ place < v.data.size := by
    intro c hc
    obtain ⟨index, hb, hmove⟩ := exists_index_along hc h0 haxis
    obtain ⟨x, _, hx⟩ := hread index hb
    obtain ⟨place, hplace, hget⟩ := read_eq_ok hx
    rw [address, hmove _ hstart] at hplace
    obtain ⟨hlt, _⟩ := Array.getElem?_eq_some_iff.mp hget
    exact ⟨place, hplace,
      (holds_of_moveAlong _ _ _ hstart hplace).bounds_of_asUnsigned_lt hdata hlt⟩
  -- Component zero puts the start inside the data. From there the last component that still fits
  -- a signed word leads outside, whichever way the stride goes.
  generalize Word.asSigned v.offset = start at hstart hinside
  obtain ⟨first, hfirst, hlow, hhigh⟩ := hinside 0 (by omega)
  obtain ⟨last, hlast, hlow', hhigh'⟩ := hinside (Word.half - 1) (by omega)
  rw [moveAlong_idle start (0, stride) hstart (.inl rfl)] at hfirst
  cases hfirst
  obtain ⟨distance, hdistance, hlast⟩ := bind_eq_ok_iff.mp hlast
  rw [Word.asSigned_of_lt (n := Word.half - 1) (by decide)] at hdistance
  obtain ⟨_, rfl⟩ := Word.signed_eq_ok_iff.mp hdistance
  obtain ⟨_, rfl⟩ := Word.signed_eq_ok_iff.mp hlast
  unfold Word.half at hdata hlow' hhigh'
  omega

/--
**Which accepted views stay inside their data.** For data that fits a signed word, an accepted view
reads an element of its data at every index in bounds exactly if it has no index at all, or if on
every axis that it moves along the last component fits a signed word. The check of the bounds takes
a last component beyond that for a negative number and lets some of these views pass, though none
of them can be read everywhere.
-/
theorem accepted_readable_iff {data : Array α} {dims : Shape} {strides : List Int} {offset : Nat}
    {v : View α} (hdata : data.size < Word.half) (hoffset : offset < Word.size)
    (hv : new data dims strides offset = .ok v) :
    (∀ index, InBounds index v.dims → ∃ x ∈ v.data, v.read index = .ok x) ↔
      0 ∈ dims ∨ ∀ axis ∈ dims.zip strides, axis.2 ≠ 0 → axis.1 ≤ Word.half := by
  obtain ⟨rfl, _⟩ := new_eq_ok hv
  constructor
  · intro hread
    by_cases h0 : 0 ∈ dims
    · exact .inl h0
    · exact .inr fun axis haxis hmoves => moving_le_of_read hdata h0 hread haxis hmoves
  · rintro (h0 | hfit) index hb
    · exact absurd h0 (Index.zero_notMem_of_inBounds hb)
    · exact read_of_moving_le hdata hoffset hv hfit hb

/-- One element, read at every place of an axis that is as long as can be. -/
theorem accepted_readable_constant :
    ∃ v, new #[7] [0xffffffffffffffff] [0] 0 = .ok v ∧
      ∀ index, InBounds index v.dims → ∃ x ∈ v.data, v.read index = .ok x := by
  have hv : new #[7] [0xffffffffffffffff] [0] 0 = .ok ⟨#[7], [0xffffffffffffffff], [0], 0⟩ := rfl
  refine ⟨_, hv, (accepted_readable_iff (by decide) (by decide) hv).mpr (.inr ?_)⟩
  intro axis haxis hmoves
  cases List.mem_singleton.mp haxis
  exact absurd rfl hmoves

/-- With stride one, the same axis passes the check, though its first element lies outside. -/
theorem accepted_outside_data :
    ∃ v, new #[7] [0xffffffffffffffff] [1] 2 = .ok v ∧ InBounds [0] v.dims ∧
      v.read [0] = .error .outOfBounds :=
  ⟨_, rfl, by decide, rfl⟩

end View

end Broadcast
