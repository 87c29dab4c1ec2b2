import Broadcast.Proofs.EmptyShapes
import Broadcast.Proofs.Evaluators

/-!
# Contiguous views

A view is contiguous if its elements lie one after another in row-major order, from its offset on.
Whether it is can be read off its strides (`Packed`): an axis with more than one component must move
over all the elements of the axes behind it, and the stride of an axis of size one does not matter.

The check goes through the axes from the last to the first and multiplies the sizes as long as the
strides are right, once more than it needs. These products stay inside the word because they are
counts of elements: as far as the axes are packed, the product of their sizes is one more than the
farthest they reach (`Packed.reach_eq`), and a view reaches no further than its data.
-/

namespace Broadcast

theorem Shape.nonzeroProd_of_zero_notMem {s : Shape} (h0 : 0 ∉ s) : nonzeroProd s = s.prod := by
  have hself : s.filter (· ≠ 0) = s :=
    List.filter_eq_self.mpr fun n hn => decide_eq_true (ne_of_mem_of_not_mem hn h0)
  rw [nonzeroProd, hself]

theorem Shape.lt_of_prod_lt {s : Shape} (h0 : 0 ∉ s) {bound : Nat} (hlt : s.prod < bound) {n : Nat}
    (hn : n ∈ s) : n < bound :=
  Nat.lt_of_le_of_lt (Nat.le_of_dvd (Index.prod_pos_of_zero_notMem h0) (List.dvd_prod hn)) hlt

/-- The elements of a shape without empty axes can be counted if their number fits a word. -/
theorem Shape.numel_of_zero_notMem {s : Shape} (h0 : 0 ∉ s) (hlt : s.prod < Word.size) :
    s.numel = .ok s.prod := by
  rw [numel, foldlM_unsigned_mul_eq_ok (by rwa [nonzeroProd_of_zero_notMem h0, Nat.one_mul]),
    Nat.one_mul]

namespace View

open Index (InBounds ordinal origin)

variable {α : Type}

/-! ## Packed axes -/

/-- Strides by which the elements of a shape lie one after another in row-major order. -/
def Packed : Shape → List Int → Prop
  | n :: dims, stride :: strides => (1 < n → stride = dims.prod) ∧ Packed dims strides
  | _, _ => True

@[simp] theorem displacement_origin : ∀ (dims : Shape) (strides : List Int),
    displacement (origin dims) strides = 0
  | [], strides => by simp [origin]
  | _ :: _, [] => by simp [displacement]
  | n :: dims, stride :: strides => by
    rw [Index.origin_cons, displacement_cons, displacement_origin dims strides]
    simp

/-- Packed axes move every index to its place. -/
theorem Packed.displacement_eq : ∀ {dims : Shape} {strides : List Int} {index : Index},
    Packed dims strides → strides.length = dims.length → InBounds index dims →
    displacement index strides = ordinal index dims
  | [], [], [], _, _, _ => by simp [ordinal]
  | n :: dims, stride :: strides, i :: index, h, hlen, hb => by
    have ih := h.2.displacement_eq (Nat.succ.inj hlen) hb.2
    have hmove : (i : Int) * stride = i * dims.prod := by
      by_cases hn : 1 < n
      · rw [h.1 hn]
      · obtain rfl : i = 0 := by
          have hi := hb.1
          omega
        simp
    rw [displacement_cons, ordinal, ih, hmove]
    push_cast
    rfl

/-- The first index along an axis shows its stride. -/
theorem packed_of_displacement_eq : ∀ {dims : Shape} {strides : List Int}, 0 ∉ dims →
    (∀ index, InBounds index dims → displacement index strides = ordinal index dims) →
    Packed dims strides
  | [], _, _, _ => trivial
  | _ :: _, [], _, _ => trivial
  | n :: dims, stride :: strides, h0, h => by
    rw [List.mem_cons, not_or] at h0
    refine ⟨?_, packed_of_displacement_eq h0.2 ?_⟩
    · intro hn
      have hone := h (1 :: origin dims) ⟨hn, Index.inBounds_origin h0.2⟩
      simpa [ordinal] using hone
    · intro index hb
      have hzero := h (0 :: index) ⟨Nat.pos_of_ne_zero (Ne.symm h0.1), hb⟩
      simpa [ordinal] using hzero

/-- Packed axes reach as far as there are elements. -/
theorem Packed.reach_eq : ∀ {dims : Shape} {strides : List Int}, Packed dims strides →
    strides.length = dims.length → 0 ∉ dims →
    reach max (dims.zip strides) + 1 = dims.prod
  | [], [], _, _, _ => by simp
  | n :: dims, stride :: strides, h, hlen, h0 => by
    rw [List.mem_cons, not_or] at h0
    have ih := h.2.reach_eq (Nat.succ.inj hlen) h0.2
    obtain ⟨last, rfl⟩ := Nat.exists_eq_add_one_of_ne_zero (Ne.symm h0.1)
    have hmove : max 0 (stride * (last + 1 - 1 : Nat)) = last * (dims.prod : Int) := by
      rw [Nat.add_sub_cancel]
      by_cases hlast : last = 0
      · simp [hlast]
      · rw [h.1 (by omega), Int.mul_comm, Int.max_eq_right]
        exact Int.mul_nonneg (Int.natCast_nonneg _) (Int.natCast_nonneg _)
    rw [List.zip_cons_cons, reach_cons, hmove, Int.add_assoc, ih, List.prod_cons, Nat.succ_mul]
    push_cast
    rfl

/-! ## The check -/

theorem asSigned_one : Word.asSigned 1 = 1 :=
  Word.asSigned_of_lt (by decide)

/-- After some axes that are in order, the check goes on with their sizes multiplied. -/
theorem followsFrom_append (more : List (Nat × Int)) : ∀ {axes : List (Nat × Int)}
    (expected : Int), (∀ axis ∈ axes, 0 < axis.1) →
    followsFrom expected (axes ++ more) = (followsFrom expected axes >>= fun inOrder =>
      if inOrder then followsFrom (expected * (axes.map fun axis => Word.asSigned axis.1).prod) more
      else .ok false)
  | [], expected, _ => by simp [followsFrom, bind, Except.bind]
  | (n, stride) :: axes, expected, hpos => by
    rw [List.forall_mem_cons] at hpos
    rw [List.cons_append, followsFrom, followsFrom, List.map_cons, List.prod_cons, ← Int.mul_assoc]
    by_cases hn : n ≤ 1
    · obtain rfl : n = 1 := by
        have hn0 := hpos.1
        omega
      rw [if_pos hn, if_pos hn, asSigned_one, Int.mul_one, followsFrom_append more expected hpos.2]
    · rw [if_neg hn, if_neg hn]
      by_cases hstride : stride ≠ expected
      · rw [if_pos hstride, if_pos hstride]
        rfl
      · rw [if_neg hstride, if_neg hstride, bind_assoc]
        cases hnext : Word.signed (expected * Word.asSigned n) with
        | error fault => rfl
        | ok next =>
          obtain ⟨_, rfl⟩ := Word.signed_eq_ok_iff.mp hnext
          exact followsFrom_append more _ hpos.2

/-- The product the check arrives at behind some axes is the number of their elements. -/
theorem prod_map_asSigned_reverse : ∀ {dims : Shape} {strides : List Int},
    strides.length = dims.length → (∀ n ∈ dims, n < Word.half) →
    ((dims.zip strides).reverse.map fun axis => Word.asSigned axis.1).prod = dims.prod
  | [], [], _, _ => rfl
  | n :: dims, stride :: strides, hlen, hlt => by
    rw [List.forall_mem_cons] at hlt
    rw [List.zip_cons_cons, List.reverse_cons, List.map_append, List.prod_append,
      prod_map_asSigned_reverse (Nat.succ.inj hlen) hlt.2, List.prod_cons, List.map_singleton,
      List.prod_singleton, Word.asSigned_of_lt hlt.1, Nat.mul_comm, Nat.cast_mul]

/-- The check of an axis behind which all axes are packed. -/
theorem followsFrom_of_packed {n : Nat} {stride : Int} {dims : Shape} {strides : List Int}
    (hrest : Packed dims strides) (hlen : strides.length = dims.length) (h0 : 0 ∉ n :: dims)
    (hreach : reach max ((n, stride) :: dims.zip strides) + 1 < Word.half) :
    ∃ answer, followsFrom dims.prod [(n, stride)] = .ok answer ∧
      (answer = true ↔ Packed (n :: dims) (stride :: strides)) := by
  rw [followsFrom]
  by_cases hn : n ≤ 1
  · rw [if_pos hn]
    exact ⟨true, rfl, iff_of_true rfl ⟨fun h => by omega, hrest⟩⟩
  rw [if_neg hn]
  by_cases hstride : stride = dims.prod
  · -- The product that is taken here is the number of all elements.
    have hall : Packed (n :: dims) (stride :: strides) := ⟨fun _ => hstride, hrest⟩
    have hcount : reach max ((n, stride) :: dims.zip strides) + 1 = (n :: dims : Shape).prod :=
      hall.reach_eq (congrArg Nat.succ hlen) h0
    have hlt : (n :: dims : Shape).prod < Word.half := by omega
    have hproduct : (dims.prod : Int) * Word.asSigned n = (n :: dims : Shape).prod := by
      rw [Word.asSigned_of_lt (Shape.lt_of_prod_lt h0 hlt List.mem_cons_self), List.prod_cons,
        Nat.mul_comm, Nat.cast_mul]
    have hword : Word.signed ((dims.prod : Int) * Word.asSigned n)
        = .ok ((n :: dims : Shape).prod : Int) :=
      Word.signed_eq_ok_iff.mpr ⟨by omega, hproduct⟩
    rw [if_neg (fun hne => hne hstride), hword]
    exact ⟨true, rfl, iff_of_true rfl hall⟩
  · rw [if_pos hstride]
    exact ⟨false, rfl, iff_of_false Bool.false_ne_true fun h => hstride (h.1 (by omega))⟩

/--
The check answers whether the axes are packed, without leaving the word.

The induction is on the axes from the first on, so the first axis is the one that is checked last:
all others are packed by then, or the check is over.
-/
theorem followsFrom_reverse : ∀ {dims : Shape} {strides : List Int},
    strides.length = dims.length → 0 ∉ dims → reach max (dims.zip strides) + 1 < Word.half →
    ∃ answer, followsFrom 1 (dims.zip strides).reverse = .ok answer ∧
      (answer = true ↔ Packed dims strides)
  | [], [], _, _, _ => ⟨true, rfl, iff_of_true rfl trivial⟩
  | n :: dims, stride :: strides, hlen, h0, hreach => by
    have hlen' : strides.length = dims.length := Nat.succ.inj hlen
    have htail0 : 0 ∉ dims := fun hmem => h0 (List.mem_cons_of_mem n hmem)
    rw [List.zip_cons_cons] at hreach
    have htail : reach max (dims.zip strides) + 1 < Word.half := by
      rw [reach_cons] at hreach
      omega
    obtain ⟨answer, hanswer, hpacked⟩ := followsFrom_reverse hlen' htail0 htail
    have hsizes : ∀ axis ∈ (dims.zip strides).reverse, 0 < axis.1 := by
      intro axis hmem
      have hn : axis.1 ∈ dims := (List.of_mem_zip (a := axis.1) (b := axis.2)
        (List.mem_reverse.mp hmem)).1
      exact Nat.pos_of_ne_zero (ne_of_mem_of_not_mem hn htail0)
    rw [List.zip_cons_cons, List.reverse_cons, followsFrom_append _ _ hsizes, hanswer]
    cases answer with
    | false => exact ⟨false, rfl, iff_of_false Bool.false_ne_true fun h => by simp [h.2] at hpacked⟩
    | true =>
      have hrest := hpacked.mp rfl
      have hcount := hrest.reach_eq hlen' htail0
      have hbelow : ∀ k ∈ dims, k < Word.half := fun k hk =>
        Shape.lt_of_prod_lt htail0 (by omega) hk
      show ∃ answer, followsFrom (1 * _) [(n, stride)] = .ok answer ∧ _
      rw [prod_map_asSigned_reverse hlen' hbelow, Int.one_mul]
      exact followsFrom_of_packed hrest hlen' h0 hreach

namespace Inside

variable {v : View α}

theorem isContiguous_eq (h : Inside v) (h0 : 0 ∉ v.dims) :
    ∃ answer, v.isContiguous = .ok answer ∧ (answer = true ↔ Packed v.dims v.strides) := by
  have hhigh := h.high h0
  have hsize := h.size_lt
  exact followsFrom_reverse h.length_eq h0 (by omega)

/-- The axes are packed exactly if every index lies at its place behind the offset. -/
theorem packed_iff (h : Inside v) (h0 : 0 ∉ v.dims) : Packed v.dims v.strides ↔
    ∀ index, InBounds index v.dims → v.address index = .ok (v.offset + ordinal index v.dims) := by
  constructor
  · intro hpacked index hb
    rw [h.address_eq hb, hpacked.displacement_eq h.length_eq hb]
  · intro hplaces
    refine packed_of_displacement_eq h0 fun index hb => ?_
    have haddress := Except.ok.inj ((h.address_eq hb).symm.trans (hplaces index hb))
    omega

/-- A packed view reads an index at its place behind the offset. -/
theorem read_of_packed (h : Inside v) (hpacked : Packed v.dims v.strides) {index : Index}
    (hb : InBounds index v.dims) :
    ∃ x, v.data[v.offset + ordinal index v.dims]? = some x ∧ v.read index = .ok x := by
  obtain ⟨x, hx, hread⟩ := h.read_eq hb
  rw [hpacked.displacement_eq h.length_eq hb] at hx
  exact ⟨x, hx, hread⟩

/-- The elements of a packed view are a stretch of its data. -/
theorem tabulates_of_packed (h : Inside v) (h0 : 0 ∉ v.dims) (hpacked : Packed v.dims v.strides) :
    v.offset + v.dims.prod ≤ v.data.size ∧
      Index.Tabulates v.dims v.read (v.data.extract v.offset (v.offset + v.dims.prod)) := by
  have hcount := hpacked.reach_eq h.length_eq h0
  have hhigh := h.high h0
  have hle : v.offset + v.dims.prod ≤ v.data.size := by omega
  refine ⟨hle, .of_places ?_ ?_⟩
  · rw [Array.size_extract]
    omega
  · intro index hb
    obtain ⟨x, hx, hread⟩ := h.read_of_packed hpacked hb
    have hlt := Index.ordinal_lt hb
    refine ⟨x, ?_, hread⟩
    rw [Array.getElem?_extract, if_pos (by omega)]
    exact hx

end Inside

/--
**The check for contiguity is exact.** Let a view without empty axes be accepted, of data and sizes
that fit a signed word. Then the check answers without leaving the word, and the answer is yes
exactly if the address of every index in bounds is the offset plus the place of the index in
row-major order. In that case evaluating the view gives the stretch of the data from the offset on
that has as many elements as the view.
-/
theorem isContiguous_exact {data : Array α} {dims : Shape} {strides : List Int} {offset : Nat}
    {v : View α} (hv : new data dims strides offset = .ok v) (hdata : data.size < Word.half)
    (hoffset : offset < Word.size) (h0 : 0 ∉ dims) (hdims : ∀ n ∈ dims, n ≤ Word.half) :
    ∃ answer, v.isContiguous = .ok answer ∧
      (answer = true ↔ ∀ index, InBounds index dims →
        v.address index = .ok (offset + ordinal index dims)) ∧
      (answer = true → ∃ count, dims.numel = .ok count ∧ offset + count ≤ data.size ∧
        ∀ d : DType, (v.toOperand d).materialize
          = .ok ⟨dims, data.extract offset (offset + count)⟩) := by
  obtain ⟨rfl, hinside⟩ := (new_eq_ok_iff hdata (fun _ => hdims) hoffset).mp hv
  obtain ⟨answer, hanswer, hpacked⟩ := hinside.isContiguous_eq h0
  refine ⟨answer, hanswer, hpacked.trans (hinside.packed_iff h0), ?_⟩
  intro hyes
  obtain ⟨hle, htable⟩ := hinside.tabulates_of_packed h0 (hpacked.mp hyes)
  have hhalf : Word.half < Word.size := by decide
  have hcount : dims.numel = .ok dims.prod :=
    Shape.numel_of_zero_notMem h0 (show dims.prod < Word.size by
      have hle : offset + dims.prod ≤ data.size := hle
      omega)
  exact ⟨dims.prod, hcount, hle, fun d => Operand.materialize_eq htable hcount⟩

/-- Two rows of three from the fifth element on; the axis of size one may have any stride. -/
def innerRows : View Nat :=
  ⟨(List.range 12).toArray, [2, 1, 3], [3, -5, 1], 4⟩

theorem isContiguous_exact_innerRows : innerRows.isContiguous = .ok true ∧
    innerRows.address [1, 0, 2] = .ok 9 ∧
    (innerRows.toOperand (.uint .w8)).materialize = .ok ⟨[2, 1, 3], #[4, 5, 6, 7, 8, 9]⟩ := by
  have hv : new (List.range 12).toArray [2, 1, 3] [3, -5, 1] 4 = .ok innerRows := rfl
  obtain ⟨answer, hanswer, hplaces, hstretch⟩ :=
    isContiguous_exact hv (by decide) (by decide) (by decide) (by decide)
  have hyes : answer = true := Except.ok.inj (hanswer.symm.trans rfl)
  obtain ⟨count, hcount, _, hdata⟩ := hstretch hyes
  cases hcount
  exact ⟨hyes ▸ hanswer, hplaces.mp hyes [1, 0, 2] (by decide), hdata (.uint .w8)⟩

end View

end Broadcast
