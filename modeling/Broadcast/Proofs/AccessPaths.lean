import Mathlib.Algebra.BigOperators.Group.Finset.Basic
import Mathlib.Data.Set.Function
import Broadcast.Proofs.Contiguity

/-!
# Ways to the same element

Data in row-major order can be read as a dense array, through the view of that array, and through a
contiguous view of the data. The array multiplies and adds from the first axis on, in unsigned
words. The views sum up the components times strides, in signed words, and the strides are products
that were taken from the last axis on.

All of them arrive at the place of the index. The strides are packed (`packed_of_stridesBelow`), so
the sum is the place, and every number on the way is at most the number of elements.
-/

namespace Broadcast

namespace Index

/-- The place of an index adds up its components times the sizes of the axes behind them. -/
theorem ordinal_eq_sum : ∀ {index : Index} {s : Shape}, index.length = s.length →
    ordinal index s = ∑ k ∈ Finset.range s.length, index.getD k 0 * (s.drop (k + 1)).prod
  | [], [], _ => by simp [ordinal]
  | i :: index, n :: s, h => by
    rw [ordinal, List.length_cons, Finset.sum_range_succ', ordinal_eq_sum (Nat.succ.inj h),
      Nat.add_comm]
    simp only [List.getD_cons_succ, List.getD_cons_zero, List.drop_succ_cons, List.drop_zero]

/-- The places of the indices of a shape are the numbers below the product of the sizes. -/
theorem bijOn_ordinal (s : Shape) :
    Set.BijOn (ordinal · s) {index | InBounds index s} {place | place < s.prod} := by
  refine ⟨fun _ hb => ordinal_lt hb, ?_, ?_⟩
  · intro index hb index' hb' heq
    exact eq_of_ordinal_eq hb hb' heq
  · intro place hlt
    obtain ⟨index, _, hb, ho⟩ := unravel_eq_ok hlt
    exact ⟨index, hb, ho⟩

end Index

namespace View

open Index (InBounds ordinal)

variable {α : Type} {data : Array α} {dims : Shape} {strides : List Int}

/-! ## Row-major strides -/

/-- The strides that are computed without an empty axis are packed. -/
theorem packed_of_stridesBelow : ∀ {dims : Shape} {product : Int} {strides : List Int},
    0 ∉ dims → (∀ n ∈ dims, n < Word.half) → stridesBelow dims = .ok (product, strides) →
    strides.length = dims.length ∧ Packed dims strides
  | [], product, strides, _, _, h => by
    cases h
    exact ⟨rfl, trivial⟩
  | n :: dims, product, strides, h0, hsizes, h => by
    rw [List.mem_cons, not_or] at h0
    rw [List.forall_mem_cons] at hsizes
    obtain ⟨⟨below, rest⟩, hbelow, h⟩ := bind_eq_ok_iff.mp h
    obtain ⟨_, _, h⟩ := bind_eq_ok_iff.mp h
    cases h
    obtain ⟨hlen, hrest⟩ := packed_of_stridesBelow h0.2 hsizes.2 hbelow
    have hstride : below = dims.prod := by
      rw [(nonzeroProd_lt_of_stridesBelow hsizes.2 hbelow).1,
        Shape.nonzeroProd_of_zero_notMem h0.2]
    exact ⟨congrArg Nat.succ hlen, fun _ => hstride, hrest⟩

/-- Strides can be computed for as many elements as a signed word can count. -/
theorem rowMajorStrides_eq_ok (h0 : 0 ∉ dims) (hlt : dims.prod < Word.half) :
    ∃ strides, rowMajorStrides dims = .ok strides ∧ strides.length = dims.length ∧
      Packed dims strides := by
  have htame : Shape.Tame dims := .inl (by rwa [Shape.nonzeroProd_of_zero_notMem h0])
  obtain ⟨strides, hstrides⟩ := stridesBelow_eq_ok htame.signedProducts
  refine ⟨strides, ?_, packed_of_stridesBelow h0 (fun _ => Shape.lt_of_prod_lt h0 hlt) hstrides⟩
  rw [rowMajorStrides, hstrides]
  rfl

/-- Packed axes over all of the data reach every element and no further. -/
theorem Packed.inside (hpacked : Packed dims strides) (hlen : strides.length = dims.length)
    (h0 : 0 ∉ dims) (hprod : dims.prod = data.size) (hlt : data.size < Word.half) :
    Inside ⟨data, dims, strides, 0⟩ := by
  have hdims : ∀ n ∈ dims, n ≤ Word.half := fun n hn =>
    Nat.le_of_lt (Shape.lt_of_prod_lt h0 (hprod ▸ hlt) hn)
  refine (inside_iff hlen hlt hdims).mpr ?_
  intro index hb
  have hplace : ordinal index dims < dims.prod := Index.ordinal_lt hb
  rw [hpacked.displacement_eq hlen hb]
  show 0 ≤ ((0 : Nat) : Int) + (ordinal index dims : Nat) ∧
    ((0 : Nat) : Int) + (ordinal index dims : Nat) < data.size
  omega

/-- The row-major view of all of the data is accepted, and is the view with packed strides. -/
theorem contiguous_eq_ok (hcount : dims.numel = .ok data.size)
    (hstrides : rowMajorStrides dims = .ok strides) (hinside : Inside ⟨data, dims, strides, 0⟩) :
    contiguous data dims = .ok ⟨data, dims, strides, 0⟩ := by
  have hnew : new data dims strides 0 = .ok ⟨data, dims, strides, 0⟩ :=
    (new_eq_ok_iff hinside.size_lt hinside.dims_le (by decide)).mpr ⟨rfl, hinside⟩
  rw [contiguous, hcount, hstrides]
  show (if data.size ≠ data.size then _ else new data dims strides 0) = _
  rw [if_neg (fun hne => hne rfl), hnew]

end View

/-! ## The three ways -/

open Index (InBounds ordinal)

variable {α : Type}

theorem Dense.ofArray_eq_ok {data : Array α} {dims : Shape} (hcount : dims.numel = .ok data.size) :
    ofArray data dims = .ok ⟨dims, data⟩ := by
  rw [ofArray, hcount]
  show (if data.size ≠ data.size then _ else _) = _
  rw [if_neg (fun hne => hne rfl)]

/--
**All ways to an element lead to the same place.** Let some data, not empty and countable in a
signed word, have as many elements as a shape. Then the dense array, its view and the contiguous
view of the data can all be made. At every index in bounds each of them reads the element at the
place of the index: the sum of the components, each times the sizes of all later axes. The places
are in bijection with the indices, so every element is reached, and by one index only.
-/
theorem access_paths_agree {data : Array α} {dims : Shape} (hprod : dims.prod = data.size)
    (hpos : 0 < data.size) (hlt : data.size < Word.half) :
    ∃ (a : Dense α) (v w : View α), Dense.ofArray data dims = .ok a ∧ a.view = .ok v ∧
      View.contiguous data dims = .ok w ∧
      (∀ index, InBounds index dims →
        ordinal index dims
          = ∑ k ∈ Finset.range dims.length, index.getD k 0 * (dims.drop (k + 1)).prod ∧
        ∃ x, data[ordinal index dims]? = some x ∧ a.read index = .ok x ∧ v.read index = .ok x ∧
          w.read index = .ok x) ∧
      Set.BijOn (ordinal · dims) {index | InBounds index dims} {place | place < data.size} := by
  have h0 : 0 ∉ dims := Index.zero_notMem_of_lt_prod (hprod ▸ hpos)
  have hword : data.size < Word.size := Nat.lt_trans hlt (by decide)
  have hcount : dims.numel = .ok data.size := by
    rw [Shape.numel_of_zero_notMem h0 (hprod ▸ hword), hprod]
  obtain ⟨strides, hstrides, hlen, hpacked⟩ :=
    View.rowMajorStrides_eq_ok h0 (show dims.prod < Word.half by rwa [hprod])
  have hinside := hpacked.inside hlen h0 hprod hlt
  have hview : Dense.view ⟨dims, data⟩ = .ok ⟨data, dims, strides, 0⟩ := by
    rw [Dense.view, hstrides]
    rfl
  have hfull : Dense.Full ⟨dims, data⟩ := ⟨hprod.symm, hword⟩
  refine ⟨_, _, _, Dense.ofArray_eq_ok hcount, hview,
    View.contiguous_eq_ok hcount hstrides hinside, ?_, hprod ▸ Index.bijOn_ordinal dims⟩
  intro index hb
  refine ⟨Index.ordinal_eq_sum (Index.length_of_inBounds hb), ?_⟩
  obtain ⟨x, hx, hread⟩ := hfull.read_eq hb
  obtain ⟨y, hy, hread'⟩ := hinside.read_of_packed hpacked hb
  rw [Nat.zero_add] at hy
  obtain rfl : x = y := Option.some.inj (hx.symm.trans hy)
  exact ⟨x, hx, hread, hread', hread'⟩

/-- The last element of two rows of three, with an axis of size one between the two axes. -/
theorem access_paths_agree_rows :
    ∃ (a : Dense Nat) (v w : View Nat),
      Dense.ofArray #[10, 20, 30, 40, 50, 60] [2, 1, 3] = .ok a ∧ a.view = .ok v ∧
      View.contiguous #[10, 20, 30, 40, 50, 60] [2, 1, 3] = .ok w ∧
      a.read [1, 0, 2] = .ok 60 ∧ v.read [1, 0, 2] = .ok 60 ∧ w.read [1, 0, 2] = .ok 60 := by
  have hprod : List.prod [2, 1, 3] = #[10, 20, 30, 40, 50, 60].size := rfl
  obtain ⟨a, v, w, ha, hv, hw, hreads, _⟩ := access_paths_agree hprod (by decide) (by decide)
  obtain ⟨_, x, hx, hreads⟩ := hreads [1, 0, 2] (by decide)
  obtain rfl : 60 = x := Option.some.inj hx
  exact ⟨a, v, w, ha, hv, hw, hreads⟩

end Broadcast
