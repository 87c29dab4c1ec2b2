import Mathlib.Algebra.BigOperators.Group.List.Basic
import Mathlib.Algebra.Order.Ring.Int
import Broadcast.View
import Broadcast.Proofs.RowMajor

/-!
# Addresses of strided views

The exact address of an index is the offset of the view plus the `displacement` of the index. Over
all indices in bounds the displacement lies between two bounds, each a sum over the axes, and both
are attained at a corner. So a view stays inside its data exactly if its two extreme addresses do.

* `new_eq_ok_iff` — a view is accepted exactly if it is `Inside` its data
* `Inside.read_eq` — such a view reads the element at the exact address
* `accepted_iff_addresses_inside` — both together, in terms of the addresses of all indices

Every partial sum of an address is itself the address of an index in bounds (the later components
being zero), which is why no step on the way leaves the word.
-/

namespace Broadcast.View

open Index (InBounds)

variable {α : Type}

/-! ## Displacements -/

/-- How far an index lies from the offset: the sum of its components times their strides. -/
def displacement (index : Index) (strides : List Int) : Int :=
  (index.zipWith (fun i stride => (i : Int) * stride) strides).sum

@[simp] theorem displacement_nil (strides : List Int) : displacement [] strides = 0 := by
  simp [displacement]

@[simp] theorem displacement_cons (i : Nat) (index : Index) (stride : Int) (strides : List Int) :
    displacement (i :: index) (stride :: strides) = i * stride + displacement index strides := by
  simp [displacement]

/--
The sum over all axes of the farthest displacement along each, where `farther` chooses between
staying at zero and going to the last component: `min` for the lowest, `max` for the highest.
-/
def reach (farther : Int → Int → Int) (axes : List (Nat × Int)) : Int :=
  (axes.map fun axis => farther 0 (axis.2 * (axis.1 - 1 : Nat))).sum

@[simp] theorem reach_nil (farther : Int → Int → Int) : reach farther [] = 0 := rfl

@[simp] theorem reach_cons (farther : Int → Int → Int) (n : Nat) (stride : Int)
    (axes : List (Nat × Int)) :
    reach farther ((n, stride) :: axes)
      = farther 0 (stride * (n - 1 : Nat)) + reach farther axes := by
  simp [reach]

theorem reach_min_nonpos : ∀ axes : List (Nat × Int), reach min axes ≤ 0
  | [] => by simp
  | (n, stride) :: axes => by
    have ih := reach_min_nonpos axes
    rw [reach_cons]
    omega

theorem reach_max_nonneg : ∀ axes : List (Nat × Int), 0 ≤ reach max axes
  | [] => by simp
  | (n, stride) :: axes => by
    have ih := reach_max_nonneg axes
    rw [reach_cons]
    omega

/-- Along one axis, a component in bounds moves between the two ends. -/
theorem move_bounds {i n : Nat} (hi : i < n) (stride : Int) :
    min 0 (stride * (n - 1 : Nat)) ≤ i * stride ∧ i * stride ≤ max 0 (stride * (n - 1 : Nat)) := by
  have hle : (i : Int) ≤ (n - 1 : Nat) := by omega
  have hi0 : (0 : Int) ≤ i := by omega
  rw [Int.mul_comm stride]
  rcases Int.le_total 0 stride with hs | hs
  · have hlow := Int.mul_nonneg hi0 hs
    have hhigh := Int.mul_le_mul_of_nonneg_right hle hs
    omega
  · have hhigh := Int.mul_nonpos_of_nonneg_of_nonpos hi0 hs
    have hlow := Int.mul_le_mul_of_nonpos_right hle hs
    omega

theorem displacement_bounds : ∀ {index : Index} {dims : Shape} {strides : List Int},
    strides.length = dims.length → InBounds index dims →
    reach min (dims.zip strides) ≤ displacement index strides ∧
      displacement index strides ≤ reach max (dims.zip strides)
  | [], [], [], _, _ => by simp
  | i :: index, n :: dims, stride :: strides, hlen, hb => by
    have hmove := move_bounds hb.1 stride
    have ih := displacement_bounds (Nat.succ.inj hlen) hb.2
    rw [List.zip_cons_cons, reach_cons, reach_cons, displacement_cons]
    omega

/-- Each of the two bounds is the displacement of a corner. -/
theorem exists_displacement_eq_reach {farther : Int → Int → Int}
    (hf : ∀ z, farther 0 z = 0 ∨ farther 0 z = z) : ∀ {dims : Shape} {strides : List Int},
    strides.length = dims.length → 0 ∉ dims →
    ∃ index, InBounds index dims ∧ displacement index strides = reach farther (dims.zip strides)
  | [], [], _, _ => ⟨[], trivial, by simp⟩
  | n :: dims, stride :: strides, hlen, h0 => by
    rw [List.mem_cons, not_or] at h0
    obtain ⟨index, hb, hd⟩ := exists_displacement_eq_reach hf (Nat.succ.inj hlen) h0.2
    have hpos : 0 < n := Nat.pos_of_ne_zero (Ne.symm h0.1)
    rcases hf (stride * (n - 1 : Nat)) with hend | hend
    · refine ⟨0 :: index, ⟨hpos, hb⟩, ?_⟩
      rw [List.zip_cons_cons, reach_cons, displacement_cons, hend, hd]
      simp
    · refine ⟨(n - 1) :: index, ⟨by omega, hb⟩, ?_⟩
      rw [List.zip_cons_cons, reach_cons, displacement_cons, hend, hd, Int.mul_comm]

/-! ## The range of addresses -/

/-- The axes of a view without empty axes whose sizes read the same as signed words. -/
def Signed (axes : List (Nat × Int)) : Prop :=
  ∀ axis ∈ axes, 0 < axis.1 ∧ axis.1 ≤ Word.half

theorem signed_zip {dims : Shape} (strides : List Int) (h0 : 0 ∉ dims)
    (hdims : ∀ n ∈ dims, n ≤ Word.half) : Signed (dims.zip strides) := by
  intro axis hmem
  have hn : axis.1 ∈ dims := (List.of_mem_zip (a := axis.1) (b := axis.2) hmem).1
  refine ⟨Nat.pos_of_ne_zero ?_, hdims _ hn⟩
  intro hzero
  exact h0 (hzero ▸ hn)

theorem asSigned_pred {n : Nat} (hpos : 0 < n) (hle : n ≤ Word.half) :
    Word.asSigned (n - 1) = (n - 1 : Nat) :=
  Word.asSigned_of_lt (by omega)

/-- A step that succeeds moves both ends exactly. -/
theorem extendRange_eq_ok {low high low' high' : Int} {n : Nat} {stride : Int} (hpos : 0 < n)
    (hle : n ≤ Word.half) (h : extendRange (low, high) (n, stride) = .ok (low', high')) :
    low' = low + min 0 (stride * (n - 1 : Nat)) ∧ high' = high + max 0 (stride * (n - 1 : Nat)) ∧
      (high < Word.half → high' < Word.half) := by
  have hlast : (0 : Int) ≤ (n - 1 : Nat) := by omega
  obtain ⟨move, hmove, h⟩ := bind_eq_ok_iff.mp h
  rw [asSigned_pred hpos hle] at hmove
  obtain ⟨_, rfl⟩ := Word.signed_eq_ok_iff.mp hmove
  split at h
  · next hs =>
    obtain ⟨top, htop, h⟩ := bind_eq_ok_iff.mp h
    obtain ⟨hword, rfl⟩ := Word.signed_eq_ok_iff.mp htop
    cases h
    have hup := Int.mul_nonneg hs hlast
    rw [Int.min_eq_left hup, Int.max_eq_right hup, Int.add_zero]
    exact ⟨rfl, rfl, fun _ => hword.2⟩
  · next hs =>
    obtain ⟨bottom, hbottom, h⟩ := bind_eq_ok_iff.mp h
    obtain ⟨_, rfl⟩ := Word.signed_eq_ok_iff.mp hbottom
    cases h
    have hdown := Int.mul_nonpos_of_nonpos_of_nonneg (Int.le_of_lt (Int.not_le.mp hs)) hlast
    rw [Int.min_eq_right hdown, Int.max_eq_left hdown, Int.add_zero]
    exact ⟨rfl, rfl, id⟩

/-- A range that is computed is exact, and its upper end fits a signed word. -/
theorem foldlM_extendRange_eq_ok : ∀ {axes : List (Nat × Int)} {low high low' high' : Int},
    Signed axes → axes.foldlM extendRange (low, high) = .ok (low', high') →
    low' = low + reach min axes ∧ high' = high + reach max axes ∧
      (high < Word.half → high' < Word.half)
  | [], low, high, low', high', _, h => by
    cases h
    exact ⟨by simp, by simp, id⟩
  | (n, stride) :: axes, low, high, low', high', hsigned, h => by
    rw [List.foldlM_cons] at h
    obtain ⟨⟨bottom, top⟩, hnext, h⟩ := bind_eq_ok_iff.mp h
    obtain ⟨hpos, hle⟩ : 0 < n ∧ n ≤ Word.half := hsigned (n, stride) List.mem_cons_self
    obtain ⟨rfl, rfl, hstep⟩ := extendRange_eq_ok hpos hle hnext
    obtain ⟨rfl, rfl, hrest⟩ :=
      foldlM_extendRange_eq_ok (fun a ha => hsigned a (List.mem_cons_of_mem _ ha)) h
    rw [reach_cons, reach_cons, Int.add_assoc, Int.add_assoc]
    exact ⟨rfl, rfl, fun hs => by rw [← Int.add_assoc]; exact hrest (hstep hs)⟩

/-- A step whose exact ends fit does not leave the word. -/
theorem extendRange_ok {low high : Int} {n : Nat} {stride : Int} (hpos : 0 < n)
    (hle : n ≤ Word.half) (hlow : low < Word.half)
    (hlow0 : 0 ≤ low + min 0 (stride * (n - 1 : Nat))) (hhigh0 : 0 ≤ high)
    (hhigh : high + max 0 (stride * (n - 1 : Nat)) < Word.half) :
    extendRange (low, high) (n, stride)
      = .ok (low + min 0 (stride * (n - 1 : Nat)), high + max 0 (stride * (n - 1 : Nat))) := by
  have hlast : (0 : Int) ≤ (n - 1 : Nat) := by omega
  -- A product beyond the word would take one of the two ends beyond it.
  have hreach : Word.signed (stride * Word.asSigned (n - 1)) = .ok (stride * (n - 1 : Nat)) := by
    rw [asSigned_pred hpos hle]
    exact Word.signed_eq_ok_iff.mpr ⟨by omega, rfl⟩
  rw [extendRange, hreach]
  show (if 0 ≤ stride then _ else _) = _
  by_cases hs : 0 ≤ stride
  · have hup := Int.mul_nonneg hs hlast
    rw [Int.max_eq_right hup] at hhigh ⊢
    rw [if_pos hs, Int.min_eq_left hup, Int.add_zero, Word.signed_eq_ok_iff.mpr ⟨by omega, rfl⟩]
    rfl
  · have hdown := Int.mul_nonpos_of_nonpos_of_nonneg (Int.le_of_lt (Int.not_le.mp hs)) hlast
    rw [Int.min_eq_right hdown] at hlow0 ⊢
    rw [if_neg hs, Int.max_eq_left hdown, Int.add_zero, Word.signed_eq_ok_iff.mpr ⟨by omega, rfl⟩]
    rfl

/-- If the exact range fits, no step on the way to it leaves the word. -/
theorem foldlM_extendRange_ok : ∀ {axes : List (Nat × Int)} {low high : Int}, Signed axes →
    low < Word.half → 0 ≤ low + reach min axes → 0 ≤ high → high + reach max axes < Word.half →
    axes.foldlM extendRange (low, high) = .ok (low + reach min axes, high + reach max axes)
  | [], low, high, _, _, _, _, _ => by simp [pure, Except.pure]
  | (n, stride) :: axes, low, high, hsigned, hlow, hlow0, hhigh0, hhigh => by
    obtain ⟨hpos, hle⟩ : 0 < n ∧ n ≤ Word.half := hsigned (n, stride) List.mem_cons_self
    have hmin := reach_min_nonpos axes
    have hmax := reach_max_nonneg axes
    rw [reach_cons] at hlow0 hhigh ⊢
    rw [reach_cons, List.foldlM_cons,
      extendRange_ok hpos hle hlow (by omega) hhigh0 (by omega)]
    show axes.foldlM extendRange _ = _
    rw [foldlM_extendRange_ok (fun a ha => hsigned a (List.mem_cons_of_mem _ ha)) (by omega)
      (by omega) (by omega) (by omega), Int.add_assoc, Int.add_assoc]

/-! ## Views inside their data -/

/-- A view whose extreme addresses lie inside its data, and whose sizes fit a signed word. -/
structure Inside (v : View α) : Prop where
  length_eq : v.strides.length = v.dims.length
  size_lt : v.data.size < Word.half
  dims_le : 0 ∉ v.dims → ∀ n ∈ v.dims, n ≤ Word.half
  low : 0 ∉ v.dims → 0 ≤ v.offset + reach min (v.dims.zip v.strides)
  high : 0 ∉ v.dims → v.offset + reach max (v.dims.zip v.strides) < v.data.size

/-- Without empty axes, the check of the range of addresses is the check of the exact addresses. -/
theorem addressRange_check {dims : Shape} (strides : List Int) {offset size : Nat}
    (hsize : size < Word.half) (h0 : 0 ∉ dims) (hdims : ∀ n ∈ dims, n ≤ Word.half)
    (hoffset : offset < Word.size) :
    (∃ range, addressRange dims strides offset = .ok range ∧
        ¬(range.1 < 0 ∨ size ≤ Word.asUnsigned range.2)) ↔
      0 ≤ offset + reach min (dims.zip strides) ∧
        offset + reach max (dims.zip strides) < size := by
  have hsigned := signed_zip strides h0 hdims
  have hmin := reach_min_nonpos (dims.zip strides)
  have hmax := reach_max_nonneg (dims.zip strides)
  have hhalf : Word.half < Word.size := by decide
  have hlt := Word.asSigned_lt_half offset
  have hnonneg := Word.asSigned_of_nonneg hoffset
  have hsmall : offset < Word.half → Word.asSigned offset = offset := Word.asSigned_of_lt
  unfold addressRange
  -- From here on the start of the range is any number that reads as the offset if it can.
  generalize Word.asSigned offset = start at hlt hnonneg hsmall ⊢
  constructor
  · rintro ⟨⟨low, high⟩, hrange, hcheck⟩
    obtain ⟨rfl, rfl, hword⟩ := foldlM_extendRange_eq_ok hsigned hrange
    have hupper := hword hlt
    rw [not_or, Int.not_lt, Nat.not_le] at hcheck
    obtain ⟨hlow, hhigh⟩ := hcheck
    have hstart : start = offset := hnonneg (by omega)
    rw [Word.asUnsigned_of_nonneg (by omega) (by omega)] at hhigh
    exact ⟨by omega, by omega⟩
  · rintro ⟨hlow, hhigh⟩
    have hstart : start = offset := hsmall (by omega)
    refine ⟨_, foldlM_extendRange_ok hsigned hlt (by omega) (by omega) (by omega), ?_⟩
    rw [not_or, Int.not_lt, Nat.not_le, Word.asUnsigned_of_nonneg (by omega) (by omega)]
    exact ⟨by omega, by omega⟩

/-- A view is accepted exactly if it is inside its data. -/
theorem new_eq_ok_iff {data : Array α} {dims : Shape} {strides : List Int} {offset : Nat}
    (hdata : data.size < Word.half) (hdims : 0 ∉ dims → ∀ n ∈ dims, n ≤ Word.half)
    (hoffset : offset < Word.size) {v : View α} :
    new data dims strides offset = .ok v ↔ v = ⟨data, dims, strides, offset⟩ ∧ Inside v := by
  unfold new
  by_cases hlen : strides.length = dims.length
  · rw [if_neg (fun hne => hne hlen)]
    -- A view without elements is accepted wherever it lies.
    by_cases h0 : 0 ∈ dims
    · rw [if_pos h0]
      constructor
      · intro h
        cases h
        exact ⟨rfl, hlen, hdata, hdims, fun hn => absurd h0 hn, fun hn => absurd h0 hn⟩
      · rintro ⟨rfl, _⟩
        rfl
    · rw [if_neg h0]
      have hcheck := addressRange_check strides hdata h0 (hdims h0) hoffset
      constructor
      · intro h
        obtain ⟨range, hrange, h⟩ := bind_eq_ok_iff.mp h
        split at h
        · cases h
        · next hin =>
          cases h
          obtain ⟨hlow, hhigh⟩ := hcheck.mp ⟨range, liftM_fault_eq_ok_iff.mp hrange, hin⟩
          exact ⟨rfl, hlen, hdata, hdims, fun _ => hlow, fun _ => hhigh⟩
      · rintro ⟨rfl, hv⟩
        obtain ⟨range, hrange, hin⟩ := hcheck.mpr ⟨hv.low h0, hv.high h0⟩
        refine bind_eq_ok_iff.mpr ⟨range, liftM_fault_eq_ok_iff.mpr hrange, ?_⟩
        rw [if_neg hin]
  · rw [if_pos hlen]
    constructor
    · intro h
      cases h
    · rintro ⟨rfl, hv⟩
      exact absurd hv.length_eq hlen

/-! ## Reading -/

/-- If the exact range of addresses fits, every address is computed exactly. -/
theorem foldlM_moveAlong_eq : ∀ {index : Index} {dims : Shape} {strides : List Int} {start : Int},
    strides.length = dims.length → (∀ n ∈ dims, n ≤ Word.half) → InBounds index dims →
    0 ≤ start + reach min (dims.zip strides) →
    start + reach max (dims.zip strides) < Word.half →
    (index.zip strides).foldlM moveAlong start = .ok (start + displacement index strides)
  | [], [], [], start, _, _, _, _, _ => by simp [pure, Except.pure]
  | i :: index, n :: dims, stride :: strides, start, hlen, hdims, hb, hlow, hhigh => by
    have hmin := reach_min_nonpos (dims.zip strides)
    have hmax := reach_max_nonneg (dims.zip strides)
    have hmove := move_bounds hb.1 stride
    have hi : Word.asSigned i = i :=
      Word.asSigned_of_lt (Nat.lt_of_lt_of_le hb.1 (hdims n List.mem_cons_self))
    rw [List.zip_cons_cons, reach_cons] at hlow hhigh
    -- The later components could all be zero, so each partial sum is an address in the range.
    have hdistance : Word.signed (i * stride) = .ok (i * stride) :=
      Word.signed_eq_ok_iff.mpr ⟨by omega, rfl⟩
    have hnext : Word.signed (start + i * stride) = .ok (start + i * stride) :=
      Word.signed_eq_ok_iff.mpr ⟨by omega, rfl⟩
    have hstep : moveAlong start (i, stride) = .ok (start + i * stride) := by
      rw [moveAlong, hi, hdistance]
      exact hnext
    rw [List.zip_cons_cons, List.foldlM_cons, hstep]
    show (index.zip strides).foldlM moveAlong (start + i * stride) = _
    rw [foldlM_moveAlong_eq (Nat.succ.inj hlen) (fun m hm => hdims m (List.mem_cons_of_mem n hm))
      hb.2 (by omega) (by omega), displacement_cons, Int.add_assoc]

namespace Inside

variable {v : View α}

/-- The exact address of an index in bounds lies inside the data. -/
theorem address_bounds (h : Inside v) {index : Index} (hb : InBounds index v.dims) :
    0 ≤ v.offset + displacement index v.strides ∧
      v.offset + displacement index v.strides < v.data.size := by
  have h0 := Index.zero_notMem_of_inBounds hb
  have hlow := h.low h0
  have hhigh := h.high h0
  have hd := displacement_bounds h.length_eq hb
  omega

theorem address_eq (h : Inside v) {index : Index} (hb : InBounds index v.dims) :
    v.address index = .ok (v.offset + displacement index v.strides) := by
  have h0 := Index.zero_notMem_of_inBounds hb
  have hhigh := h.high h0
  have hmax := reach_max_nonneg (v.dims.zip v.strides)
  have hsize := h.size_lt
  rw [address, Word.asSigned_of_lt (by omega)]
  exact foldlM_moveAlong_eq h.length_eq (h.dims_le h0) hb (h.low h0) (by omega)

/-- A view inside its data reads the element at the exact address. -/
theorem read_eq (h : Inside v) {index : Index} (hb : InBounds index v.dims) :
    ∃ x, v.data[(v.offset + displacement index v.strides).toNat]? = some x ∧
      v.read index = .ok x := by
  obtain ⟨hlow, hhigh⟩ := h.address_bounds hb
  have hsize := h.size_lt
  have hhalf : Word.half < Word.size := by decide
  have hword : Word.asUnsigned (v.offset + displacement index v.strides)
      = (v.offset + displacement index v.strides).toNat :=
    Word.asUnsigned_of_nonneg hlow (by omega)
  have hplace : (v.offset + displacement index v.strides).toNat < v.data.size := by omega
  have hget := Array.getElem?_eq_getElem hplace
  exact ⟨_, hget, read_of_address hb (h.address_eq hb) (by rw [hword, hget])⟩

end Inside

/-- A view is inside its data exactly if the addresses of all its indices are. -/
theorem inside_iff {v : View α} (hlen : v.strides.length = v.dims.length)
    (hdata : v.data.size < Word.half) (hdims : ∀ n ∈ v.dims, n ≤ Word.half) :
    Inside v ↔ ∀ index, InBounds index v.dims →
      0 ≤ v.offset + displacement index v.strides ∧
        v.offset + displacement index v.strides < v.data.size := by
  constructor
  · intro h index hb
    exact h.address_bounds hb
  · intro h
    refine ⟨hlen, hdata, fun _ => hdims, ?_, ?_⟩
    · intro h0
      obtain ⟨index, hb, hd⟩ := exists_displacement_eq_reach (min_choice 0) hlen h0
      rw [← hd]
      exact (h index hb).1
    · intro h0
      obtain ⟨index, hb, hd⟩ := exists_displacement_eq_reach (max_choice 0) hlen h0
      rw [← hd]
      exact (h index hb).2

/--
**A view is accepted exactly if it stays inside its data.** For data and sizes that fit a signed
word and an offset that fits a word, a view is made exactly if the exact address of every index in
bounds is a place in the data. Reading the view at such an index computes that address without
leaving the word and gives the element there.
-/
theorem accepted_iff_addresses_inside (data : Array α) (dims : Shape) (strides : List Int)
    (offset : Nat) (hdata : data.size < Word.half) (hdims : ∀ n ∈ dims, n ≤ Word.half)
    (hlen : strides.length = dims.length) (hoffset : offset < Word.size) :
    ((∃ v, new data dims strides offset = .ok v) ↔
      ∀ index, InBounds index dims → 0 ≤ offset + displacement index strides ∧
        offset + displacement index strides < data.size) ∧
    ∀ v, new data dims strides offset = .ok v → ∀ index, InBounds index dims →
      v.address index = .ok (offset + displacement index strides) ∧
      ∃ x, data[(offset + displacement index strides).toNat]? = some x ∧ v.read index = .ok x := by
  have hnew : ∀ v, new data dims strides offset = .ok v ↔
      v = ⟨data, dims, strides, offset⟩ ∧ Inside v :=
    fun v => new_eq_ok_iff hdata (fun _ => hdims) hoffset
  have hinside := inside_iff (v := ⟨data, dims, strides, offset⟩) hlen hdata hdims
  refine ⟨⟨?_, ?_⟩, ?_⟩
  · rintro ⟨v, hv⟩
    obtain ⟨rfl, hv⟩ := (hnew v).mp hv
    exact hinside.mp hv
  · intro h
    exact ⟨_, (hnew _).mpr ⟨rfl, hinside.mpr h⟩⟩
  · intro v hv index hb
    obtain ⟨rfl, hv⟩ := (hnew v).mp hv
    exact ⟨hv.address_eq hb, hv.read_eq hb⟩

/-- Two rows of three, the second one first. -/
theorem accepted_reversed_rows :
    ∃ v, new #[10, 20, 30, 40, 50, 60] [2, 3] [-3, 1] 3 = .ok v ∧
      v.address [1, 2] = .ok 2 ∧ v.read [1, 2] = .ok 30 := by
  have h := accepted_iff_addresses_inside #[10, 20, 30, 40, 50, 60] [2, 3] [-3, 1] 3
    (by decide) (by decide) rfl (by decide)
  have hinside : ∀ index, InBounds index [2, 3] →
      0 ≤ (3 : Nat) + displacement index [-3, 1] ∧ (3 : Nat) + displacement index [-3, 1] < 6 := by
    intro index hb
    have hd : -3 ≤ displacement index [-3, 1] ∧ displacement index [-3, 1] ≤ 2 :=
      displacement_bounds rfl hb
    omega
  obtain ⟨v, hv⟩ := h.1.mpr hinside
  obtain ⟨haddress, x, hx, hread⟩ := h.2 v hv [1, 2] (by decide)
  cases hx
  exact ⟨v, hv, haddress, hread⟩

/-! ## Row-major views -/

/-- The row-major view of all of the data is inside it. -/
theorem inside_of_contiguous {data : Array α} {dims : Shape} {v : View α}
    (hdata : data.size < Word.half) (h : contiguous data dims = .ok v) : Inside v := by
  obtain ⟨count, hcount, h⟩ := bind_eq_ok_iff.mp h
  obtain ⟨hprod, _⟩ := Shape.numel_eq_ok (liftM_fault_eq_ok_iff.mp hcount)
  split at h
  · cases h
  · next heq =>
    obtain ⟨strides, _, h⟩ := bind_eq_ok_iff.mp h
    have hdims : 0 ∉ dims → ∀ n ∈ dims, n ≤ Word.half := by
      intro h0 n hn
      have hle := Nat.le_of_dvd (Index.prod_pos_of_zero_notMem h0) (List.dvd_prod hn)
      omega
    exact ((new_eq_ok_iff hdata hdims (by decide)).mp h).2

end Broadcast.View
