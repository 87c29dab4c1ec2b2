import Broadcast.Evaluation
import Broadcast.Proofs.Storage

/-!
# All evaluators agree

An operand that can be read at every index in bounds has one table, and every evaluator gives it:
`materialize` and `ofFn` push the elements one by one, `evaluateInto` overwrites a buffer, and
`materializeWith` seeds a buffer with one element and overwrites it chunk by chunk.

The last two are described by what a buffer already holds. Filling a stretch of places adds the
stretch to what it holds and takes nothing away, whatever was written before, so the order of the
chunks does not matter. Every place belongs to the chunk that it has after division by the chunk
size, so once all chunks are filled no seed is left.
-/

namespace Broadcast

namespace Operand

variable {α : Type}

/-! ## Buffers -/

/-- A buffer of the size of `data` that agrees with it at the places in `done`. -/
structure Holds (data : Array α) (done : Nat → Prop) (buffer : Array α) : Prop where
  size_eq : buffer.size = data.size
  getElem?_eq : ∀ place < data.size, done place → buffer[place]? = data[place]?

namespace Holds

variable {data buffer : Array α} {done done' : Nat → Prop}

theorem mono (h : Holds data done buffer) (hsub : ∀ place < data.size, done' place → done place) :
    Holds data done' buffer :=
  ⟨h.size_eq, fun place hlt hdone => h.getElem?_eq place hlt (hsub place hlt hdone)⟩

/-- Writing the right element at a place adds the place to what a buffer holds. -/
theorem setIfInBounds (h : Holds data done buffer) {place : Nat} {x : α}
    (hx : data[place]? = some x) :
    Holds data (fun j => done j ∨ j = place) (buffer.setIfInBounds place x) := by
  refine ⟨by rw [Array.size_setIfInBounds, h.size_eq], ?_⟩
  intro j hlt hj
  rw [Array.getElem?_setIfInBounds]
  by_cases hjp : place = j
  · rw [if_pos hjp, if_pos (by rw [h.size_eq]; omega), ← hjp, hx]
  · rw [if_neg hjp]
    exact h.getElem?_eq j hlt (hj.resolve_right (Ne.symm hjp))

/-- A buffer that agrees at every place is the table. -/
theorem eq_of_all (h : Holds data done buffer) (hall : ∀ place < data.size, done place) :
    buffer = data := by
  refine Array.ext_getElem? fun place => ?_
  by_cases hlt : place < data.size
  · exact h.getElem?_eq place hlt (hall place hlt)
  · rw [Array.getElem?_eq_none (by rw [h.size_eq]; omega), Array.getElem?_eq_none (by omega)]

end Holds

/-! ## Filling a stretch -/

variable {x : Operand α} {data : Array α} {done : Nat → Prop}

/-- Writing `count` elements adds the next `count` places to what a buffer holds. -/
theorem write_holds (h : Index.Tabulates x.shape x.read data) :
    ∀ {count place : Nat} {index : Index} {buffer : Array α} {done : Nat → Prop},
    (count = 0 ∨ index.InBounds x.shape ∧ index.ordinal x.shape = place) →
    place + count ≤ data.size → Holds data done buffer →
    ∃ out, x.write count index place buffer = .ok out ∧
      Holds data (fun j => done j ∨ place ≤ j ∧ j < place + count) out
  | 0, place, index, buffer, done, _, _, hold =>
    ⟨buffer, rfl, hold.mono fun j _ hj => hj.resolve_right (by omega)⟩
  | count + 1, place, index, buffer, done, hindex, hle, hold => by
    obtain hzero | ⟨hb, ho⟩ := hindex
    · exact absurd hzero (Nat.succ_ne_zero count)
    obtain ⟨element, helement, hread⟩ := h.read_eq hb
    rw [ho] at helement
    -- After the last index `advance` starts anew, but then nothing is left to write.
    have hnext := Index.done_or_advance_inBounds hb ho (h.size_eq ▸ hle)
    obtain ⟨out, hout, hfilled⟩ :=
      write_holds h hnext (by omega) (hold.setIfInBounds helement)
    refine ⟨out, ?_, hfilled.mono ?_⟩
    · rw [write, hread]
      exact hout
    · intro j _ hj
      rcases hj with hj | hj
      · exact .inl (.inl hj)
      · by_cases hjp : j = place
        · exact .inl (.inr hjp)
        · exact .inr (by omega)

/-- Filling a stretch of places inside the table adds it to what a buffer holds. -/
theorem fillFrom_holds (h : Index.Tabulates x.shape x.read data) (start count : Nat)
    {buffer : Array α} (hle : start + count ≤ data.size) (hold : Holds data done buffer) :
    ∃ out, x.fillFrom start count buffer = .ok out ∧
      Holds data (fun j => done j ∨ start ≤ j ∧ j < start + count) out := by
  by_cases hzero : count = 0
  · refine ⟨buffer, if_pos hzero, hold.mono fun j _ hj => hj.resolve_right (by omega)⟩
  · obtain ⟨index, hindex, hb, ho⟩ := Index.unravel_eq_ok (k := start) (s := x.shape)
      (by rw [← h.size_eq]; omega)
    obtain ⟨out, hout, hfilled⟩ := write_holds h (.inr ⟨hb, ho⟩) hle hold
    refine ⟨out, ?_, hfilled⟩
    rw [fillFrom, if_neg hzero, hindex]
    exact hout

/-! ## Filling all chunks -/

/-- The first place of a chunk lies inside the table. -/
theorem chunk_mul_lt {count size chunk : Nat} (hsize : 0 < size)
    (h : chunk < (count + (size - 1)) / size) : chunk * size < count := by
  have hle := (Nat.le_div_iff_mul_le hsize).mp (Nat.succ_le_of_lt h)
  rw [Nat.succ_mul] at hle
  omega

/-- Every place of the table belongs to a chunk. -/
theorem div_lt_chunks {count size place : Nat} (hsize : 0 < size) (h : place < count) :
    place / size < (count + (size - 1)) / size := by
  rw [Nat.lt_iff_add_one_le, Nat.le_div_iff_mul_le hsize, Nat.succ_mul]
  have hle := Nat.div_mul_le_self place size
  omega

/-- Filling one chunk adds its places to what a buffer holds. -/
theorem fillChunk_holds (h : Index.Tabulates x.shape x.read data) {size chunk : Nat}
    {buffer : Array α} (hsize : 0 < size) (hword : data.size < Word.size)
    (hchunk : chunk < (data.size + (size - 1)) / size) (hold : Holds data done buffer) :
    ∃ out, x.fillChunk size buffer chunk = .ok out ∧
      Holds data (fun j => done j ∨ j / size = chunk) out := by
  have hstart := chunk_mul_lt hsize hchunk
  -- The chunk starts inside the table, so its start is a word; its end may be cut off.
  have hfit : Word.unsigned (chunk * size) = .ok (chunk * size) :=
    Word.unsigned_eq_ok_iff.mpr ⟨by omega, rfl⟩
  obtain ⟨out, hout, hfilled⟩ := fillFrom_holds h (chunk * size)
    (min size (buffer.size - chunk * size)) (by rw [hold.size_eq]; omega) hold
  refine ⟨out, ?_, hfilled.mono ?_⟩
  · rw [fillChunk, hfit]
    exact hout
  · intro j hj hdone
    rcases hdone with hdone | rfl
    · exact .inl hdone
    · have hlow := Nat.div_mul_le_self j size
      have hhigh := Nat.lt_div_mul_add (a := j) hsize
      rw [hold.size_eq]
      exact .inr (by omega)

/-- Filling some chunks, in any order and however often, adds their places. -/
theorem foldlM_fillChunk_holds (h : Index.Tabulates x.shape x.read data) {size : Nat}
    (hsize : 0 < size) (hword : data.size < Word.size) :
    ∀ {order : List Nat} {buffer : Array α} {done : Nat → Prop},
    (∀ chunk ∈ order, chunk < (data.size + (size - 1)) / size) → Holds data done buffer →
    ∃ out, order.foldlM (x.fillChunk size) buffer = .ok out ∧
      Holds data (fun j => done j ∨ j / size ∈ order) out
  | [], buffer, done, _, hold =>
    ⟨buffer, rfl, hold.mono fun j _ hj => hj.resolve_right List.not_mem_nil⟩
  | chunk :: order, buffer, done, hchunks, hold => by
    obtain ⟨next, hnext, hone⟩ :=
      fillChunk_holds h hsize hword (hchunks chunk List.mem_cons_self) hold
    obtain ⟨out, hout, hrest⟩ := foldlM_fillChunk_holds h hsize hword
      (fun c hc => hchunks c (List.mem_cons_of_mem chunk hc)) hone
    refine ⟨out, ?_, hrest.mono ?_⟩
    · rw [List.foldlM_cons, hnext]
      exact hout
    · intro j _ hj
      rcases hj with hj | hj
      · exact .inl (.inl hj)
      · rcases List.mem_cons.mp hj with hj | hj
        · exact .inl (.inr hj)
        · exact .inr hj

/-! ## The evaluators -/

theorem materialize_eq (h : Index.Tabulates x.shape x.read data) {count : Nat}
    (hcount : x.numel = .ok count) : x.materialize = .ok ⟨x.shape, data⟩ := by
  rw [materialize, h.traverse_eq hcount]
  rfl

theorem evaluateInto_eq (h : Index.Tabulates x.shape x.read data) {count : Nat}
    (hcount : x.numel = .ok count) {buffer : Array α} (hbuffer : buffer.size = count) :
    x.evaluateInto buffer = .ok data := by
  have hsize := h.size_eq_count hcount
  have hold : Holds data (fun _ => False) buffer := ⟨by omega, fun _ _ hf => hf.elim⟩
  obtain ⟨out, hout, hfilled⟩ := fillFrom_holds h 0 count (by omega) hold
  have hdata : out = data := hfilled.eq_of_all fun place hlt => .inr (by omega)
  rw [evaluateInto, hcount]
  show (if buffer.size ≠ count then _ else liftM (x.fillFrom 0 count buffer)) = _
  rw [if_neg (by omega), hout, hdata]
  rfl

theorem chunkSize_eq_ok (options : EvalOptions) {workers : Nat} (hpos : 0 < workers)
    (hlt : workers < 2 ^ 62) (count : Nat) :
    ∃ size, options.chunkSize workers count = .ok size ∧ 0 < size := by
  by_cases hlen : options.chunkLen = 0
  · have hfit : Word.unsigned (workers * 4) = .ok (workers * 4) :=
      Word.unsigned_eq_ok_iff.mpr ⟨by unfold Word.size; omega, rfl⟩
    refine ⟨max 1 ((count + (workers * 4 - 1)) / (workers * 4)), ?_, by omega⟩
    rw [EvalOptions.chunkSize, if_pos hlen, hfit]
    exact if_neg (by omega)
  · exact ⟨options.chunkLen, if_neg hlen, Nat.pos_of_ne_zero hlen⟩

/-- Filling all chunks of a seeded buffer in any order leaves the table and no seed. -/
theorem materializeChunks_eq (h : Index.Tabulates x.shape x.read data) (hpos : 0 < data.size)
    (hword : data.size < Word.size) {size : Nat} (hsize : 0 < size) {order : List Nat}
    (horder : order.Perm (List.range ((data.size + (size - 1)) / size))) :
    x.materializeChunks size data.size order = .ok ⟨x.shape, data⟩ := by
  obtain ⟨start, hstart, hb, _⟩ := Index.unravel_eq_ok (by rw [← h.size_eq]; exact hpos)
  obtain ⟨first, _, hfirst⟩ := h.read_eq hb
  have hseed : Holds data (fun _ => False) (Array.replicate data.size first) :=
    ⟨Array.size_replicate, fun _ _ hf => hf.elim⟩
  obtain ⟨out, hout, hfilled⟩ := foldlM_fillChunk_holds h hsize hword
    (fun chunk hmem => List.mem_range.mp (horder.mem_iff.mp hmem)) hseed
  -- Every place is in the chunk of its quotient, and every chunk comes up in the order.
  have hdata : out = data := hfilled.eq_of_all fun place hlt =>
    .inr (horder.mem_iff.mpr (List.mem_range.mpr (div_lt_chunks hsize hlt)))
  rw [materializeChunks, hstart]
  show (x.read start >>= _) = _
  rw [hfirst]
  show (order.foldlM (x.fillChunk size) (Array.replicate data.size first) >>= _) = _
  rw [hout, hdata]
  rfl

theorem materializeWith_eq (h : Index.Tabulates x.shape x.read data) {count : Nat}
    (hcount : x.numel = .ok count) (options : EvalOptions) {schedule : Schedule}
    (hpos : 0 < schedule.workers) (hlt : schedule.workers < 2 ^ 62)
    (horder : ∀ n, (schedule.order n).Perm (List.range n)) :
    x.materializeWith options schedule = .ok ⟨x.shape, data⟩ := by
  have hword := (Shape.numel_eq_ok hcount).2
  have hsize := h.size_eq_count hcount
  rw [materializeWith, hcount]
  show (if options.splits count then _ else _) = _
  by_cases hsplit : options.splits count
  · obtain ⟨size, hchunk, hchunkPos⟩ := chunkSize_eq_ok options hpos hlt count
    have hcountPos : 0 < count := by
      simp only [EvalOptions.splits, Bool.and_eq_true, decide_eq_true_eq] at hsplit
      exact hsplit.1.2
    rw [if_pos hsplit, hchunk]
    show x.materializeChunks size count _ = _
    rw [← hsize] at hword hcountPos ⊢
    exact materializeChunks_eq h hcountPos hword hchunkPos (horder _)
  · rw [if_neg hsplit]
    exact materialize_eq h hcount

/--
**All evaluators agree.** An operand whose elements can be counted and read has one array of
elements, and each way to evaluate it gives that array: at once, in chunks of any size that any
number of workers fill in any order, into any buffer of its size, and as a function of the index.
The array holds the elements along the walk of the shape, which meets the indices in bounds in
lexicographic order, and so it holds the element at an index at the place of the index.
-/
theorem evaluators_agree {x : Operand α} {count : Nat} (hcount : x.numel = .ok count)
    (hread : ∀ index : Index, index.InBounds x.shape → ∃ v, x.read index = .ok v) :
    ∃ data : Array α, data.size = count ∧
      x.materialize = .ok ⟨x.shape, data⟩ ∧
      (∀ (options : EvalOptions) (schedule : Schedule), 0 < schedule.workers →
        schedule.workers < 2 ^ 62 → (∀ n, (schedule.order n).Perm (List.range n)) →
        x.materializeWith options schedule = .ok ⟨x.shape, data⟩) ∧
      (∀ buffer : Array α, buffer.size = count → x.evaluateInto buffer = .ok data) ∧
      (∀ f : Index → α, (∀ index : Index, index.InBounds x.shape → x.read index = .ok (f index)) →
        Dense.ofFn x.shape f = .ok ⟨x.shape, data⟩) ∧
      (Index.walk x.shape).mapM x.read = .ok data.toList ∧
      (Index.walk x.shape).Pairwise (· < ·) ∧
      (∀ index : Index, index ∈ Index.walk x.shape ↔ index.InBounds x.shape) ∧
      ∀ index : Index, index.InBounds x.shape →
        (Index.walk x.shape)[index.ordinal x.shape]? = some index ∧
          ∃ v, data[index.ordinal x.shape]? = some v ∧ x.read index = .ok v := by
  obtain ⟨data, htable⟩ := Index.exists_tabulates hread
  refine ⟨data, htable.size_eq_count hcount, materialize_eq htable hcount, ?_, ?_, ?_, htable,
    Index.pairwise_walk _, fun _ => Index.mem_walk,
    fun _ hb => ⟨Index.getElem?_walk hb, htable.read_eq hb⟩⟩
  · intro options schedule hpos hlt horder
    exact materializeWith_eq htable hcount options hpos hlt horder
  · intro buffer hbuffer
    exact evaluateInto_eq htable hcount hbuffer
  · intro f hf
    exact Dense.ofFn_eq (htable.congr hf) hcount

/-- Two rows of three bytes. -/
def matrix : Dense UInt8 :=
  ⟨[2, 3], #[1, 2, 3, 4, 5, 6]⟩

/-- Chunks of four and of two, the second one filled first by two workers. -/
theorem evaluators_agree_matrix :
    (matrix.toOperand (.uint .w8)).materializeWith ⟨0, 4, true⟩
        ⟨2, fun n => (List.range n).reverse⟩ = .ok matrix ∧
      (matrix.toOperand (.uint .w8)).evaluateInto #[0, 0, 0, 0, 0, 0] = .ok matrix.data := by
  have hfull : matrix.Full := ⟨rfl, by decide⟩
  have hread : ∀ index : Index, index.InBounds matrix.dims →
      ∃ v, (matrix.toOperand (.uint .w8)).read index = .ok v := by
    intro index hb
    obtain ⟨v, _, hv⟩ := hfull.read_eq hb
    exact ⟨v, hv⟩
  have hcount : (matrix.toOperand (.uint .w8)).numel = .ok 6 := rfl
  obtain ⟨data, _, hdata, hchunks, hbuffer, _⟩ := evaluators_agree hcount hread
  have heq : (⟨[2, 3], data⟩ : Dense _) = matrix := Except.ok.inj (hdata.symm.trans rfl)
  refine ⟨?_, ?_⟩
  · rw [hchunks _ _ (by decide) (by decide) fun n => List.reverse_perm _, ← heq]
    rfl
  · rw [hbuffer _ rfl, ← heq]

end Operand

end Broadcast
