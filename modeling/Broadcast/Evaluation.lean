import Broadcast.Operand

/-!
# Evaluation

Operands are evaluated by reading them at every index in row-major order, either into a new array or
into a buffer. A large operand may be split into chunks of consecutive positions that are filled
independently; each chunk finds its first index by `Index.unravel` and goes on from there, so the
chunks may be filled in any order.
-/

namespace Broadcast

namespace Operand

variable {α : Type}

/-- Evaluates an operand into a new dense array. -/
def materialize (x : Operand α) : Except Fault (Dense α) := do
  let data ← Index.traverse x.shape x.read
  return ⟨x.shape, data⟩

/-- Writes `count` elements in row-major order, from `index` on, at the places from `place` on. -/
def write (x : Operand α) :
    (count : Nat) → (index : Index) → (place : Nat) → Array α → Except Fault (Array α)
  | 0, _, _, buffer => .ok buffer
  | count + 1, index, place, buffer => do
    let element ← x.read index
    x.write count (Index.advance x.shape index) (place + 1) (buffer.setIfInBounds place element)

/-- Fills `count` places of a buffer from `start` on with the elements at these positions. -/
def fillFrom (x : Operand α) (start count : Nat) (buffer : Array α) : Except Fault (Array α) :=
  if count = 0 then .ok buffer
  else do
    let index ← Index.unravel start x.shape
    x.write count index start buffer

/-- Evaluates an operand into a buffer with as many places as the operand has elements. -/
def evaluateInto (x : Operand α) (buffer : Array α) : Except Error (Array α) := do
  let count ← x.numel
  if buffer.size ≠ count then .error (.shapeMismatch x.shape [buffer.size])
  else x.fillFrom 0 count buffer

end Operand

/-- Evaluates an operand into the storage of a dense array, which keeps its shape. -/
def Dense.assign {α : Type} (a : Dense α) (x : Operand α) : Except Error (Dense α) := do
  let data ← x.evaluateInto a.data
  return { a with data }

/-! ## Chunks -/

/-- When and how an evaluation is split into chunks. -/
structure EvalOptions where
  /-- The least number of elements that is split. -/
  minParallelLen : Nat := 32768
  /-- The number of elements of a chunk; zero lets the number of workers decide. -/
  chunkLen : Nat := 0
  /-- Whether splitting is allowed. -/
  parallel : Bool := true
  deriving DecidableEq, Repr

namespace EvalOptions

/-- Options that forbid splitting. -/
def serial : EvalOptions :=
  { parallel := false }

/-- The number of elements of each chunk but the last; by default four chunks for each worker. -/
def chunkSize (options : EvalOptions) (workers count : Nat) : Except Fault Nat :=
  if options.chunkLen = 0 then do
    let chunks ← Word.unsigned (workers * 4)
    if chunks = 0 then .error .divisionByZero
    else .ok (max 1 ((count + (chunks - 1)) / chunks))
  else .ok options.chunkLen

/-- Whether an operand with this many elements is split. -/
def splits (options : EvalOptions) (count : Nat) : Bool :=
  options.parallel && 0 < count && options.minParallelLen ≤ count

end EvalOptions

/-- The workers that fill chunks and the order in which they come to fill them. -/
structure Schedule where
  workers : Nat
  /-- For a number of chunks, the chunks in the order in which they are filled. -/
  order : Nat → List Nat

/-- One worker that fills the chunks from the first to the last. -/
def Schedule.sequential : Schedule :=
  ⟨1, List.range⟩

namespace Operand

variable {α : Type}

/-- Fills one chunk of a buffer; the last chunk may be shorter. -/
def fillChunk (x : Operand α) (size : Nat) (buffer : Array α) (chunk : Nat) :
    Except Fault (Array α) := do
  let start ← Word.unsigned (chunk * size)
  x.fillFrom start (min size (buffer.size - start)) buffer

/-- Evaluates an operand chunk by chunk into a buffer that first holds its first element. -/
def materializeChunks (x : Operand α) (size count : Nat) (order : List Nat) :
    Except Fault (Dense α) := do
  let start ← Index.unravel 0 x.shape
  let first ← x.read start
  let data ← order.foldlM (x.fillChunk size) (Array.replicate count first)
  return ⟨x.shape, data⟩

/-- Evaluates an operand into a new dense array, in chunks if the options call for it. -/
def materializeWith (x : Operand α) (options : EvalOptions) (schedule : Schedule) :
    Except Fault (Dense α) := do
  let count ← x.numel
  if options.splits count then
    let size ← options.chunkSize schedule.workers count
    x.materializeChunks size count (schedule.order ((count + (size - 1)) / size))
  else
    x.materialize

end Operand

end Broadcast
