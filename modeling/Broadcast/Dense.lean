import Broadcast.View

/-!
# Dense arrays

A dense array owns its elements and keeps them in row-major order.
-/

namespace Broadcast

/-- Elements in row-major order under a shape. -/
structure Dense (α : Type) where
  dims : Shape
  data : Array α

namespace Dense

variable {α : Type}

/-- The dense array with the given elements, which must be as many as the shape has. -/
def ofArray (data : Array α) (dims : Shape) : Except Error (Dense α) := do
  let count ← dims.numel
  if count ≠ data.size then .error (.shapeMismatch dims [data.size])
  else .ok ⟨dims, data⟩

/-- The dense array with the same element everywhere. -/
def fill (dims : Shape) (x : α) : Except Fault (Dense α) := do
  let count ← dims.numel
  return ⟨dims, Array.replicate count x⟩

/-- The dense array whose element at each index is a function of the index. -/
def ofFn (dims : Shape) (f : Index → α) : Except Fault (Dense α) := do
  let data ← Index.traverse dims fun index => .ok (f index)
  return ⟨dims, data⟩

def view (a : Dense α) : Except Fault (View α) := do
  let strides ← View.rowMajorStrides a.dims
  return ⟨a.data, a.dims, strides, 0⟩

/-- Adds one axis to a row-major position. -/
def extendPosition (position : Nat) (axis : Nat × Nat) : Except Fault Nat := do
  let scaled ← Word.unsigned (position * axis.2)
  Word.unsigned (scaled + axis.1)

/-- The row-major position of an index of the array's rank, whose components are not checked. -/
def position (a : Dense α) (index : Index) : Except Fault Nat :=
  if index.length = a.dims.length then (index.zip a.dims).foldlM extendPosition 0
  else .error .rankMismatch

/-- The element at the position of an index. -/
def read (a : Dense α) (index : Index) : Except Fault α := do
  let place ← a.position index
  match a.data[place]? with
  | some x => .ok x
  | none => .error .outOfBounds

theorem read_of_position {a : Dense α} {index : Index} {place : Nat} {x : α}
    (hplace : a.position index = .ok place) (hx : a.data[place]? = some x) :
    a.read index = .ok x := by
  unfold read
  simp only [hplace, bind, Except.bind, hx]

def set (a : Dense α) (place : Nat) (x : α) : Except Fault (Dense α) :=
  if place < a.data.size then .ok { a with data := a.data.setIfInBounds place x }
  else .error .outOfBounds

/-- Equality of shapes and of elements, compared by `eq`. -/
def equals (eq : α → α → Bool) (a b : Dense α) : Bool :=
  a.dims = b.dims && a.data.isEqv b.data eq

end Dense

end Broadcast
