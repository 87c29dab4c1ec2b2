import Broadcast.Dense

/-!
# Operands

An operand is a delayed array: a shape, a reported element type and a way to read the element at an
index. Scalars, views, dense arrays and expressions are all operands, and so is the repetition of
another operand.
-/

namespace Broadcast

/-- Something that can be read at every index of its shape. -/
structure Operand (α : Type) where
  shape : Shape
  dtype : DType
  read : Index → Except Fault α

namespace Operand

variable {α β : Type}

def numel (x : Operand α) : Except Fault Nat :=
  x.shape.numel

/-- Applies a function to every element that is read. -/
def map (f : α → β) (x : Operand α) : Operand β :=
  ⟨x.shape, x.dtype, fun index => f <$> x.read index⟩

/-- The same element at every index. -/
def scalar (d : DType) (x : α) : Operand α :=
  ⟨[], d, fun _ => .ok x⟩

/-- Reads the element whose `times` copies hold the position that the first component gives. -/
def readRepeated (x : Operand α) (times : Nat) : Index → Except Fault α
  | [] => .error .outOfBounds
  | i :: _ =>
    if times = 0 then .error .divisionByZero
    else do
      let index ← Index.unravel (i / times) x.shape
      x.read index

/-- Each element of the source in row-major order, `times` times in a row. -/
def repeated (x : Operand α) (times : Nat) : Except Fault (Operand α) := do
  let count ← x.numel
  let length ← Word.unsigned (count * times)
  return ⟨[length], x.dtype, x.readRepeated times⟩

@[simp] theorem shape_map (f : α → β) (x : Operand α) : (x.map f).shape = x.shape := rfl

@[simp] theorem dtype_map (f : α → β) (x : Operand α) : (x.map f).dtype = x.dtype := rfl

@[simp] theorem read_map (f : α → β) (x : Operand α) (index : Index) :
    (x.map f).read index = f <$> x.read index := rfl

end Operand

def View.toOperand {α : Type} (v : View α) (d : DType) : Operand α :=
  ⟨v.dims, d, v.read⟩

def Dense.toOperand {α : Type} (a : Dense α) (d : DType) : Operand α :=
  ⟨a.dims, d, a.read⟩

end Broadcast
