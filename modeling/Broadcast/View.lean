import Broadcast.Error
import Broadcast.Index

/-!
# Strided views

A view reads an array through a start offset and one stride for each axis, which may be negative or
zero: the element at an index lies at the offset plus the sum of the components times their strides.
A view is accepted if its lowest and its highest address lie inside the data.

Addresses are computed in signed 64-bit words. Sizes and offsets enter them by their bits.
-/

namespace Broadcast

/-- A strided reading of some data. -/
structure View (α : Type) where
  data : Array α
  dims : Shape
  strides : List Int
  offset : Nat

namespace View

variable {α : Type}

/-! ## Row-major strides -/

/-- The product of the sizes, zero counting as one, and the row-major strides below it. -/
def stridesBelow : Shape → Except Fault (Int × List Int)
  | [] => .ok (1, [])
  | n :: s => do
    let below ← stridesBelow s
    let product ← Word.signed (below.1 * Word.asSigned (max n 1))
    return (product, below.1 :: below.2)

/-- The strides under which the elements of a shape lie one after another in row-major order. -/
def rowMajorStrides (s : Shape) : Except Fault (List Int) := do
  let below ← stridesBelow s
  return below.2

/-! ## Construction -/

/-- Widens the range of addresses by one axis. -/
def extendRange (range : Int × Int) (axis : Nat × Int) : Except Fault (Int × Int) := do
  let reach ← Word.signed (axis.2 * Word.asSigned (axis.1 - 1))
  if 0 ≤ axis.2 then
    let high ← Word.signed (range.2 + reach)
    return (range.1, high)
  else
    let low ← Word.signed (range.1 + reach)
    return (low, range.2)

/-- The lowest and the highest address of a view without empty axes. -/
def addressRange (dims : Shape) (strides : List Int) (offset : Nat) : Except Fault (Int × Int) :=
  (dims.zip strides).foldlM extendRange (Word.asSigned offset, Word.asSigned offset)

/-- A view that stays inside its data. A view without elements has no address to check. -/
def new (data : Array α) (dims : Shape) (strides : List Int) (offset : Nat) :
    Except Error (View α) :=
  if strides.length ≠ dims.length then .error .strideLengthMismatch
  else if 0 ∈ dims then .ok ⟨data, dims, strides, offset⟩
  else do
    let range ← addressRange dims strides offset
    if range.1 < 0 ∨ data.size ≤ Word.asUnsigned range.2 then .error .offsetOverflow
    else .ok ⟨data, dims, strides, offset⟩

/-- The row-major view of all of the data. -/
def contiguous (data : Array α) (dims : Shape) : Except Error (View α) := do
  let count ← dims.numel
  if count ≠ data.size then .error (.shapeMismatch dims [data.size])
  else do
    let strides ← rowMajorStrides dims
    new data dims strides 0

/-! ## Questions -/

def isEmpty (v : View α) : Bool :=
  v.dims.contains 0

/-- Whether axes, listed innermost first, have the strides that follow from `expected`. -/
def followsFrom (expected : Int) : List (Nat × Int) → Except Fault Bool
  | [] => .ok true
  | (n, stride) :: axes =>
    if n ≤ 1 then followsFrom expected axes
    else if stride ≠ expected then .ok false
    else do
      let next ← Word.signed (expected * Word.asSigned n)
      followsFrom next axes

/-- Whether the elements lie one after another in row-major order. -/
def isContiguous (v : View α) : Except Fault Bool :=
  followsFrom 1 (v.dims.zip v.strides).reverse

/-! ## Permutation -/

/-- Marks an axis as seen, if there is such an axis and it has not been seen before. -/
def markSeen {rank : Nat} (seen : Vector Bool rank) (axis : Nat) : Option (Vector Bool rank) :=
  if h : axis < rank then
    if seen[axis] then none else some (seen.set axis true)
  else none

/-- Whether as many axes are listed as there are, and each of them can be marked in its turn. -/
def isPermutation (axes : List Nat) (rank : Nat) : Bool :=
  if axes.length ≠ rank then false
  else (axes.foldlM markSeen (Vector.replicate rank false)).isSome

/-- The view with its axes in the order that `axes` lists them. -/
def permute (v : View α) (axes : List Nat) : Except Fault (View α) :=
  if isPermutation axes v.dims.length then
    .ok { v with dims := axes.map (v.dims.getD · 0), strides := axes.map (v.strides.getD · 0) }
  else .error .invalidPermutation

/-! ## Reading -/

/-- Moves an address along one axis. -/
def moveAlong (address : Int) (axis : Nat × Int) : Except Fault Int := do
  let distance ← Word.signed (Word.asSigned axis.1 * axis.2)
  Word.signed (address + distance)

def address (v : View α) (index : Index) : Except Fault Int :=
  (index.zip v.strides).foldlM moveAlong (Word.asSigned v.offset)

/-- The element at an index that is in bounds. -/
def read (v : View α) (index : Index) : Except Fault α :=
  if index.InBounds v.dims then do
    let place ← v.address index
    match v.data[Word.asUnsigned place]? with
    | some x => .ok x
    | none => .error .outOfBounds
  else .error .outOfBounds

theorem read_of_address {v : View α} {index : Index} {place : Int} {x : α}
    (hb : index.InBounds v.dims) (hplace : v.address index = .ok place)
    (hx : v.data[Word.asUnsigned place]? = some x) : v.read index = .ok x := by
  unfold read
  rw [if_pos hb]
  simp only [hplace, bind, Except.bind, hx]

end View

end Broadcast
