import Broadcast.Word

/-!
# Shapes and broadcasting

A shape lists the size of each axis; the shape of a scalar is empty. Shapes are broadcast together
after aligning them at their last axis and filling missing leading axes with the size one. On each
axis all sizes other than one must agree, and the common size is that size, or one if there is none.
-/

namespace Broadcast

/-- The sizes of the axes, outermost first. -/
abbrev Shape := List Nat

namespace Shape

def rank (s : Shape) : Nat :=
  s.length

/--
The number of elements: the product of the sizes from the outermost axis on. A partial product that
does not fit a word is a fault, even if a later size is zero.
-/
def numel (s : Shape) : Except Fault Nat :=
  s.foldlM (fun product n => Word.unsigned (product * n)) 1

/-- The sizes between brackets, separated by commas. -/
def render (s : Shape) : String :=
  "[" ++ ", ".intercalate (s.map toString) ++ "]"

/-! ## Alignment -/

/-- The size on an axis after aligning a shape to `rank` axes; missing axes have size one. -/
def sizeAt (rank axis : Nat) (s : Shape) : Nat :=
  if axis < rank - s.length then 1 else s.getD (axis - (rank - s.length)) 1

/-- As `sizeAt`, for a rank that holds the shape and an axis below it. -/
def alignedSize (s : Shape) (axis rank : Nat) : Except Fault Nat :=
  if rank < s.length then .error .overflow
  else if rank ≤ axis then .error .outOfBounds
  else .ok (s.sizeAt rank axis)

end Shape

/-! ## Broadcasting -/

/-- Two sizes on one axis, neither of them one, that disagree. -/
structure Conflict where
  axis : Nat
  first : Nat
  second : Nat
  deriving DecidableEq, Repr

namespace Shape

/-- Joins one more size to the common size so far, where one stands for no size yet. -/
def joinSize (axis : Nat) (common n : Nat) : Except Conflict Nat :=
  if n = 1 then .ok common
  else if common = 1 then .ok n
  else if common = n then .ok common
  else .error ⟨axis, common, n⟩

/-- The common size of all shapes on one axis. -/
def joinAxis (shapes : List Shape) (rank axis : Nat) : Except Conflict Nat :=
  (shapes.map (sizeAt rank axis)).foldlM (joinSize axis) 1

def maxRank (shapes : List Shape) : Nat :=
  (shapes.map rank).foldl max 0

/-- The common shape of several shapes, or the first conflict on the outermost axis that has one. -/
def broadcast (shapes : List Shape) : Except Conflict Shape :=
  (List.range (maxRank shapes)).mapM (joinAxis shapes (maxRank shapes))

end Shape

end Broadcast
