import Broadcast.DType
import Broadcast.Shape

/-!
# Errors

What can be wrong with the data and the operations that a caller names, and how it is worded.
-/

namespace Broadcast

/-- Why an array, an expression or a line could not be made. -/
inductive Error where
  /-- Two operands disagree on an axis. -/
  | incompatibleShape (conflict : Conflict)
  /-- A buffer does not have as many elements as a shape. -/
  | shapeMismatch (expected found : Shape)
  /-- A view has another number of strides than axes. -/
  | strideLengthMismatch
  /-- A view reaches outside its data. -/
  | offsetOverflow
  /-- No operation has this name. -/
  | unknownOperation (name : String)
  /-- An operation was given the wrong number of operands. -/
  | arityMismatch (name : String) (expected found : Nat)
  /-- An operation does not take elements of the promoted type. -/
  | unsupportedDType (name : String) (dtype : DType)
  /-- A line could not be read. -/
  | io (reason : String)
  /-- A precondition was broken on the way. -/
  | fault (fault : Fault)
  deriving DecidableEq, Repr

namespace Error

/-- The explanation of an error; a fault may have none. -/
def message? : Error → Option String
  | incompatibleShape c =>
    some ("incompatible shapes at dimension " ++ toString c.axis ++ ": sizes "
      ++ Shape.render [c.first, c.second] ++ " cannot be broadcast together")
  | shapeMismatch expected found =>
    some ("shape mismatch: " ++ expected.render ++ " vs " ++ found.render)
  | strideLengthMismatch => some "stride and dims length mismatch"
  | offsetOverflow => some "offset overflow while computing view bounds"
  | unknownOperation name => some ("unknown operation '" ++ name ++ "'")
  | arityMismatch name expected found =>
    some ("operation '" ++ name ++ "' expects " ++ toString expected ++ " operands, found "
      ++ toString found)
  | unsupportedDType name dtype =>
    some ("operation '" ++ name ++ "' is not supported for element type " ++ dtype.name)
  | io reason => some reason
  | fault f => f.message?

end Error

/-! ## Lifting

A computation that can only break a precondition, or only meet a conflict between shapes, is a
computation that can fail.
-/

instance : MonadLift (Except Fault) (Except Error) where
  monadLift x := x.mapError .fault

instance : MonadLift (Except Conflict) (Except Error) where
  monadLift x := x.mapError .incompatibleShape

@[simp] theorem liftM_fault_ok {α : Type} (a : α) :
    (liftM (.ok a : Except Fault α) : Except Error α) = .ok a := rfl

@[simp] theorem liftM_fault_error {α : Type} (f : Fault) :
    (liftM (.error f : Except Fault α) : Except Error α) = .error (.fault f) := rfl

@[simp] theorem liftM_conflict_ok {α : Type} (a : α) :
    (liftM (.ok a : Except Conflict α) : Except Error α) = .ok a := rfl

@[simp] theorem liftM_conflict_error {α : Type} (c : Conflict) :
    (liftM (.error c : Except Conflict α) : Except Error α) = .error (.incompatibleShape c) := rfl

end Broadcast
