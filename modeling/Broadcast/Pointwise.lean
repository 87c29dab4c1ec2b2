import Broadcast.Value

/-!
# Pointwise functions

A pointwise function takes one element of each operand. Its parameters and its result are either of
a fixed element type or values of any type; the function itself is an ordinary curried function of
these.
-/

namespace Broadcast

/-- What a pointwise function takes or gives. -/
inductive Param where
  /-- Elements of one type. -/
  | typed (d : DType)
  /-- Values of any type. -/
  | any
  deriving DecidableEq, Repr

namespace Param

@[reducible] def Carrier : Param → Type
  | typed d => d.Elem
  | any => Value

/-- Reads a value as a parameter. -/
def ofValue : (p : Param) → Value → p.Carrier
  | typed d, v => v.elemAs d
  | any, v => v

/-- The value of a parameter. -/
def toValue : (p : Param) → p.Carrier → Value
  | typed d, x => ⟨d, x⟩
  | any, v => v

end Param

/-- Functions of some parameters, one after another. -/
@[reducible] def Curried : List Param → Type → Type
  | [], β => β
  | p :: ps, β => p.Carrier → Curried ps β

/-- Applies a function to as many values as it has parameters. -/
def Curried.apply {β : Type} : (ps : List Param) → Curried ps β → List Value → Except Fault β
  | [], result, _ => .ok result
  | _ :: _, _, [] => .error .missingOperand
  | p :: ps, f, v :: vs => Curried.apply ps (f (p.ofValue v)) vs

/-- A named function of one element of each operand. -/
structure Pointwise where
  name : String
  params : List Param
  result : Param
  fn : Curried params result.Carrier

namespace Pointwise

def arity (f : Pointwise) : Nat :=
  f.params.length

/-- The result of the function at some values. -/
def apply (f : Pointwise) (args : List Value) : Except Fault Value :=
  f.result.toValue <$> Curried.apply f.params f.fn args

end Pointwise

end Broadcast
