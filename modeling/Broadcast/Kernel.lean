import Broadcast.Text.Quoted
import Broadcast.Value

/-!
# Kernels

A kernel is an operation that is chosen by name and works on values of any type. It is applied to
one value of each operand and to the type that its result is meant to have, which is the promoted
type of the operands. The first operands of a kernel may be left out of that promotion.
-/

namespace Broadcast

/-- A named operation on values. -/
structure Kernel where
  name : String
  /-- The number of operands. -/
  arity : Nat
  /-- The first operand that takes part in promotion. -/
  promoteFrom : Nat
  /-- The result types that the operation is defined for. -/
  supports : DType → Bool
  /-- The result at some values for a result type. -/
  apply : List Value → DType → Except Fault Value

namespace Kernel

def minArity : Nat := 2

def maxArity : Nat := 4

def acceptsArity (n : Nat) : Bool :=
  minArity ≤ n && n ≤ maxArity

/-- The accepted number of operands that is nearest to `n`. -/
def clampArity (n : Nat) : Nat :=
  max minArity (min n maxArity)

/-- The result types that the operation is defined for, in the order of `DType.all`. -/
def supported (k : Kernel) : List DType :=
  DType.all.filter k.supports

def describe (k : Kernel) : String :=
  Text.record "NaryKernel" [("name", Text.quoted k.name), ("arity", toString k.arity)]

/-! ## Ways to apply a kernel -/

/-- Applies a rule for two values; further values are ignored. -/
def binary (rule : (d : DType) → Value → Value → d.Elem) (args : List Value) (d : DType) :
    Except Fault Value :=
  match args with
  | a :: b :: _ => .ok ⟨d, rule d a b⟩
  | _ => .error .missingOperand

/-- Applies a rule for three values; further values are ignored. -/
def ternary (rule : (d : DType) → Value → Value → Value → d.Elem) (args : List Value) (d : DType) :
    Except Fault Value :=
  match args with
  | a :: b :: c :: _ => .ok ⟨d, rule d a b c⟩
  | _ => .error .missingOperand

/-- Adds one more value to a sum held in 128 bits. -/
def addWide (sum : Int) (v : Value) : Except Fault Int :=
  let next := sum + v.toInt
  if Word.wide next = next then .ok next else .error .overflow

/-- The sum of the integer readings of all values. -/
def sum (args : List Value) (d : DType) : Except Fault Value := do
  let total ← args.foldlM addWide 0
  return ⟨d, d.ofInt total⟩

/-- The first value as it is, whatever its type. -/
def first (args : List Value) (_ : DType) : Except Fault Value :=
  match args with
  | a :: _ => .ok a
  | [] => .error .missingOperand

/-- The last value, converted to the result type. -/
def last (args : List Value) (d : DType) : Except Fault Value :=
  match args.getLast? with
  | some a => .ok (a.cast d)
  | none => .error .missingOperand

end Kernel

end Broadcast
