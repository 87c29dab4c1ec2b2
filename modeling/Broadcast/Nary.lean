import Broadcast.Layout
import Broadcast.Pointwise
import Broadcast.Text.Quoted

/-!
# Pointwise expressions

A pointwise function over operands that are broadcast together. Nothing is computed before an
element is read.
-/

namespace Broadcast

/-- A pointwise function with its operands. -/
structure Nary where
  fn : Pointwise
  args : List (Operand Value)
  layout : Layout

namespace Nary

/-- The expression of a function over as many operands as it takes. -/
def of (fn : Pointwise) (args : List (Operand Value)) : Except Error Nary :=
  if args.length ≠ fn.arity then .error (.arityMismatch fn.name fn.arity args.length)
  else do
    let layout ← Layout.of (args.map (·.shape)) (args.map (·.dtype))
    return ⟨fn, args, layout⟩

/-- The type that the expression reports: that of its result, or the promoted type if any. -/
def dtype (e : Nary) : DType :=
  match e.fn.result with
  | .typed d => d
  | .any => e.layout.dtype

theorem dtype_of_result {e : Nary} {d : DType} (h : e.fn.result = .typed d) : e.dtype = d := by
  unfold dtype
  rw [h]

def read (e : Nary) (index : Index) : Except Fault Value := do
  let elements ← e.layout.gather e.args index
  e.fn.apply elements

def toOperand (e : Nary) : Operand Value :=
  ⟨e.layout.shape, e.dtype, e.read⟩

/-- The function at the first element of each operand, whatever the common shape. -/
def applyAtOrigins (e : Nary) : Except Fault Value := do
  let elements ← e.args.mapM fun x => x.read (Index.origin x.shape)
  e.fn.apply elements

/-- A description of the expression, with its operands left blank. -/
def describe (e : Nary) : String :=
  Text.record "NaryExpr" [
    ("args", "(" ++ ", ".intercalate (e.args.map fun _ => "_") ++ ")"),
    ("shape", "Shape(" ++ e.layout.shape.render ++ ")"),
    ("dtype", e.layout.dtype.title)]

end Nary

end Broadcast
