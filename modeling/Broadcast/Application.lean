import Broadcast.Kernel
import Broadcast.Layout

/-!
# Kernel applications

A kernel over operands that are broadcast together. As with pointwise expressions, nothing is
computed before an element is read.
-/

namespace Broadcast

/-- A kernel with its operands. -/
structure Application where
  kernel : Kernel
  args : List (Operand Value)
  layout : Layout

namespace Application

/--
The application of a kernel to some operands. The number of operands is judged first, then their
shapes and last their promoted type.
-/
def of (kernel : Kernel) (args : List (Operand Value)) : Except Error Application :=
  if args.length ≠ kernel.arity then
    .error (.arityMismatch kernel.name kernel.arity args.length)
  else if !Kernel.acceptsArity args.length then
    .error (.arityMismatch kernel.name (Kernel.clampArity args.length) args.length)
  else do
    let layout ← Layout.of (args.map (·.shape)) ((args.drop kernel.promoteFrom).map (·.dtype))
    if kernel.supports layout.dtype then .ok ⟨kernel, args, layout⟩
    else .error (.unsupportedDType kernel.name layout.dtype)

def read (e : Application) (index : Index) : Except Fault Value := do
  let elements ← e.layout.gather e.args index
  e.kernel.apply elements e.layout.dtype

def toOperand (e : Application) : Operand Value :=
  ⟨e.layout.shape, e.layout.dtype, e.read⟩

/-- A description of the application, without its operands. -/
def describe (e : Application) : String :=
  Text.record "DynExpr" [
    ("op", Text.quoted e.kernel.name),
    ("shape", "Shape(" ++ e.layout.shape.render ++ ")"),
    ("dtype", e.layout.dtype.title)]

end Application

end Broadcast
