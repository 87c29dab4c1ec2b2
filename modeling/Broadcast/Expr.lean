import Broadcast.Nary
import Broadcast.Registry

/-!
# Expression trees

Expressions as syntax: leaves with their data and nodes that name an operation and its operands.
Building a tree turns it into an operand, or reports the first thing that is wrong with it, going
through operands from left to right before their node.
-/

namespace Broadcast

/-- What a strided view is made from. -/
structure ViewSpec (α : Type) where
  data : Array α
  dims : Shape
  /-- The strides and the offset; none for the row-major view of all of the data. -/
  placement : Option (List Int × Nat)
  /-- Orders of the axes to apply one after another. -/
  permutations : List (List Nat)

/-- The view that a specification describes. -/
def ViewSpec.build {α : Type} (spec : ViewSpec α) : Except Error (View α) := do
  let v ← match spec.placement with
    | none => View.contiguous spec.data spec.dims
    | some (strides, offset) => View.new spec.data spec.dims strides offset
  spec.permutations.foldlM (View.permute · ·) v

/-- An expression tree. -/
inductive Expr where
  /-- A single element. -/
  | scalar (d : DType) (x : d.Elem)
  /-- A dense array with the given elements. -/
  | dense (d : DType) (data : Array d.Elem) (dims : Shape)
  /-- A dense array with one element everywhere. -/
  | fill (d : DType) (x : d.Elem) (dims : Shape)
  /-- A dense array whose elements are a function of the index. -/
  | tabulate (d : DType) (dims : Shape) (f : Index → d.Elem)
  /-- A strided view. -/
  | view (d : DType) (spec : ViewSpec d.Elem)
  /-- Each element of the source several times in a row. -/
  | repeated (source : Expr) (times : Nat)
  /-- A kernel by name. -/
  | apply (name : String) (args : List Expr)
  /-- A pointwise function. -/
  | pointwise (fn : Pointwise) (args : List Expr)

namespace Expr

mutual

/-- The operand that a tree stands for. -/
def build (r : Registry) : Expr → Except Error (Operand Value)
  | .scalar d x => .ok (.scalar d ⟨d, x⟩)
  | .dense d data dims => do
    let a ← Dense.ofArray data dims
    return (a.toOperand d).map (Value.mk d)
  | .fill d x dims => do
    let a ← Dense.fill dims x
    return (a.toOperand d).map (Value.mk d)
  | .tabulate d dims f => do
    let a ← Dense.ofFn dims f
    return (a.toOperand d).map (Value.mk d)
  | .view d spec => do
    let v ← spec.build
    return (v.toOperand d).map (Value.mk d)
  | .repeated source times => do
    let x ← build r source
    x.repeated times
  | .apply name args => do
    let xs ← buildAll r args
    let e ← r.build name xs
    return e.toOperand
  | .pointwise fn args => do
    let xs ← buildAll r args
    let e ← Nary.of fn xs
    return e.toOperand

/-- The operands of a node, from left to right. -/
def buildAll (r : Registry) : List Expr → Except Error (List (Operand Value))
  | [] => .ok []
  | e :: es => do
    let x ← build r e
    let xs ← buildAll r es
    return x :: xs

end

/--
The 64-bit integer that a start value and the components of an index make, as digits to a base that
is a 64-bit integer itself, wrapping around.
-/
def positional (base start : BitVec 64) (index : Index) : BitVec 64 :=
  index.foldl (fun acc i => acc * base + BitVec.ofNat 64 i) start

end Expr

end Broadcast
