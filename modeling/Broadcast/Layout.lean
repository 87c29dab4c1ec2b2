import Broadcast.DType.Promotion
import Broadcast.Operand
import Broadcast.Plan

/-!
# Layouts

A layout is what an expression settles once, when it is built: the common shape of its operands,
their promoted type and one plan for each operand. Reading an expression then gathers one element of
each operand through the plans.
-/

namespace Broadcast

/-- The shape and the promoted type of an expression, and how it reads its operands. -/
structure Layout where
  shape : Shape
  dtype : DType
  plans : List Plan
  deriving DecidableEq, Repr

namespace Layout

/-- The layout over operands of these shapes, promoting the given types. -/
def of (shapes : List Shape) (types : List DType) : Except Conflict Layout := do
  let shape ← Shape.broadcast shapes
  return ⟨shape, DType.promoteAll types, shapes.map (Plan.align · shape.rank)⟩

theorem length_plans_of {shapes : List Shape} {types : List DType} {l : Layout}
    (h : of shapes types = .ok l) : l.plans.length = shapes.length := by
  obtain ⟨shape, _, h⟩ := bind_eq_ok_iff.mp h
  cases h
  simp

/-- The element of each operand that belongs to an output index. -/
def gather {α : Type} (l : Layout) (args : List (Operand α)) (index : Index) :
    Except Fault (List α) :=
  (args.zip l.plans).mapM fun (x, plan) => do
    let own ← plan.map index
    x.read own

end Layout

end Broadcast
