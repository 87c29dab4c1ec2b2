/-!
# Faults

A fault is a broken precondition: the caller asked for something that has no answer, such as an
index outside an array or a size that does not fit a machine word. Faults are kept apart from the
errors of `Broadcast.Error`, which report inputs that the library is meant to judge.
-/

namespace Broadcast

/-- Why a computation has no answer. -/
inductive Fault where
  /-- A size or an address left the 64-bit range. -/
  | overflow
  /-- An index has another number of components than the thing it indexes. -/
  | rankMismatch
  /-- A position lies outside the storage or the axis it refers to. -/
  | outOfBounds
  /-- A division by a zero size or a zero count. -/
  | divisionByZero
  /-- A function was given too few operands. -/
  | missingOperand
  /-- A list of axes is not a rearrangement of all axes. -/
  | invalidPermutation
  /-- An operand has more axes than the output it is mapped from. -/
  | rankExceeds (operand output : Nat)
  /-- A kernel's operand count is outside the accepted range. -/
  | kernelArity (name : String) (arity : Nat)
  /-- A kernel leaves all of its operands out of promotion. -/
  | kernelPromotion (name : String) (promoteFrom arity : Nat)
  deriving DecidableEq, Repr

namespace Fault

/-- The explanation that goes with a fault, for those that name what was wrong. -/
def message? : Fault → Option String
  | invalidPermutation => some "invalid permutation"
  | rankExceeds operand output =>
    some ("operand rank " ++ toString operand ++ " exceeds output rank " ++ toString output)
  | kernelArity name arity =>
    some ("kernel '" ++ name ++ "' has arity " ++ toString arity ++ ", expected 2..=4")
  | kernelPromotion name promoteFrom arity =>
    some ("kernel '" ++ name ++ "' promotes from operand " ++ toString promoteFrom
      ++ " but takes " ++ toString arity)
  | _ => none

end Fault

/-- A sequence of two computations succeeds exactly if both do. -/
theorem bind_eq_ok_iff {ε α β : Type} {x : Except ε α} {f : α → Except ε β} {b : β} :
    x >>= f = .ok b ↔ ∃ a, x = .ok a ∧ f a = .ok b := by
  cases x with
  | error e => simp [bind, Except.bind]
  | ok a => simp [bind, Except.bind]

end Broadcast
