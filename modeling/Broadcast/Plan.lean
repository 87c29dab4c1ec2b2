import Broadcast.Index

/-!
# Broadcast plans

A plan carries an index of a broadcast shape back to one operand. The components of the axes that
the operand lacks are dropped, and on the axes where it has size one the component becomes zero. A
plan hangs on the operand's shape and the output rank alone, so it is made once per operand.
-/

namespace Broadcast

/-- How the indices of an output are read by one operand. -/
structure Plan where
  /-- The number of leading output axes that the operand lacks. -/
  lead : Nat
  /-- For each axis of the operand, whether it follows the output or always reads zero. -/
  keep : List Bool
  deriving DecidableEq, Repr

namespace Plan

/-- The plan for an operand whose rank is at most the output rank. -/
def align (operand : Shape) (rank : Nat) : Plan :=
  ⟨rank - operand.length, operand.map (· ≠ 1)⟩

/-- The plan for an operand under an output rank; a larger operand is a fault. -/
def of (operand : Shape) (rank : Nat) : Except Fault Plan :=
  if operand.length ≤ rank then .ok (align operand rank)
  else .error (.rankExceeds operand.length rank)

def rank (p : Plan) : Nat :=
  p.keep.length

/-- For each axis of the operand, whether it is broadcast. -/
def broadcastAxes (p : Plan) : List Bool :=
  p.keep.map (!·)

/-- The operand's index for an output index, whose components are not checked. -/
def project (p : Plan) (index : Index) : Index :=
  (index.drop p.lead).zipWith (fun i keep => if keep then i else 0) p.keep

/-- The operand's index for an output index of the right rank. -/
def map (p : Plan) (index : Index) : Except Fault Index :=
  if index.length = p.lead + p.rank then .ok (p.project index) else .error .rankMismatch

@[simp] theorem rank_align (operand : Shape) (rank : Nat) :
    (align operand rank).rank = operand.length := by
  simp [align, Plan.rank]

/-- A plan for an operand that fits takes indices of the output rank. -/
theorem lead_add_rank_align {operand : Shape} {rank : Nat} (h : operand.length ≤ rank) :
    (align operand rank).lead + (align operand rank).rank = rank := by
  rw [rank_align]
  show rank - operand.length + operand.length = rank
  omega

theorem map_eq_ok_iff {p : Plan} {index own : Index} :
    p.map index = .ok own ↔ index.length = p.lead + p.rank ∧ p.project index = own := by
  unfold map
  split <;> simp [*]

/-- A mapped index has a component for each axis of the operand. -/
theorem length_of_map {p : Plan} {index own : Index} (h : p.map index = .ok own) :
    own.length = p.rank := by
  obtain ⟨hl, rfl⟩ := map_eq_ok_iff.mp h
  simp only [project, List.length_zipWith, List.length_drop, hl]
  show min (p.lead + p.rank - p.lead) p.rank = p.rank
  omega

end Plan

end Broadcast
