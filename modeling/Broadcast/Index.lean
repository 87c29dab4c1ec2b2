import Broadcast.Shape

/-!
# Indices

An index has one component for each axis of a shape. Indices are walked in row-major order, the
last component running fastest: `advance` goes to the next index of that order and `unravel` starts
at a given place in it.
-/

namespace Broadcast

/-- A component for each axis, outermost first. -/
abbrev Index := List Nat

namespace Index

/-- Whether an index has one component for each axis, below its size. -/
def InBounds : Index → Shape → Prop
  | [], [] => True
  | i :: index, n :: s => i < n ∧ InBounds index s
  | _, _ => False

instance decidableInBounds : (index : Index) → (s : Shape) → Decidable (InBounds index s)
  | [], [] => inferInstanceAs (Decidable True)
  | i :: index, n :: s =>
    have := decidableInBounds index s
    inferInstanceAs (Decidable (i < n ∧ InBounds index s))
  | [], _ :: _ => inferInstanceAs (Decidable False)
  | _ :: _, [] => inferInstanceAs (Decidable False)

theorem length_of_inBounds {index : Index} {s : Shape} (h : InBounds index s) :
    index.length = s.length := by
  induction index generalizing s with
  | nil =>
    cases s with
    | nil => rfl
    | cons n s => exact absurd h id
  | cons i index ih =>
    cases s with
    | nil => exact absurd h id
    | cons n s => simp [ih h.2]

def origin (s : Shape) : Index :=
  List.replicate s.length 0

/--
One step of an odometer: the new index, and whether it has passed the end and starts anew. The last
component counts up; a component that reaches its size is set to zero and carries to its left.
-/
def step : Shape → Index → Bool × Index
  | n :: s, i :: index =>
    match step s index with
    | (false, rest) => (false, i :: rest)
    | (true, rest) => if i + 1 < n then (false, (i + 1) :: rest) else (true, 0 :: rest)
  | _, index => (true, index)

/-- The index after `index` in row-major order, or the first one after the last. -/
def advance (s : Shape) (index : Index) : Index :=
  (step s index).2

@[simp] theorem length_origin (s : Shape) : (origin s).length = s.length := by
  simp [origin]

theorem length_step (s : Shape) (index : Index) : (step s index).2.length = index.length := by
  induction s generalizing index with
  | nil => simp [step]
  | cons n s ih =>
    cases index with
    | nil => simp [step]
    | cons i index =>
      have h := ih index
      simp only [step]
      split
      · next heq => simpa [heq] using h
      · next heq =>
        rw [heq] at h
        split <;> simpa using h

@[simp] theorem length_advance (s : Shape) (index : Index) :
    (advance s index).length = index.length :=
  length_step s index

/-- The mixed-radix digits of `flat`, last axis first, and what remains of it. -/
def digits (flat : Nat) : Shape → Except Fault (Nat × Index)
  | [] => .ok (flat, [])
  | n :: s => do
    let low ← digits flat s
    if n = 0 then .error .divisionByZero else .ok (low.1 / n, (low.1 % n) :: low.2)

/-- The index at a place in row-major order. Places repeat once all indices are used up. -/
def unravel (flat : Nat) (s : Shape) : Except Fault Index := do
  let low ← digits flat s
  return low.2

theorem length_of_digits {flat rest : Nat} {s : Shape} {index : Index}
    (h : digits flat s = .ok (rest, index)) : index.length = s.length := by
  induction s generalizing rest index with
  | nil =>
    cases h
    rfl
  | cons n s ih =>
    obtain ⟨low, hd, h⟩ := bind_eq_ok_iff.mp h
    split at h
    · cases h
    · cases h
      simp [ih hd]

/-- Reads `count` elements in row-major order, beginning at `index`. -/
def collect {α : Type} (s : Shape) (read : Index → Except Fault α) :
    (count : Nat) → (index : Index) → (found : Array α) → Except Fault (Array α)
  | 0, _, found => .ok found
  | count + 1, index, found => do
    let x ← read index
    collect s read count (advance s index) (found.push x)

/-- Reads the element at every index of a shape, in row-major order. -/
def traverse {α : Type} (s : Shape) (read : Index → Except Fault α) :
    Except Fault (Array α) := do
  let count ← s.numel
  collect s read count (origin s) #[]

/-- Every index of a shape, in row-major order. -/
def all (s : Shape) : Except Fault (Array Index) :=
  traverse s .ok

end Index

end Broadcast
