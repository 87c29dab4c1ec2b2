import Broadcast.Error

/-!
# Lines

A line source is asked for one line at a time. It answers with a line, which keeps its terminator,
with the end of the text or with an error, and may be asked again after any of these. The lines of a
source are what it answers up to its first end or error.
-/

namespace Broadcast

/-- The answer to a request for a line; `none` is the end of the text. -/
abbrev Answer := Except Error (Option String)

/-- A source of lines with states of type `σ`. -/
structure LineSource (σ : Type) where
  next : σ → Answer × σ

namespace LineSource

variable {σ : Type}

/-- The answers to `count` requests, and the state after them. -/
def ask (source : LineSource σ) : (count : Nat) → σ → List Answer × σ
  | 0, state => ([], state)
  | count + 1, state =>
    let (answer, state) := source.next state
    let (answers, state) := source.ask count state
    (answer :: answers, state)

end LineSource

/-- The lines of a source from some state on, until they are done. -/
structure Lines (σ : Type) where
  state : σ
  done : Bool := false

namespace Lines

variable {σ : Type}

/-- The next line or error, if there is one. A source is left alone once the lines are done. -/
def next (source : LineSource σ) (lines : Lines σ) : Option (Except Error String) × Lines σ :=
  if lines.done then (none, lines)
  else
    match source.next lines.state with
    | (.ok (some line), state) => (some (.ok line), { lines with state })
    | (.ok none, state) => (none, ⟨state, true⟩)
    | (.error e, state) => (some (.error e), ⟨state, true⟩)

/-- The lines of a source, seen as a source that has ended for good after its first end or error. -/
def source (source : LineSource σ) : LineSource (Lines σ) where
  next lines :=
    match next source lines with
    | (some (.ok line), lines) => (.ok (some line), lines)
    | (some (.error e), lines) => (.error e, lines)
    | (none, lines) => (.ok none, lines)

end Lines

/-! ## Splitting -/

/-- The items up to the first one that satisfies `p`, with it, and the items after it. -/
def splitAfter {α : Type} (p : α → Bool) : List α → List α × List α
  | [] => ([], [])
  | x :: xs =>
    if p x then ([x], xs)
    else
      let (taken, rest) := splitAfter p xs
      (x :: taken, rest)

theorem splitAfter_append {α : Type} (p : α → Bool) (xs : List α) :
    (splitAfter p xs).1 ++ (splitAfter p xs).2 = xs := by
  induction xs with
  | nil => rfl
  | cons x xs ih =>
    by_cases h : p x <;> simp [splitAfter, h, ih]

theorem splitAfter_ne_nil {α : Type} (p : α → Bool) {xs : List α} (h : xs ≠ []) :
    (splitAfter p xs).1 ≠ [] := by
  cases xs with
  | nil => exact absurd rfl h
  | cons x xs => by_cases hx : p x <;> simp [splitAfter, hx]

/-- The lines of a text held in memory; the state is the text that is left. -/
def textLines : LineSource (List Char) where
  next
    | [] => (.ok none, [])
    | text =>
      let (line, rest) := splitAfter (· = '\n') text
      (.ok (some (String.ofList line)), rest)

end Broadcast
