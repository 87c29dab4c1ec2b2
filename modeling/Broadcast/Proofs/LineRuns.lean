import Broadcast.Proofs.LineSplitting

/-!
# Runs of lines

A source may go on after an end or an error: asked again, it answers again, and nothing keeps it
from giving further lines. The lines of a source do not. They pass on its answers up to the first
end or error, and give nothing from then on (`items_eq`). After that answer the source is left
alone, which is said with a source that records what it answers (`recorded`).

What is asked of the source is a part of what it would answer to as many requests, cut after the
first answer that is not a line, so that this answer is heard and nothing behind it is.
-/

namespace Broadcast

variable {σ : Type}

/-! ## Answers -/

namespace Answer

/-- Whether an answer is an end or an error. -/
def isStop : Answer → Bool
  | .ok (some _) => false
  | _ => true

/-- What the lines of a source give for an answer. -/
def item : Answer → Option (Except Error String)
  | .ok (some text) => some (.ok text)
  | .ok none => none
  | .error e => some (.error e)

/-- Answers that are neither ends nor errors are lines. -/
theorem exists_texts : ∀ {answers : List Answer}, (∀ answer ∈ answers, answer.isStop = false) →
    ∃ texts : List String, answers = texts.map fun text => .ok (some text)
  | [], _ => ⟨[], rfl⟩
  | answer :: answers, h => by
    obtain ⟨hline, hrest⟩ := List.forall_mem_cons.mp h
    obtain ⟨texts, rfl⟩ := exists_texts hrest
    rcases answer with e | _ | text
    · cases hline
    · cases hline
    · exact ⟨text :: texts, rfl⟩

theorem map_item (texts : List String) :
    (texts.map fun text => (.ok (some text) : Answer)).map item
      = texts.map fun text => some (.ok text) := by
  rw [List.map_map]
  rfl

end Answer

/-! ## Requests to a source -/

namespace LineSource

variable (source : LineSource σ)

@[simp] theorem length_ask (count : Nat) (state : σ) :
    (source.ask count state).1.length = count := by
  induction count generalizing state with
  | zero => rfl
  | succ count ih => rw [ask_succ, List.length_cons, ih]

/-- The source with a record of the answers it has given. -/
def recorded : LineSource (σ × List Answer) where
  next s := ((source.next s.1).1, (source.next s.1).2, s.2 ++ [(source.next s.1).1])

/-- A source with a record gives the same answers, and its record grows by them. -/
theorem ask_recorded (count : Nat) (state : σ) (record : List Answer) :
    source.recorded.ask count (state, record) = ((source.ask count state).1,
      (source.ask count state).2, record ++ (source.ask count state).1) := by
  induction count generalizing state record with
  | zero => simp [ask]
  | succ count ih =>
    rw [ask_succ, ask_succ]
    show ((source.next state).1 :: (source.recorded.ask count ((source.next state).2, _)).1,
      (source.recorded.ask count ((source.next state).2, _)).2) = _
    rw [ih, List.append_assoc]
    rfl

end LineSource

/-! ## Runs -/

namespace Lines

variable (source : LineSource σ)

/-- What `count` calls give one after the other, and the lines after them. -/
def items : (count : Nat) → Lines σ → List (Option (Except Error String)) × Lines σ
  | 0, lines => ([], lines)
  | count + 1, lines =>
    let (item, lines) := next source lines
    let (rest, lines) := items count lines
    (item :: rest, lines)

theorem items_succ (count : Nat) (lines : Lines σ) :
    items source (count + 1) lines
      = ((next source lines).1 :: (items source count (next source lines).2).1,
        (items source count (next source lines).2).2) := rfl

/-- Lines that are not done pass on one answer of the source, and are done if it is a stop. -/
theorem next_of_open (state : σ) :
    next source ⟨state, false⟩
      = ((source.next state).1.item, ⟨(source.next state).2, (source.next state).1.isStop⟩) := by
  unfold next
  rcases source.next state with ⟨e | _ | text, after⟩ <;> rfl

/-- Lines that are done give nothing and leave the source alone. -/
theorem items_of_done (count : Nat) (state : σ) :
    items source count ⟨state, true⟩ = (List.replicate count none, ⟨state, true⟩) := by
  induction count with
  | zero => rfl
  | succ count ih =>
    have hnext : next source ⟨state, true⟩ = (none, ⟨state, true⟩) := rfl
    rw [items_succ, hnext, ih, List.replicate_succ]

/-- Of the answers to `count` requests, those up to the first stop, with it. -/
def heard (state : σ) (count : Nat) : List Answer :=
  (splitAfter Answer.isStop (source.ask count state).1).1

theorem heard_of_stop {state : σ} (h : (source.next state).1.isStop = true) (count : Nat) :
    heard source state (count + 1) = [(source.next state).1] := by
  rw [heard, LineSource.ask_succ, splitAfter, if_pos h]

theorem heard_of_line {state : σ} (h : (source.next state).1.isStop = false) (count : Nat) :
    heard source state (count + 1)
      = (source.next state).1 :: heard source (source.next state).2 count := by
  rw [heard, LineSource.ask_succ, splitAfter, if_neg (by simp [h])]
  rfl

/-- Asked only as often as it is heard, the source answers what is heard. -/
theorem ask_heard (count : Nat) (state : σ) :
    (source.ask (heard source state count).length state).1 = heard source state count := by
  induction count generalizing state with
  | zero => rfl
  | succ count ih =>
    cases hstop : (source.next state).1.isStop with
    | true =>
      rw [heard_of_stop source hstop]
      rfl
    | false => rw [heard_of_line source hstop, List.length_cons, LineSource.ask_succ, ih]

/--
A run passes on the answers up to the first stop, and the source is where these leave it.

The induction is on the number of calls. A stop makes the lines done, and the rest of the run is one
of lines that are; after a line the run goes on as from the start.
-/
theorem items_eq (count : Nat) (state : σ) :
    (items source count ⟨state, false⟩).1
        = (heard source state count).map Answer.item
          ++ List.replicate (count - (heard source state count).length) none ∧
      (items source count ⟨state, false⟩).2.state
        = (source.ask (heard source state count).length state).2 := by
  induction count generalizing state with
  | zero => exact ⟨rfl, rfl⟩
  | succ count ih =>
    rw [items_succ, next_of_open]
    cases hstop : (source.next state).1.isStop with
    | true =>
      rw [heard_of_stop source hstop, items_of_done]
      exact ⟨rfl, rfl⟩
    | false =>
      obtain ⟨hitems, hstate⟩ := ih (source.next state).2
      rw [heard_of_line source hstop, hitems, hstate, List.map_cons, List.length_cons,
        Nat.add_sub_add_right]
      exact ⟨rfl, rfl⟩

/-- The answers for which the lines of a source have asked it in `count` calls. -/
def polled (state : σ) (count : Nat) : List Answer :=
  (items source.recorded count ⟨(state, []), false⟩).2.state.2

/-- The lines of a source ask it for nothing but the answers up to the first stop. -/
theorem polled_eq_heard (state : σ) (count : Nat) :
    polled source state count = heard source state count := by
  have hsame : heard source.recorded (state, []) count = heard source state count := by
    rw [heard, heard, LineSource.ask_recorded]
  rw [polled, (items_eq source.recorded count (state, [])).2, hsame, LineSource.ask_recorded,
    List.nil_append, ask_heard]

end Lines

/--
**The lines of a source end for good.** Compare any number of calls with what the source would
answer to as many requests, whatever that is. If all these answers are lines, the calls give them
and the source is asked for all of them. Otherwise the calls give the lines before the first end or
error, then the error if it is one, and nothing in every later call; and the source is asked for
these lines and that first end or error, and never again.
-/
theorem lines_fused (source : LineSource σ) (state : σ) (count : Nat) :
    (∃ texts : List String,
      (source.ask count state).1 = texts.map (fun text => .ok (some text)) ∧
      (Lines.items source count ⟨state, false⟩).1 = texts.map (fun text => some (.ok text)) ∧
      Lines.polled source state count = (source.ask count state).1) ∨
    ∃ (texts : List String) (stop : Answer) (unheard : List Answer),
      (source.ask count state).1 = texts.map (fun text => .ok (some text)) ++ stop :: unheard ∧
      Lines.polled source state count = texts.map (fun text => .ok (some text)) ++ [stop] ∧
      (stop = .ok none ∧
          (Lines.items source count ⟨state, false⟩).1
            = texts.map (fun text => some (.ok text))
              ++ List.replicate (unheard.length + 1) none ∨
        ∃ e, stop = .error e ∧
          (Lines.items source count ⟨state, false⟩).1
            = texts.map (fun text => some (.ok text))
              ++ some (.error e) :: List.replicate unheard.length none) := by
  have hlength := source.length_ask count state
  have hitems := (Lines.items_eq source count state).1
  rw [Lines.polled_eq_heard]
  unfold Lines.heard at hitems ⊢
  rcases exists_first_or_forall Answer.isStop (source.ask count state).1 with
    ⟨front, stop, unheard, hanswers, hfront, hstop⟩ | hlines
  · right
    rw [hanswers, splitAfter_of_first hfront hstop] at hitems ⊢
    obtain ⟨texts, rfl⟩ := Answer.exists_texts hfront
    have hrest : count - (texts.length + 1) = unheard.length := by
      rw [hanswers] at hlength
      simp only [List.length_append, List.length_map, List.length_cons] at hlength
      omega
    rw [List.map_append, Answer.map_item, List.length_append, List.length_map, List.length_singleton,
      hrest, List.append_assoc] at hitems
    refine ⟨texts, stop, unheard, rfl, rfl, ?_⟩
    rcases stop with e | _ | text
    · exact .inr ⟨e, rfl, hitems⟩
    · exact .inl ⟨rfl, hitems⟩
    · cases hstop
  · left
    rw [splitAfter_of_forall hlines] at hitems ⊢
    obtain ⟨texts, htexts⟩ := Answer.exists_texts hlines
    rw [hlength, Nat.sub_self, htexts, Answer.map_item, List.replicate_zero, List.append_nil]
      at hitems
    exact ⟨texts, htexts, hitems, rfl⟩

/-- A stream with a line behind its failure, which the lines of the stream do not reach. -/
example :
    (Lines.items Reader.lines 4
      ⟨.ofChunks [.bytes [0x61, 0x0a], .failure "lost", .bytes [0x62, 0x0a]], false⟩).1
      = [some (.ok "a\n"), some (.error (.io "lost")), none, none] := by
  rfl

end Broadcast
