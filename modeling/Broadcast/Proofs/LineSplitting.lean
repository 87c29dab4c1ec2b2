import Mathlib.Logic.ExistsUnique
import Broadcast.Lines.Reader
import Broadcast.Proofs.ByteOrder

/-!
# Lines of a text

A text falls into lines in one way only (`IsLines`): no line is empty, a line feed ends its line,
and every line but the last has one. A text in memory gives these lines and ends, and so does a
stream that brings the bytes of the text, wherever the chunks are cut (`lines_lossless`).

Characters and bytes are cut at the same places because the byte of a line feed stands in the
encoding of no other character (`splitAfter_flatMap_utf8EncodeChar`). So a stream answers each
request as the text would, and holds the bytes of what is left of the text (`Reader.next_of_holds`).
-/

namespace Broadcast

/-! ## Splitting at the first match -/

section SplitAfter

variable {α : Type} {p : α → Bool} {front rest xs : List α} {x : α}

/-- What comes before the first match is taken, and the search goes on behind it. -/
theorem splitAfter_append_of_forall (h : ∀ y ∈ front, p y = false) (xs : List α) :
    splitAfter p (front ++ xs) = (front ++ (splitAfter p xs).1, (splitAfter p xs).2) := by
  induction front with
  | nil => rfl
  | cons y front ih =>
    obtain ⟨hy, hfront⟩ := List.forall_mem_cons.mp h
    simp [splitAfter, hy, ih hfront]

theorem splitAfter_of_first (h : ∀ y ∈ front, p y = false) (hx : p x) (rest : List α) :
    splitAfter p (front ++ x :: rest) = (front ++ [x], rest) := by
  simp [splitAfter_append_of_forall h, splitAfter, hx]

theorem splitAfter_of_forall (h : ∀ y ∈ xs, p y = false) : splitAfter p xs = (xs, []) := by
  simpa [splitAfter] using splitAfter_append_of_forall h []

/-- There is a first match, or none at all. -/
theorem exists_first_or_forall (p : α → Bool) (xs : List α) :
    (∃ front x rest, xs = front ++ x :: rest ∧ (∀ y ∈ front, p y = false) ∧ p x) ∨
      ∀ y ∈ xs, p y = false := by
  cases hfind : xs.find? p with
  | none => exact .inr (by simpa using hfind)
  | some x =>
    obtain ⟨hx, front, rest, rfl, hfront⟩ := List.find?_eq_some_iff_append.mp hfind
    exact .inl ⟨front, x, rest, rfl, by simpa using hfront, hx⟩

/-- Only the last of the items that are taken may match. -/
theorem of_mem_dropLast_splitAfter (hx : x ∈ (splitAfter p xs).1.dropLast) : p x = false := by
  rcases exists_first_or_forall p xs with ⟨front, y, rest, rfl, hfront, hy⟩ | hall
  · rw [splitAfter_of_first hfront hy, List.dropLast_concat] at hx
    exact hfront x hx
  · rw [splitAfter_of_forall hall] at hx
    exact hall x (List.dropLast_subset _ hx)

/-- Where something is left, the last of the items that are taken matches. -/
theorem getLast?_splitAfter (h : (splitAfter p xs).2 ≠ []) :
    ∃ y, (splitAfter p xs).1.getLast? = some y ∧ p y := by
  rcases exists_first_or_forall p xs with ⟨front, y, rest, rfl, hfront, hy⟩ | hall
  · rw [splitAfter_of_first hfront hy]
    exact ⟨y, by simp, hy⟩
  · rw [splitAfter_of_forall hall] at h
    exact absurd rfl h

/-- Something is taken from a list that is not empty. -/
theorem length_splitAfter_lt (p : α → Bool) (h : xs ≠ []) :
    (splitAfter p xs).2.length < xs.length := by
  have hsum := congrArg List.length (splitAfter_append p xs)
  have hpos := List.length_pos_iff.mpr (splitAfter_ne_nil p h)
  rw [List.length_append] at hsum
  omega

theorem forall_decide_eq_false [DecidableEq α] (h : x ∉ xs) : ∀ y ∈ xs, decide (y = x) = false := by
  intro y hy
  refine decide_eq_false ?_
  rintro rfl
  exact h hy

end SplitAfter

/-! ## The lines of a text -/

/--
The lines of a text: one after the other they are the text, none of them is empty, a line feed
stands nowhere but at the end of a line, and none but the last one lacks it.
-/
structure IsLines (text : String) (lines : List String) : Prop where
  join_eq : String.join lines = text
  ne_empty : ∀ line ∈ lines, line ≠ ""
  feed_last : ∀ line ∈ lines, '\n' ∉ line.toList.dropLast
  terminated : ∀ line ∈ lines.dropLast, line.toList.getLast? = some '\n'

namespace IsLines

variable {text line : String} {lines : List String}

theorem nil_iff : IsLines text [] ↔ text = "" := by
  constructor
  · intro h
    exact h.join_eq.symm
  · rintro rfl
    constructor <;> simp

theorem text_ne (h : IsLines text (line :: lines)) : text ≠ "" := by
  rintro rfl
  have hjoin := h.join_eq
  rw [String.join_cons] at hjoin
  exact h.ne_empty line List.mem_cons_self (String.append_eq_empty_iff.mp hjoin).1

/-- A line and the text after it are what splitting after the first line feed gives. -/
theorem splitAfter_eq (h : IsLines text (line :: lines)) :
    splitAfter (· = '\n') text.toList = (line.toList, (String.join lines).toList) := by
  have htext : text.toList = line.toList ++ (String.join lines).toList := by
    rw [← h.join_eq, String.join_cons, String.toList_append]
  have hne : line.toList ≠ [] := by simpa using h.ne_empty line List.mem_cons_self
  have hfront := forall_decide_eq_false (h.feed_last line List.mem_cons_self)
  have hsplit := List.dropLast_concat_getLast hne
  by_cases hlast : line.toList.getLast hne = '\n'
  · rw [htext, ← hsplit, List.append_assoc]
    exact splitAfter_of_first hfront (by simpa using hlast) _
  · -- A line without a line feed is the last one.
    cases lines with
    | nil =>
      have hall : ∀ c ∈ line.toList, decide (c = '\n') = false := by
        rw [← hsplit]
        simpa [or_imp, forall_and, hlast] using hfront
      simp [htext, splitAfter_of_forall hall]
    | cons next lines =>
      have hterminated := h.terminated line (by simp)
      rw [List.getLast?_eq_some_getLast hne] at hterminated
      exact absurd (Option.some.inj hterminated) hlast

theorem tail (h : IsLines text (line :: lines)) : IsLines (String.join lines) lines where
  join_eq := rfl
  ne_empty l hl := h.ne_empty l (List.mem_cons_of_mem _ hl)
  feed_last l hl := h.feed_last l (List.mem_cons_of_mem _ hl)
  terminated l hl := by
    refine h.terminated l ?_
    cases lines with
    | nil => exact absurd hl List.not_mem_nil
    | cons next lines => exact List.mem_cons_of_mem _ hl

/-- A line taken from the front of a text goes before the lines of the rest. -/
theorem cons (hne : text ≠ "")
    (h : IsLines (.ofList (splitAfter (· = '\n') text.toList).2) lines) :
    IsLines text (.ofList (splitAfter (· = '\n') text.toList).1 :: lines) where
  join_eq := by
    rw [String.join_cons, h.join_eq, ← String.ofList_append, splitAfter_append,
      String.ofList_toList]
  ne_empty := by
    refine List.forall_mem_cons.mpr ⟨?_, h.ne_empty⟩
    have htaken : (splitAfter (· = '\n') text.toList).1 ≠ [] :=
      splitAfter_ne_nil _ (by simpa using hne)
    simpa using htaken
  feed_last := by
    refine List.forall_mem_cons.mpr ⟨?_, h.feed_last⟩
    intro hmem
    rw [String.toList_ofList] at hmem
    exact absurd (of_mem_dropLast_splitAfter hmem) (by simp)
  terminated := by
    cases lines with
    | nil => simp
    | cons next lines =>
      refine List.forall_mem_cons.mpr ⟨?_, h.terminated⟩
      -- A line that follows is not empty, so something is left.
      have hrest : (splitAfter (· = '\n') text.toList).2 ≠ [] := by
        simpa using h.text_ne
      obtain ⟨c, hlast, hc⟩ := getLast?_splitAfter hrest
      rw [String.toList_ofList, hlast, of_decide_eq_true hc]

/-- Every text has lines. -/
theorem exists_lines (text : String) : ∃ lines, IsLines text lines := by
  by_cases hne : text = ""
  · exact ⟨[], nil_iff.mpr hne⟩
  · have hlt : (splitAfter (· = '\n') text.toList).2.length < text.toList.length :=
      length_splitAfter_lt _ (by simpa using hne)
    obtain ⟨lines, hlines⟩ := exists_lines (.ofList (splitAfter (· = '\n') text.toList).2)
    exact ⟨_, hlines.cons hne⟩
termination_by text.toList.length
decreasing_by rwa [String.toList_ofList]

/-- A text has no other lines. -/
theorem unique : ∀ {lines lines' : List String} {text : String},
    IsLines text lines → IsLines text lines' → lines = lines'
  | [], [], _, _, _ => rfl
  | [], _ :: _, _, h, h' => absurd (nil_iff.mp h) h'.text_ne
  | _ :: _, [], _, h, h' => absurd (nil_iff.mp h') h.text_ne
  | line :: lines, line' :: lines', _, h, h' => by
    obtain ⟨hline, hrest⟩ := Prod.mk.inj (h.splitAfter_eq.symm.trans h'.splitAfter_eq)
    rw [String.toList_inj] at hline hrest
    rw [hline, unique h.tail (hrest ▸ h'.tail)]

end IsLines

/-! ## Runs of a source -/

/-- The answers of a source that gives some lines and then has ended for good. -/
def answersOf (lines : List String) (count : Nat) : List Answer :=
  (lines.take count).map (fun line => .ok (some line))
    ++ List.replicate (count - lines.length) (.ok none)

theorem LineSource.ask_succ {σ : Type} (source : LineSource σ) (count : Nat) (state : σ) :
    source.ask (count + 1) state
      = ((source.next state).1 :: (source.ask count (source.next state).2).1,
        (source.ask count (source.next state).2).2) := rfl

/-- Sources that answer alike, state for state, answer alike in every run. -/
theorem LineSource.ask_eq_of_step {σ τ : Type} {source : LineSource σ} {target : LineSource τ}
    {R : σ → τ → Prop}
    (hstep : ∀ s t, R s t →
      (source.next s).1 = (target.next t).1 ∧ R (source.next s).2 (target.next t).2) :
    ∀ (count : Nat) {s : σ} {t : τ}, R s t → (source.ask count s).1 = (target.ask count t).1
  | 0, _, _, _ => rfl
  | count + 1, s, t, h => by
    obtain ⟨hanswer, hnext⟩ := hstep s t h
    rw [ask_succ, ask_succ, hanswer, ask_eq_of_step hstep count hnext]

theorem textLines_next_of_ne {text : List Char} (h : text ≠ []) :
    textLines.next text = (.ok (some (.ofList (splitAfter (· = '\n') text).1)),
      (splitAfter (· = '\n') text).2) := by
  cases text with
  | nil => exact absurd rfl h
  | cons c text => rfl

/-- A text in memory gives its lines and then has ended. -/
theorem ask_textLines : ∀ {count : Nat} {text : String} {lines : List String},
    IsLines text lines → (textLines.ask count text.toList).1 = answersOf lines count
  | 0, _, _, _ => by simp [LineSource.ask, answersOf]
  | count + 1, text, [], h => by
    obtain rfl := IsLines.nil_iff.mp h
    show .ok none :: (textLines.ask count "".toList).1 = answersOf [] (count + 1)
    rw [ask_textLines h]
    simp [answersOf, List.replicate_succ]
  | count + 1, text, line :: lines, h => by
    have hne : text.toList ≠ [] := by simpa using h.text_ne
    have hnext := textLines_next_of_ne hne
    rw [h.splitAfter_eq, String.ofList_toList] at hnext
    rw [LineSource.ask_succ, hnext, ask_textLines h.tail]
    simp [answersOf]

/-! ## Bytes -/

/-- Of all characters, only the line feed has its byte in its encoding. -/
theorem lineFeed_notMem_utf8EncodeChar {c : Char} (hc : c ≠ '\n') :
    Reader.lineFeed ∉ String.utf8EncodeChar c := by
  have hval : c.val.toNat ≠ 10 := by
    intro h
    exact hc (Char.ext (UInt32.toNat_inj.mp h))
  have hlt := Text.toNat_val_lt c
  intro hmem
  have hten : 10 ∈ (String.utf8EncodeChar c).map UInt8.toNat := List.mem_map_of_mem hmem
  -- The first byte of a longer encoding, and every byte after it, is at least 128.
  simp only [String.utf8EncodeChar] at hten
  split_ifs at hten <;>
    simp only [List.map_cons, List.map_nil, List.mem_cons, List.not_mem_nil, or_false,
      UInt8.toNat_ofNat'] at hten <;>
    omega

/-- Characters and their bytes are cut at the same place. -/
theorem splitAfter_flatMap_utf8EncodeChar (text : List Char) :
    splitAfter (· = Reader.lineFeed) (text.flatMap String.utf8EncodeChar)
      = ((splitAfter (· = '\n') text).1.flatMap String.utf8EncodeChar,
        (splitAfter (· = '\n') text).2.flatMap String.utf8EncodeChar) := by
  induction text with
  | nil => rfl
  | cons c text ih =>
    by_cases hc : c = '\n'
    · subst hc
      rfl
    · have hbytes := forall_decide_eq_false (lineFeed_notMem_utf8EncodeChar hc)
      rw [List.flatMap_cons, splitAfter_append_of_forall hbytes, ih]
      simp [splitAfter, hc]

theorem fromUTF8?_bytes (s : String) : String.fromUTF8? ⟨(Text.bytes s).toArray⟩ = some s := by
  have hvalid : s.toUTF8.IsValidUTF8 := s.isValidUTF8
  show String.fromUTF8? s.toUTF8 = some s
  rw [String.fromUTF8?, dif_pos hvalid]
  rfl

/-! ## Streams -/

/--
The chunks bring the given bytes: some bytes at a time, with attempts that are made again in
between, and nothing after an end.
-/
inductive Delivers : List Chunk → List UInt8 → Prop where
  | done : Delivers [] []
  | more {bytes later : List UInt8} {chunks : List Chunk} (ne_nil : bytes ≠ [])
    (rest : Delivers chunks later) : Delivers (.bytes bytes :: chunks) (bytes ++ later)
  | again {later : List UInt8} {chunks : List Chunk} (rest : Delivers chunks later) :
    Delivers (.interrupted :: chunks) later
  | ended {chunks : List Chunk} (rest : Delivers chunks []) : Delivers (.bytes [] :: chunks) []

namespace Reader

/-- The bytes that have arrived and those still to come are the given ones. -/
def Holds (r : Reader) (bytes : List UInt8) : Prop :=
  ∃ later, Delivers r.chunks later ∧ r.pending ++ later = bytes

/-- A line whose end has arrived is taken without looking at the chunks to come. -/
theorem takeLine_of_first {front rest : List UInt8} {b : UInt8}
    (hfront : ∀ y ∈ front, decide (y = lineFeed) = false) (hb : decide (b = lineFeed))
    (line : List UInt8) (consumed : Nat) (chunks : List Chunk) :
    takeLine line (front ++ b :: rest) consumed chunks
      = (.ok (line ++ (front ++ [b])), ⟨rest, chunks, consumed + (front ++ [b]).length⟩) := by
  cases chunks with
  | nil => rw [takeLine, splitAfter_of_first hfront hb]
  | cons chunk chunks =>
    rw [takeLine, splitAfter_of_first hfront hb]
    simp [of_decide_eq_true hb]

/-- A line is taken up to the next line feed of the whole stream, however much has arrived. -/
theorem takeLine_of_delivers {chunks : List Chunk} {later : List UInt8}
    (h : Delivers chunks later) (line pending : List UInt8) (consumed : Nat) :
    ∃ r, takeLine line pending consumed chunks
        = (.ok (line ++ (splitAfter (· = lineFeed) (pending ++ later)).1), r) ∧
      r.Holds (splitAfter (· = lineFeed) (pending ++ later)).2 := by
  rcases exists_first_or_forall (· = lineFeed) pending with
    ⟨front, b, rest, rfl, hfront, hb⟩ | hall
  · rw [List.append_assoc, List.cons_append, splitAfter_of_first hfront hb,
      takeLine_of_first hfront hb]
    exact ⟨_, rfl, later, h, rfl⟩
  · -- All that has arrived is part of the line, and what comes next decides.
    have hlast : pending.getLast? ≠ some lineFeed := by
      intro hlast
      exact absurd (hall _ (List.mem_of_getLast? hlast)) (by simp)
    rw [splitAfter_append_of_forall hall, ← List.append_assoc]
    cases h with
    | done =>
      simp only [takeLine, splitAfter_of_forall hall, splitAfter, List.append_nil]
      exact ⟨_, rfl, [], .done, rfl⟩
    | @more bytes later chunks hne rest =>
      obtain ⟨b, bytes, rfl⟩ := List.exists_cons_of_ne_nil hne
      simp only [takeLine, splitAfter_of_forall hall, if_neg hlast]
      exact takeLine_of_delivers rest _ _ _
    | again rest =>
      simp only [takeLine, splitAfter_of_forall hall, if_neg hlast]
      exact takeLine_of_delivers rest _ _ _
    | ended rest =>
      simp only [takeLine, splitAfter_of_forall hall, if_neg hlast, splitAfter, List.append_nil]
      exact ⟨_, rfl, [], rest, rfl⟩

/-- The bytes of a line are read back as the line. -/
theorem answer_flatMap_utf8EncodeChar {line : List Char} (h : line ≠ []) :
    answer (.ok (line.flatMap String.utf8EncodeChar)) = .ok (some (.ofList line)) := by
  obtain ⟨c, rest, rfl⟩ := List.exists_cons_of_ne_nil h
  have hread := fromUTF8?_bytes (.ofList (c :: rest))
  rw [Text.bytes_eq_flatMap, String.toList_ofList] at hread
  unfold answer
  split
  · next heq => cases heq
  · next heq => simp at heq
  · next bytes _ heq =>
    cases heq
    rw [hread]

/-- One request to a stream that holds the bytes of a text is answered as the text would. -/
theorem next_of_holds {r : Reader} {text : List Char}
    (h : r.Holds (text.flatMap String.utf8EncodeChar)) :
    (lines.next r).1 = (textLines.next text).1 ∧
      (lines.next r).2.Holds ((textLines.next text).2.flatMap String.utf8EncodeChar) := by
  obtain ⟨later, hdelivers, hbytes⟩ := h
  obtain ⟨r', htake, hholds⟩ := takeLine_of_delivers hdelivers [] r.pending r.consumed
  rw [hbytes, splitAfter_flatMap_utf8EncodeChar, List.nil_append] at htake
  rw [hbytes, splitAfter_flatMap_utf8EncodeChar] at hholds
  have hnext : lines.next r = (answer (takeLine [] r.pending r.consumed r.chunks).1,
      (takeLine [] r.pending r.consumed r.chunks).2) := rfl
  rw [hnext, htake]
  cases text with
  | nil => exact ⟨rfl, hholds⟩
  | cons c text =>
    rw [textLines_next_of_ne (List.cons_ne_nil c text)]
    exact ⟨answer_flatMap_utf8EncodeChar (splitAfter_ne_nil _ (List.cons_ne_nil c text)), hholds⟩

end Reader

/--
**Splitting into lines loses nothing.** Every text falls into lines in exactly one way. A text in
memory answers any number of requests with these lines, in order and without an error, and with the
end of the text from then on. So does every stream that brings the bytes of the text, however these
are cut into chunks.
-/
theorem lines_lossless (text : String) :
    (∃! lines, IsLines text lines) ∧
    ∀ lines, IsLines text lines →
      (∀ count, (textLines.ask count text.toList).1 = answersOf lines count) ∧
      ∀ r : Reader, r.Holds (Text.bytes text) →
        ∀ count, (Reader.lines.ask count r).1 = answersOf lines count := by
  obtain ⟨lines, hlines⟩ := IsLines.exists_lines text
  refine ⟨⟨lines, hlines, fun _ hother => hother.unique hlines⟩, ?_⟩
  intro lines hlines
  refine ⟨fun count => ask_textLines hlines, ?_⟩
  intro r hr count
  rw [Text.bytes_eq_flatMap] at hr
  rw [← ask_textLines hlines]
  exact LineSource.ask_eq_of_step (fun _ _ => Reader.next_of_holds) count hr

/-- Lines with an empty one among them, and a character whose two bytes arrive apart. -/
theorem lines_lossless_cut :
    IsLines "é\n\nb" ["é\n", "\n", "b"] ∧
      (Reader.lines.ask 5 (.ofChunks [.bytes [0xc3], .interrupted, .bytes [0xa9, 0x0a, 0x0a],
        .bytes [0x62], .bytes []])).1
        = [.ok (some "é\n"), .ok (some "\n"), .ok (some "b"), .ok none, .ok none] := by
  have hlines : IsLines "é\n\nb" ["é\n", "\n", "b"] := by
    constructor <;> decide
  refine ⟨hlines, ?_⟩
  have hholds : (Reader.ofChunks [.bytes [0xc3], .interrupted, .bytes [0xa9, 0x0a, 0x0a],
      .bytes [0x62], .bytes []]).Holds (Text.bytes "é\n\nb") :=
    ⟨_, .more (by decide) (.again (.more (by decide) (.more (by decide) (.ended .done)))),
      by decide⟩
  exact (lines_lossless "é\n\nb").2 _ hlines |>.2 _ hholds 5

end Broadcast
