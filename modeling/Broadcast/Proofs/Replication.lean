import Broadcast.Proofs.Replacement

/-!
# Repetition copies every element

A repetition has one axis, and finds the element of a component in two steps: it divides the
component by the number of copies, and unravels the quotient along the shape of its source. The
evaluators walk over the source without either step. Both meet the elements in the same order, so
the elements of a repetition are those of its source, each one several times in a row
(`tabulates_repeated`).

Repeating twice divides twice, and is the repetition by the product (`repeated_repeated`). No
component is in bounds where there are no copies or no elements, so neither division meets a zero.
-/

namespace Broadcast

/-- In a list of copies, an entry is found by dividing by their number. -/
theorem getElem?_flatMap_replicate {α : Type} {times : Nat} (hpos : 0 < times) :
    ∀ (l : List α) (i : Nat), (l.flatMap (List.replicate times))[i]? = l[i / times]?
  | [], i => by simp
  | x :: l, i => by
    rw [List.flatMap_cons]
    by_cases hi : i < times
    · rw [List.getElem?_append_left (by simpa using hi), List.getElem?_replicate, if_pos hi,
        Nat.div_eq_of_lt hi, List.getElem?_cons_zero]
    · have hle : times ≤ i := Nat.le_of_not_lt hi
      rw [List.getElem?_append_right (by simpa using hle), List.length_replicate,
        getElem?_flatMap_replicate hpos l (i - times), Nat.div_eq_sub_div hpos hle,
        List.getElem?_cons_succ]

theorem size_flatMap_replicate {α : Type} (data : Array α) (times : Nat) :
    (data.flatMap (Array.replicate times)).size = data.size * times := by
  rw [← Array.length_toList, Array.toList_flatMap, List.length_flatMap]
  simp

theorem getElem?_arrayFlatMap_replicate {α : Type} (data : Array α) {times : Nat}
    (hpos : 0 < times) (i : Nat) :
    (data.flatMap (Array.replicate times))[i]? = data[i / times]? := by
  rw [← Array.getElem?_toList, Array.toList_flatMap]
  simpa using getElem?_flatMap_replicate hpos data.toList i

theorem Shape.numel_singleton {n : Nat} (h : n < Word.size) : numel [n] = .ok n := by
  rw [numel, List.foldlM_cons, Nat.one_mul, Word.unsigned_eq_ok_iff.mpr ⟨h, rfl⟩]
  rfl

/-- On one axis the place of an index is its component. -/
theorem Index.eq_singleton_ordinal : ∀ {index : Index} {n : Nat}, InBounds index [n] →
    index = [ordinal index [n]]
  | [i], n, _ => by simp [ordinal]

namespace Operand

variable {α : Type} {x : Operand α} {count times : Nat}

/-- The repetition of an operand as a value: its length, its type and how it is read. -/
theorem repeated_eq_ok (hcount : x.numel = .ok count) (hlt : count * times < Word.size) :
    x.repeated times = .ok ⟨[count * times], x.dtype, x.readRepeated times⟩ := by
  rw [repeated, hcount]
  show (Word.unsigned (count * times) >>= _) = _
  rw [Word.unsigned_eq_ok_iff.mpr ⟨hlt, rfl⟩]
  rfl

theorem numel_of_repeated {y : Operand α} (hcount : x.numel = .ok count)
    (h : x.repeated times = .ok y) : y.numel = .ok (count * times) := by
  obtain ⟨count', hcount', h⟩ := bind_eq_ok_iff.mp h
  obtain ⟨length, hlength, h⟩ := bind_eq_ok_iff.mp h
  cases hcount.symm.trans hcount'
  obtain ⟨hlt, rfl⟩ := Word.unsigned_eq_ok_iff.mp hlength
  cases h
  exact Shape.numel_singleton hlt

/-- A repetition reads its source at the index whose place is the quotient. -/
theorem exists_readRepeated (hcount : x.numel = .ok count) {i : Nat} (hi : i < count * times) :
    ∃ own, Index.unravel (i / times) x.shape = .ok own ∧ own.InBounds x.shape ∧
      own.ordinal x.shape = i / times ∧ ∀ rest, x.readRepeated times (i :: rest) = x.read own := by
  have hquotient : i / times < List.prod x.shape := by
    rw [← (Shape.numel_eq_ok hcount).1]
    exact Nat.div_lt_of_lt_mul (by rwa [Nat.mul_comm])
  obtain ⟨own, hown, hb, hread⟩ := readRepeated_eq hcount hi
  obtain ⟨own', hown', _, hplace⟩ := Index.unravel_eq_ok hquotient
  cases hown.symm.trans hown'
  exact ⟨own, hown, hb, hplace, hread⟩

/-- The table of a repetition is the table of its source with every element copied. -/
theorem tabulates_repeated {data : Array α} (h : Index.Tabulates x.shape x.read data)
    (hcount : x.numel = .ok count) (times : Nat) :
    Index.Tabulates [count * times] (x.readRepeated times)
      (data.flatMap (Array.replicate times)) := by
  refine .of_places ?_ ?_
  · rw [size_flatMap_replicate, h.size_eq_count hcount, List.prod_singleton]
  · rintro (_ | ⟨i, rest⟩) hb
    · exact absurd hb id
    obtain ⟨own, _, hbounds, hown, hread⟩ := exists_readRepeated hcount hb.1
    obtain ⟨v, hv, hv'⟩ := h.read_eq hbounds
    refine ⟨v, ?_, (hread rest).trans hv'⟩
    have hplace : i = Index.ordinal (i :: rest) [count * times] :=
      (List.cons.inj (Index.eq_singleton_ordinal hb)).1
    rw [← hplace, getElem?_arrayFlatMap_replicate data (Nat.pos_of_lt_mul_left hb.1), ← hv, hown]

theorem materialize_repeated {data : Array α} (h : Index.Tabulates x.shape x.read data)
    (hcount : x.numel = .ok count) (hlt : count * times < Word.size) :
    (x.repeated times >>= materialize)
      = .ok ⟨[count * times], data.flatMap (Array.replicate times)⟩ := by
  rw [repeated_eq_ok hcount hlt]
  exact materialize_eq (tabulates_repeated h hcount times) (Shape.numel_singleton hlt)

/-- A repetition of a repetition divides by both numbers of copies, one after the other. -/
theorem readRepeated_readRepeated (hcount : x.numel = .ok count) (hlt : count * times < Word.size)
    {outer i : Nat} (hi : i < count * times * outer) (rest : Index) :
    readRepeated ⟨[count * times], x.dtype, x.readRepeated times⟩ outer (i :: rest)
      = x.readRepeated (times * outer) (i :: rest) := by
  obtain ⟨copy, _, hb, hplace, hread⟩ := exists_readRepeated
    (x := ⟨[count * times], x.dtype, x.readRepeated times⟩) (Shape.numel_singleton hlt) hi
  have hcopy : copy = [i / outer] := by rw [Index.eq_singleton_ordinal hb, hplace]
  rw [hcopy] at hb hread
  obtain ⟨own, hown, _, _, hinner⟩ := exists_readRepeated hcount hb.1
  obtain ⟨own', hown', _, _, hproduct⟩ := exists_readRepeated hcount (by rwa [← Nat.mul_assoc])
  rw [Nat.div_div_eq_div_mul, Nat.mul_comm outer, hown'] at hown
  cases hown
  rw [hread rest, hproduct rest]
  exact hinner []

/-- Repeating twice is repeating by the product. -/
theorem repeated_repeated (hcount : x.numel = .ok count) (hlt : count * times < Word.size)
    {outer : Nat} (hlt' : count * times * outer < Word.size) :
    ∃ y z w, x.repeated times = .ok y ∧ y.repeated outer = .ok z ∧
      x.repeated (times * outer) = .ok w ∧ z.Agrees w := by
  refine ⟨_, _, _, repeated_eq_ok hcount hlt, repeated_eq_ok (Shape.numel_singleton hlt) hlt',
    repeated_eq_ok hcount (by rwa [← Nat.mul_assoc]), ?_, rfl, ?_⟩
  · rw [Nat.mul_assoc]
  · rintro (_ | ⟨i, rest⟩) hb
    · exact absurd hb id
    · exact readRepeated_readRepeated hcount hlt hb.1 rest

/-- Operands that agree evaluate to the same array. -/
theorem Agrees.materialize_eq {y : Operand α} (h : x.Agrees y) (hx : x.Readable)
    (hcount : x.numel = .ok count) : x.materialize = y.materialize := by
  obtain ⟨data, htable⟩ := Index.exists_tabulates hx
  have htable' : Index.Tabulates y.shape y.read data := by
    rw [← h.shape_eq]
    exact htable.congr h.read_eq
  have hcount' : y.numel = .ok count := by rwa [numel, ← h.shape_eq]
  rw [Operand.materialize_eq htable hcount, Operand.materialize_eq htable' hcount', h.shape_eq]

/--
**Repetition copies and composes.** Let the elements of an operand be countable and readable. Then
evaluating any repetition whose length fits a word gives one axis of that length, with each element
of the operand's own array copied as often, in order; so it gives nothing if there are no copies or
no elements. A repetition of a repetition has the shape, the type and the elements of the one
repetition by the product, and evaluates to the same array.
-/
theorem repeated_exact (hcount : x.numel = .ok count) (hx : x.Readable) :
    ∃ data, x.materialize = .ok ⟨x.shape, data⟩ ∧
      (∀ n, count * n < Word.size →
        (x.repeated n >>= materialize) = .ok ⟨[count * n], data.flatMap (Array.replicate n)⟩) ∧
      (∀ n, n = 0 ∨ count = 0 → (x.repeated n >>= materialize) = .ok ⟨[0], #[]⟩) ∧
      ∀ m n, count * m < Word.size → count * m * n < Word.size →
        ∃ y z w, x.repeated m = .ok y ∧ y.repeated n = .ok z ∧ x.repeated (m * n) = .ok w ∧
          z.Agrees w ∧ z.materialize = w.materialize := by
  obtain ⟨data, htable⟩ := Index.exists_tabulates hx
  have hcopies : ∀ n, count * n < Word.size → (x.repeated n >>= materialize)
      = .ok ⟨[count * n], data.flatMap (Array.replicate n)⟩ :=
    fun n hlt => materialize_repeated htable hcount hlt
  refine ⟨data, materialize_eq htable hcount, hcopies, ?_, ?_⟩
  · intro n hnone
    have hzero : count * n = 0 := by
      rcases hnone with rfl | rfl <;> simp
    have hsize := size_flatMap_replicate data n
    rw [htable.size_eq_count hcount, hzero, Array.size_eq_zero_iff] at hsize
    rw [hcopies n (by rw [hzero]; decide), hzero, hsize]
  · intro m n hm hmn
    obtain ⟨y, z, w, hy, hz, hw, hagrees⟩ := repeated_repeated hcount hm hmn
    refine ⟨y, z, w, hy, hz, hw, hagrees, ?_⟩
    have hreadable := (hx.repeated hy).repeated hz
    exact hagrees.materialize_eq hreadable (numel_of_repeated (numel_of_repeated hcount hy) hz)

/-- A matrix with its axes exchanged. -/
def exchanged : View Nat :=
  ⟨#[1, 2, 3, 4], [2, 2], [1, 2], 0⟩

/-- Three copies of each element, none of any, and three of two copies of each. -/
theorem repeated_exact_exchanged :
    ((exchanged.toOperand (.uint .w8)).repeated 3 >>= materialize)
        = .ok ⟨[12], #[1, 1, 1, 3, 3, 3, 2, 2, 2, 4, 4, 4]⟩ ∧
      ((exchanged.toOperand (.uint .w8)).repeated 0 >>= materialize) = .ok ⟨[0], #[]⟩ ∧
      ∃ y z w, (exchanged.toOperand (.uint .w8)).repeated 2 = .ok y ∧ y.repeated 3 = .ok z ∧
        (exchanged.toOperand (.uint .w8)).repeated 6 = .ok w ∧ z.Agrees w ∧
        z.materialize = w.materialize := by
  have hnew : View.new #[1, 2, 3, 4] [2, 2] [1, 2] 0 = .ok exchanged := rfl
  have hinside := ((View.new_eq_ok_iff (by decide) (by decide) (by decide)).mp hnew).2
  have hcount : (exchanged.toOperand (.uint .w8)).numel = .ok 4 := rfl
  obtain ⟨data, hdata, hcopies, hnone, hproduct⟩ :=
    repeated_exact hcount (hinside.readable (.uint .w8))
  obtain rfl : data = #[1, 3, 2, 4] :=
    congrArg Dense.data (Except.ok.inj (hdata.symm.trans rfl))
  exact ⟨hcopies 3 (by decide), hnone 0 (.inl rfl), hproduct 2 3 (by decide) (by decide)⟩

end Operand

end Broadcast
