import Broadcast.Proofs.Evaluators
import Broadcast.Proofs.Totality

/-!
# Updates of a dense array

The storage of a dense array is changed in place: an element is written, or an operand is evaluated
into all of it. Some updates fail, and an evaluation may even fail after it has written a part. What
an update leaves behind is therefore said of every update and not only of those that succeed
(`Dense.update`); where it succeeds, it leaves what `Dense.set` and `Dense.assign` give.

No update touches the shape or the number of elements (`dims_update`, `size_update`), so no run of
updates does, and `updates_keep_shape` says of every array that a run leads to what the next update
does to it. The number of elements is judged before the first one is written, which is why an
operand of the wrong size leaves all of them as they were.
-/

namespace Broadcast

variable {α : Type}

/-- What a change in place leaves behind, if nothing went wrong. -/
def settled {ε σ : Type} (change : Except ε Unit × σ) : Except ε σ :=
  change.1.map fun _ => change.2

theorem settled_eq_ok_iff {ε σ : Type} {change : Except ε Unit × σ} {s : σ} :
    settled change = .ok s ↔ change = (.ok (), s) := by
  obtain ⟨_ | _, _⟩ := change <;> simp [settled, Except.map]

/-! ## Evaluating in place -/

namespace Operand

/-- As `write`, in place: after a fault, the elements written before it stay written. -/
def writeInPlace (x : Operand α) :
    (count : Nat) → (index : Index) → (place : Nat) → Array α → Except Fault Unit × Array α
  | 0, _, _, buffer => (.ok (), buffer)
  | count + 1, index, place, buffer =>
    match x.read index with
    | .error fault => (.error fault, buffer)
    | .ok element =>
      x.writeInPlace count (Index.advance x.shape index) (place + 1)
        (buffer.setIfInBounds place element)

/-- As `fillFrom`, in place. -/
def fillInPlace (x : Operand α) (start count : Nat) (buffer : Array α) :
    Except Fault Unit × Array α :=
  if count = 0 then (.ok (), buffer)
  else
    match Index.unravel start x.shape with
    | .error fault => (.error fault, buffer)
    | .ok index => x.writeInPlace count index start buffer

/-- As `evaluateInto`, in place. -/
def evaluateInPlace (x : Operand α) (buffer : Array α) : Except Error Unit × Array α :=
  match x.numel with
  | .error fault => (.error (.fault fault), buffer)
  | .ok count =>
    if buffer.size ≠ count then (.error (.shapeMismatch x.shape [buffer.size]), buffer)
    else ((x.fillInPlace 0 count buffer).1.mapError .fault, (x.fillInPlace 0 count buffer).2)

variable (x : Operand α)

theorem settled_writeInPlace : ∀ (count : Nat) (index : Index) (place : Nat) (buffer : Array α),
    settled (x.writeInPlace count index place buffer) = x.write count index place buffer
  | 0, _, _, _ => rfl
  | count + 1, index, place, buffer => by
    rw [writeInPlace, write]
    cases x.read index with
    | error fault => rfl
    | ok element => exact settled_writeInPlace count _ _ _

theorem settled_fillInPlace (start count : Nat) (buffer : Array α) :
    settled (x.fillInPlace start count buffer) = x.fillFrom start count buffer := by
  unfold fillInPlace fillFrom
  split
  · rfl
  · cases Index.unravel start x.shape with
    | error fault => rfl
    | ok index => exact settled_writeInPlace x count index start buffer

/-- Evaluating in place succeeds exactly if evaluating does, and leaves the same elements. -/
theorem settled_evaluateInPlace (buffer : Array α) :
    settled (x.evaluateInPlace buffer) = x.evaluateInto buffer := by
  unfold evaluateInPlace evaluateInto
  cases x.numel with
  | error fault => rfl
  | ok count =>
    show settled (if buffer.size ≠ count then _ else _) = if buffer.size ≠ count then _ else _
    split
    · rfl
    · rw [← settled_fillInPlace]
      obtain ⟨_ | _, _⟩ := x.fillInPlace 0 count buffer <;> rfl

theorem size_writeInPlace : ∀ (count : Nat) (index : Index) (place : Nat) (buffer : Array α),
    (x.writeInPlace count index place buffer).2.size = buffer.size
  | 0, _, _, _ => rfl
  | count + 1, index, place, buffer => by
    rw [writeInPlace]
    cases x.read index with
    | error fault => rfl
    | ok element => rw [size_writeInPlace count, Array.size_setIfInBounds]

/-- However far an evaluation gets, the buffer keeps its size. -/
theorem size_evaluateInPlace (buffer : Array α) :
    (x.evaluateInPlace buffer).2.size = buffer.size := by
  unfold evaluateInPlace fillInPlace
  split
  · rfl
  · split
    · rfl
    · split
      · rfl
      · split
        · rfl
        · exact size_writeInPlace x _ _ _ _

end Operand

/-! ## Arrays as they are made -/

namespace Dense

theorem full_of_materialize {x : Operand α} {a : Dense α} (h : x.materialize = .ok a) : Full a := by
  obtain ⟨data, hdata, h⟩ := bind_eq_ok_iff.mp h
  obtain ⟨count, hcount, _⟩ := bind_eq_ok_iff.mp hdata
  cases h
  exact full_of_tabulates (Index.tabulates_of_traverse hcount hdata) hcount

/-- The arrays that come out of one of the ways to make them. -/
inductive Made : Dense α → Prop where
  | ofArray {data : Array α} {dims : Shape} {a : Dense α} (h : Dense.ofArray data dims = .ok a) :
    Made a
  | fill {dims : Shape} {x : α} {a : Dense α} (h : Dense.fill dims x = .ok a) : Made a
  | ofFn {dims : Shape} {f : Index → α} {a : Dense α} (h : Dense.ofFn dims f = .ok a) : Made a
  | materialize {x : Operand α} {a : Dense α} (h : x.materialize = .ok a) : Made a

theorem Made.full {a : Dense α} (ha : Made a) : Full a := by
  cases ha with
  | ofArray h => exact full_of_ofArray h
  | fill h => exact full_of_fill h
  | ofFn h => exact full_of_ofFn h
  | materialize h => exact full_of_materialize h

end Dense

/-! ## One update -/

/-- A change to the storage of an array. -/
inductive Update (α : Type) where
  /-- One element is written at a place. -/
  | write (place : Nat) (x : α)
  /-- All elements are replaced by those of an operand. -/
  | assign (x : Operand α)

namespace Dense

/-- What comes of an update, and the array as it is afterwards. -/
def update (a : Dense α) : Update α → Except Error Unit × Dense α
  | .write place x =>
    match a.set place x with
    | .ok b => (.ok (), b)
    | .error fault => (.error (.fault fault), a)
  | .assign x => ((x.evaluateInPlace a.data).1, { a with data := (x.evaluateInPlace a.data).2 })

/-- The array after some updates, whatever came of each of them. -/
def run (a : Dense α) (updates : List (Update α)) : Dense α :=
  updates.foldl (fun a u => (a.update u).2) a

theorem update_write (a : Dense α) (place : Nat) (x : α) :
    a.update (.write place x)
      = if place < a.data.size then (.ok (), ⟨a.dims, a.data.setIfInBounds place x⟩)
        else (.error (.fault .outOfBounds), a) := by
  by_cases hlt : place < a.data.size <;> simp [update, set, hlt]

/-- Where an element is written, the array is what setting the element gives. -/
theorem settled_update_write (a : Dense α) (place : Nat) (x : α) :
    settled (a.update (.write place x)) = liftM (a.set place x) := by
  rw [update_write, set]
  split <;> rfl

/-- Where an operand is evaluated into an array, the array is what assigning it gives. -/
theorem settled_update_assign (a : Dense α) (x : Operand α) :
    settled (a.update (.assign x)) = a.assign x := by
  rw [assign, ← x.settled_evaluateInPlace, update]
  unfold settled
  cases (x.evaluateInPlace a.data).1 <;> rfl

theorem dims_update (a : Dense α) (u : Update α) : (a.update u).2.dims = a.dims := by
  cases u with
  | write place x =>
    rw [update_write]
    split <;> rfl
  | assign x => rfl

theorem size_update (a : Dense α) (u : Update α) : (a.update u).2.data.size = a.data.size := by
  cases u with
  | write place x =>
    rw [update_write]
    split <;> simp
  | assign x => exact x.size_evaluateInPlace a.data

theorem update_assign_of_ne {a : Dense α} {x : Operand α} {count : Nat}
    (hcount : x.numel = .ok count) (hne : count ≠ a.data.size) :
    a.update (.assign x) = (.error (.shapeMismatch x.shape [a.data.size]), a) := by
  simp [update, Operand.evaluateInPlace, hcount, hne.symm]

theorem update_assign_of_eq {a : Dense α} {x : Operand α} {data : Array α}
    (htable : Index.Tabulates x.shape x.read data) (hcount : x.numel = .ok a.data.size) :
    a.update (.assign x) = (.ok (), ⟨a.dims, data⟩) := by
  refine settled_eq_ok_iff.mp ?_
  rw [settled_update_assign, assign, Operand.evaluateInto_eq htable hcount rfl]
  rfl

/-! ## Runs -/

theorem dims_run (a : Dense α) (updates : List (Update α)) : (a.run updates).dims = a.dims := by
  induction updates generalizing a with
  | nil => rfl
  | cons u updates ih => exact (ih (a.update u).2).trans (dims_update a u)

theorem size_run (a : Dense α) (updates : List (Update α)) :
    (a.run updates).data.size = a.data.size := by
  induction updates generalizing a with
  | nil => rfl
  | cons u updates ih => exact (ih (a.update u).2).trans (size_update a u)

/-- An array of the given shape, as full as it should be, and what the next update does to it. -/
structure Kept (dims : Shape) (a : Dense α) : Prop where
  dims_eq : a.dims = dims
  size_eq : a.data.size = dims.prod
  /-- An element written inside the array replaces the one at its place. -/
  written : ∀ place x, place < a.data.size →
    a.update (.write place x) = (.ok (), ⟨dims, a.data.setIfInBounds place x⟩)
  /-- An element written outside changes nothing. -/
  outside : ∀ place x, a.data.size ≤ place →
    a.update (.write place x) = (.error (.fault .outOfBounds), a)
  /-- An operand with another number of elements changes nothing, whether it can be read or not. -/
  refused : ∀ x count, x.numel = .ok count → count ≠ a.data.size →
    a.update (.assign x) = (.error (.shapeMismatch x.shape [a.data.size]), a)
  /-- An operand with as many elements replaces them all, whatever its shape. -/
  assigned : ∀ x, x.numel = .ok a.data.size → x.Readable → ∃ data,
    a.update (.assign x) = (.ok (), ⟨dims, data⟩) ∧
      (Index.walk x.shape).mapM x.read = .ok data.toList
  /-- Updates that succeed leave what setting and assigning give. -/
  settled_write : ∀ place x, settled (a.update (.write place x)) = liftM (a.set place x)
  settled_assign : ∀ x, settled (a.update (.assign x)) = a.assign x

/--
**Updates keep the shape.** However a dense array was made, after any run of updates, those that
failed among them, it has the shape that it was made with and as many elements as the shape has
indices. From there, writing an element outside it and evaluating an operand with another number of
elements fail and change nothing, and evaluating an operand with the same number of elements leaves
these, in row-major order of the operand's own shape.
-/
theorem updates_keep_shape {a : Dense α} (ha : Made a) (updates : List (Update α)) :
    Kept a.dims (a.run updates) where
  dims_eq := a.dims_run updates
  size_eq := (a.size_run updates).trans ha.full.size_eq
  written place x hlt := by rw [update_write, if_pos hlt, dims_run]
  outside place x hle := by rw [update_write, if_neg (Nat.not_lt.mpr hle)]
  refused x count hcount hne := update_assign_of_ne hcount hne
  assigned x hcount hread := by
    obtain ⟨data, htable⟩ := Index.exists_tabulates hread
    refine ⟨data, ?_, htable⟩
    rw [update_assign_of_eq htable hcount, dims_run]
  settled_write := settled_update_write _
  settled_assign := settled_update_assign _

/-- A row of four numbers as an operand. -/
def row : Operand Nat :=
  toOperand ⟨[4], #[1, 2, 3, 4]⟩ (.uint .w64)

/-- A square of zeros takes a number, none outside it and none of one number, and a row of four. -/
theorem updates_keep_shape_square :
    ∃ a, Dense.fill [2, 2] 0 = .ok a ∧
      (a.run [.write 3 9, .write 4 9, .assign (.scalar .bool 7)]).data = #[0, 0, 0, 9] ∧
      Kept [2, 2] (a.run [.write 3 9, .write 4 9, .assign (.scalar .bool 7)]) ∧
      (a.run [.write 3 9, .assign row]).data = #[1, 2, 3, 4] ∧
      Kept [2, 2] (a.run [.write 3 9, .assign row]) := by
  have hfill : Dense.fill [2, 2] 0 = .ok ⟨[2, 2], #[0, 0, 0, 0]⟩ := rfl
  exact ⟨_, hfill, rfl, updates_keep_shape (.fill hfill) _, rfl, updates_keep_shape (.fill hfill) _⟩

end Dense

end Broadcast
