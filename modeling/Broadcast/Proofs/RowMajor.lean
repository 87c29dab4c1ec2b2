import Mathlib.Algebra.BigOperators.Group.List.Lemmas
import Mathlib.Algebra.BigOperators.Ring.List
import Mathlib.Algebra.Order.Ring.Nat
import Broadcast.Index
import Broadcast.Proofs.Outcome

/-!
# Row-major order

`walk` lists the indices of a shape in row-major order and `ordinal` is the place of an index in
that list. `unravel` finds the index at a place and `advance` goes to the next place, so everything
that reads a shape index by index reads along the walk (`traverse_eq_mapM`). What it finds if nothing
fails is described by one relation: `Tabulates s read data` says that `data` holds what `read` gives
along the walk.

The place of an index is a number below the product of the sizes, and all statements about carries
and digits are statements about that number.
-/

namespace Broadcast

/-! ## The number of elements -/

namespace Shape

theorem foldlM_unsigned_mul {s : Shape} : ∀ {product count : Nat},
    s.foldlM (fun product n => Word.unsigned (product * n)) product = .ok count →
    product < Word.size → count = product * s.prod ∧ count < Word.size := by
  induction s with
  | nil =>
    intro product count h hp
    cases h
    exact ⟨by simp, hp⟩
  | cons n s ih =>
    intro product count h _
    rw [List.foldlM_cons] at h
    obtain ⟨next, hnext, h⟩ := bind_eq_ok_iff.mp h
    obtain ⟨hlt, rfl⟩ := Word.unsigned_eq_ok_iff.mp hnext
    obtain ⟨hcount, hsize⟩ := ih h hlt
    refine ⟨?_, hsize⟩
    rw [hcount, List.prod_cons, Nat.mul_assoc]

/-- A count that is computed is the product of the sizes and fits a word. -/
theorem numel_eq_ok {s : Shape} {count : Nat} (h : s.numel = .ok count) :
    count = s.prod ∧ count < Word.size := by
  obtain ⟨hcount, hsize⟩ := foldlM_unsigned_mul h (by decide)
  exact ⟨by rw [hcount, Nat.one_mul], hsize⟩

end Shape

namespace Index

/-! ## Places -/

/-- The place of an index in row-major order. -/
def ordinal : Index → Shape → Nat
  | i :: index, _ :: s => i * s.prod + ordinal index s
  | _, _ => 0

theorem ordinal_lt : ∀ {index : Index} {s : Shape}, InBounds index s → ordinal index s < s.prod
  | [], [], _ => by simp [ordinal]
  | i :: index, n :: s, h => by
    have ih := ordinal_lt h.2
    rw [ordinal, List.prod_cons]
    calc i * s.prod + ordinal index s
        < (i + 1) * s.prod := by rw [Nat.succ_mul]; omega
      _ ≤ n * s.prod := Nat.mul_le_mul_right _ h.1

/-- A shape that has an index has no empty axis. -/
theorem zero_notMem_of_inBounds {index : Index} {s : Shape} (h : InBounds index s) : 0 ∉ s := by
  intro h0
  have hlt := ordinal_lt h
  rw [List.prod_eq_zero h0] at hlt
  exact Nat.not_lt_zero _ hlt

theorem zero_notMem_of_lt_prod {s : Shape} {k : Nat} (h : k < s.prod) : 0 ∉ s := by
  intro h0
  rw [List.prod_eq_zero h0] at h
  exact Nat.not_lt_zero _ h

theorem prod_pos_of_zero_notMem {s : Shape} (h : 0 ∉ s) : 0 < s.prod :=
  Nat.pos_of_ne_zero (List.prod_ne_zero h)

theorem origin_cons (n : Nat) (s : Shape) : origin (n :: s) = 0 :: origin s := rfl

@[simp] theorem ordinal_origin : ∀ s : Shape, ordinal (origin s) s = 0
  | [] => rfl
  | n :: s => by rw [origin_cons, ordinal, ordinal_origin s, Nat.zero_mul]

theorem inBounds_origin : ∀ {s : Shape}, 0 ∉ s → InBounds (origin s) s
  | [], _ => trivial
  | n :: s, h => by
    rw [List.mem_cons, not_or] at h
    exact ⟨Nat.pos_of_ne_zero (Ne.symm h.1), inBounds_origin h.2⟩

/-! ## From places to indices -/

/-- The digits of a number are an index; its place is the number modulo the product of the sizes. -/
theorem digits_eq_ok (k : Nat) : ∀ {s : Shape}, 0 ∉ s →
    ∃ index, digits k s = .ok (k / s.prod, index) ∧ InBounds index s ∧
      ordinal index s = k % s.prod
  | [], _ => ⟨[], by simp [digits], trivial, by simp [ordinal, Nat.mod_one]⟩
  | n :: s, h => by
    rw [List.mem_cons, not_or] at h
    obtain ⟨index, hd, hb, ho⟩ := digits_eq_ok k h.2
    refine ⟨(k / s.prod % n) :: index, ?_, ⟨?_, hb⟩, ?_⟩
    · rw [digits, hd]
      show (if n = 0 then _ else _) = _
      rw [if_neg (Ne.symm h.1), List.prod_cons, Nat.mul_comm n, Nat.div_div_eq_div_mul]
    · exact Nat.mod_lt _ (Nat.pos_of_ne_zero (Ne.symm h.1))
    · rw [ordinal, ho, List.prod_cons, Nat.mul_comm n, Nat.mod_mul, Nat.mul_comm, Nat.add_comm]

/-- Every place below the product of the sizes belongs to an index, which `unravel` finds. -/
theorem unravel_eq_ok {k : Nat} {s : Shape} (h : k < s.prod) :
    ∃ index, unravel k s = .ok index ∧ InBounds index s ∧ ordinal index s = k := by
  obtain ⟨index, hd, hb, ho⟩ := digits_eq_ok k (zero_notMem_of_lt_prod h)
  refine ⟨index, ?_, hb, ?_⟩
  · rw [unravel, hd]
    rfl
  · rw [ho, Nat.mod_eq_of_lt h]

/-! ## One step -/

/--
A step goes to the next place, or from the last place back to the first index.

The induction is on the shape. The axes to the right have either moved on without a carry, and the
component stays, or they are back at their origin, and the component takes the carry.
-/
theorem step_eq : ∀ {index : Index} {s : Shape}, InBounds index s →
    (∃ next, step s index = (false, next) ∧ InBounds next s ∧
      ordinal next s = ordinal index s + 1) ∨
    (ordinal index s + 1 = s.prod ∧ step s index = (true, origin s))
  | [], [], _ => .inr ⟨rfl, rfl⟩
  | i :: index, n :: s, h => by
    rcases step_eq h.2 with ⟨next, hs, hb, ho⟩ | ⟨hlast, hs⟩
    · refine .inl ⟨i :: next, ?_, ⟨h.1, hb⟩, ?_⟩
      · rw [step, hs]
      · rw [ordinal, ordinal, ho, Nat.add_assoc]
    · have hpos : 0 ∉ s := zero_notMem_of_inBounds h.2
      by_cases hi : i + 1 < n
      · refine .inl ⟨(i + 1) :: origin s, ?_, ⟨hi, inBounds_origin hpos⟩, ?_⟩
        · rw [step, hs]
          exact if_pos hi
        · rw [ordinal, ordinal, ordinal_origin, Nat.succ_mul, Nat.add_assoc, Nat.add_assoc, hlast,
            Nat.add_zero]
      · have hn : i + 1 = n := Nat.le_antisymm h.1 (Nat.le_of_not_lt hi)
        refine .inr ⟨?_, ?_⟩
        · rw [ordinal, List.prod_cons, Nat.add_assoc, hlast, ← Nat.succ_mul, ← hn]
        · rw [step, hs]
          exact if_neg hi

/-- Before the last place, the next index is in bounds and one place further. -/
theorem advance_inBounds {index : Index} {s : Shape} (h : InBounds index s)
    (hlt : ordinal index s + 1 < s.prod) :
    InBounds (advance s index) s ∧ ordinal (advance s index) s = ordinal index s + 1 := by
  rcases step_eq h with ⟨next, hs, hb, ho⟩ | ⟨hlast, _⟩
  · rw [advance, hs]
    exact ⟨hb, ho⟩
  · omega

/-- On a stretch of places, an index either is the last one or is followed by the next place. -/
theorem done_or_advance_inBounds {index : Index} {s : Shape} {place count : Nat}
    (h : InBounds index s) (hplace : ordinal index s = place) (hle : place + (count + 1) ≤ s.prod) :
    count = 0 ∨ InBounds (advance s index) s ∧ ordinal (advance s index) s = place + 1 := by
  rcases Nat.eq_zero_or_pos count with hzero | hpos
  · exact .inl hzero
  · rw [← hplace]
    exact .inr (advance_inBounds h (by omega))

/-! ## The walk -/

/-- Every index of a shape, in row-major order. -/
def walk : Shape → List Index
  | [] => [[]]
  | n :: s => (List.range n).flatMap fun i => (walk s).map (i :: ·)

@[simp] theorem length_walk : ∀ s : Shape, (walk s).length = s.prod
  | [] => rfl
  | n :: s => by
    rw [walk, List.length_flatMap]
    simp [length_walk s]

/-- The walk meets exactly the indices in bounds. -/
theorem mem_walk : ∀ {index : Index} {s : Shape}, index ∈ walk s ↔ InBounds index s
  | [], [] => by simp [walk, InBounds]
  | i :: index, [] => by simp [walk, InBounds]
  | [], n :: s => by simp [walk, InBounds]
  | i :: index, n :: s => by
    rw [walk, List.mem_flatMap]
    constructor
    · rintro ⟨j, hj, hmem⟩
      obtain ⟨rest, hrest, heq⟩ := List.mem_map.mp hmem
      cases heq
      exact ⟨List.mem_range.mp hj, mem_walk.mp hrest⟩
    · rintro ⟨hi, hrest⟩
      exact ⟨i, List.mem_range.mpr hi, List.mem_map.mpr ⟨index, mem_walk.mpr hrest, rfl⟩⟩

/-- The walk goes up in lexicographic order. -/
theorem pairwise_walk : ∀ s : Shape, (walk s).Pairwise (· < ·)
  | [] => List.pairwise_singleton _ _
  | n :: s => by
    rw [walk, List.pairwise_flatMap]
    refine ⟨?_, ?_⟩
    · intro i _
      rw [List.pairwise_map]
      exact (pairwise_walk s).imp fun h => List.cons_lt_cons_iff.mpr (.inr ⟨rfl, h⟩)
    · refine List.pairwise_lt_range.imp ?_
      intro i j hij a ha b hb
      obtain ⟨a, _, rfl⟩ := List.mem_map.mp ha
      obtain ⟨b, _, rfl⟩ := List.mem_map.mp hb
      exact List.cons_lt_cons_iff.mpr (.inl hij)

/-- In a list of blocks of equal length, an entry is found by its block and its place in it. -/
theorem getElem?_flatMap_range {α : Type} {f : Nat → List α} {m : Nat} (hf : ∀ i, (f i).length = m)
    {i k : Nat} (hk : k < m) : ∀ {n : Nat}, i < n →
    ((List.range n).flatMap f)[i * m + k]? = (f i)[k]? := by
  intro n hi
  induction n with
  | zero => exact absurd hi (Nat.not_lt_zero _)
  | succ n ih =>
    have hlen : ((List.range n).flatMap f).length = n * m := by
      rw [List.length_flatMap]
      simp [hf]
    rw [List.range_succ, List.flatMap_append, List.flatMap_singleton]
    -- The entry lies in a block before the last one, or in the last one.
    rcases Nat.lt_or_eq_of_le (Nat.le_of_lt_succ hi) with hi | rfl
    · have hlt : i * m + k < n * m := by
        calc i * m + k < (i + 1) * m := by rw [Nat.succ_mul]; omega
          _ ≤ n * m := Nat.mul_le_mul_right _ hi
      rw [List.getElem?_append_left (by rw [hlen]; exact hlt), ih hi]
    · rw [List.getElem?_append_right (by rw [hlen]; omega), hlen, Nat.add_sub_cancel_left]

/-- The walk meets every index at its place. -/
theorem getElem?_walk : ∀ {index : Index} {s : Shape}, InBounds index s →
    (walk s)[ordinal index s]? = some index
  | [], [], _ => rfl
  | i :: index, n :: s, h => by
    rw [walk, ordinal, getElem?_flatMap_range (by simp) (ordinal_lt h.2) h.1, List.getElem?_map,
      getElem?_walk h.2]
    rfl

/-- Different indices of a shape have different places. -/
theorem eq_of_ordinal_eq {index index' : Index} {s : Shape} (h : InBounds index s)
    (h' : InBounds index' s) (heq : ordinal index s = ordinal index' s) : index = index' := by
  have hwalk := getElem?_walk h
  rw [heq, getElem?_walk h'] at hwalk
  exact (Option.some.inj hwalk).symm

/-- From the place of an index on, the walk goes on with the index. -/
theorem drop_walk {index : Index} {s : Shape} (h : InBounds index s) :
    (walk s).drop (ordinal index s) = index :: (walk s).drop (ordinal index s + 1) := by
  obtain ⟨hlt, hget⟩ := List.getElem?_eq_some_iff.mp (getElem?_walk h)
  rw [List.drop_eq_getElem_cons hlt, hget]

/-! ## Reading along the walk -/

variable {α : Type}

/--
What is collected from a place on is what the next stretch of the walk gives, up to the first fault.

The induction is on the number of elements to collect. After the last index of the shape `advance`
starts anew, but then nothing is left to collect.
-/
theorem collect_eq_mapM {s : Shape} (read : Index → Except Fault α) :
    ∀ {count place : Nat} {index : Index},
    (count = 0 ∨ InBounds index s ∧ ordinal index s = place) → place + count ≤ s.prod →
    ∀ found : Array α, collect s read count index found
      = (found ++ ·.toArray) <$> (((walk s).drop place).take count).mapM read
  | 0, place, index, _, _, found => by simp [collect, pure, Except.pure, Functor.map, Except.map]
  | count + 1, place, index, hindex, hle, found => by
    obtain hzero | ⟨hb, rfl⟩ := hindex
    · exact absurd hzero (Nat.succ_ne_zero count)
    have hnext := done_or_advance_inBounds hb rfl hle
    rw [drop_walk hb, List.take_succ_cons, List.mapM_cons, collect]
    cases hread : read index with
    | error fault => rfl
    | ok x =>
      show collect s read count (advance s index) (found.push x) = _
      rw [collect_eq_mapM read hnext (by omega) (found.push x)]
      cases (((walk s).drop (ordinal index s + 1)).take count).mapM read with
      | error fault => rfl
      | ok rest => simp [bind, Except.bind, pure, Except.pure, Functor.map, Except.map]

/-- Reading every index of a shape is reading along its walk. -/
theorem traverse_eq_mapM {s : Shape} {count : Nat} (hcount : s.numel = .ok count)
    (read : Index → Except Fault α) :
    traverse s read = List.toArray <$> (walk s).mapM read := by
  obtain ⟨rfl, _⟩ := Shape.numel_eq_ok hcount
  have hstart : s.prod = 0 ∨ InBounds (origin s) s ∧ ordinal (origin s) s = 0 := by
    rcases Nat.eq_zero_or_pos s.prod with hzero | hpos
    · exact .inl hzero
    · exact .inr ⟨inBounds_origin (zero_notMem_of_lt_prod hpos), ordinal_origin s⟩
  rw [traverse, hcount]
  show collect s read s.prod (origin s) #[] = _
  rw [collect_eq_mapM read hstart (by omega), List.drop_zero,
    List.take_of_length_le (by rw [length_walk])]
  simp

/-! ## Tables -/

/-- The elements that `read` gives along the walk of a shape. -/
def Tabulates (s : Shape) (read : Index → Except Fault α) (data : Array α) : Prop :=
  (walk s).mapM read = .ok data.toList

theorem exists_tabulates {s : Shape} {read : Index → Except Fault α}
    (h : ∀ index, InBounds index s → ∃ x, read index = .ok x) :
    ∃ data, Tabulates s read data := by
  obtain ⟨values, hvalues⟩ := exists_mapM_eq_ok fun index hmem => h index (mem_walk.mp hmem)
  exact ⟨values.toArray, hvalues⟩

theorem Tabulates.congr {s : Shape} {read read' : Index → Except Fault α} {data : Array α}
    (h : Tabulates s read data) (heq : ∀ index, InBounds index s → read index = read' index) :
    Tabulates s read' data := by
  rw [Tabulates, ← mapM_congr_of_mem fun index hi => heq index (mem_walk.mp hi)]
  exact h

namespace Tabulates

variable {s : Shape} {read : Index → Except Fault α} {data : Array α}

theorem size_eq (h : Tabulates s read data) : data.size = s.prod := by
  have hlen := (mapM_eq_ok_iff.mp h).length_eq
  rw [length_walk] at hlen
  exact hlen.symm

theorem size_eq_count (h : Tabulates s read data) {count : Nat} (hcount : s.numel = .ok count) :
    data.size = count := by
  rw [h.size_eq, (Shape.numel_eq_ok hcount).1]

/-- A table holds the element at an index at the place of the index. -/
theorem read_eq (h : Tabulates s read data) {index : Index} (hb : InBounds index s) :
    ∃ x, data[ordinal index s]? = some x ∧ read index = .ok x := by
  have hlt : ordinal index s < data.size := by
    rw [h.size_eq]
    exact ordinal_lt hb
  refine ⟨data[ordinal index s], Array.getElem?_eq_getElem hlt, ?_⟩
  have hwalk := getElem?_walk hb
  obtain ⟨hw, heq⟩ := List.getElem?_eq_some_iff.mp hwalk
  have hget := (List.forall₂_iff_get.mp (mapM_eq_ok_iff.mp h)).2 (ordinal index s) hw hlt
  simp only [List.get_eq_getElem, heq] at hget
  exact hget

/-- Data with the right element at the place of every index is the table. -/
theorem of_places (hsize : data.size = s.prod)
    (h : ∀ index, InBounds index s → ∃ x, data[ordinal index s]? = some x ∧ read index = .ok x) :
    Tabulates s read data := by
  have hread : ∀ index, InBounds index s → ∃ x, read index = .ok x := fun index hb =>
    (h index hb).imp fun _ hx => hx.2
  obtain ⟨table, htable⟩ := exists_tabulates hread
  have heq : table = data := by
    refine Array.ext_getElem? fun place => ?_
    by_cases hlt : place < s.prod
    · obtain ⟨index, _, hb, rfl⟩ := unravel_eq_ok hlt
      obtain ⟨x, hx, hx'⟩ := h index hb
      obtain ⟨y, hy, hy'⟩ := htable.read_eq hb
      rw [hx, hy, Except.ok.inj (hy'.symm.trans hx')]
    · rw [Array.getElem?_eq_none (by rw [htable.size_eq]; omega),
        Array.getElem?_eq_none (by omega)]
  exact heq ▸ htable

/-- Reading every index of a shape gives its table. -/
theorem traverse_eq (h : Tabulates s read data) {count : Nat} (hcount : s.numel = .ok count) :
    traverse s read = .ok data := by
  rw [traverse_eq_mapM hcount, h]
  rfl

end Tabulates

theorem tabulates_of_traverse {s : Shape} {read : Index → Except Fault α} {data : Array α}
    {count : Nat} (hcount : s.numel = .ok count) (h : traverse s read = .ok data) :
    Tabulates s read data := by
  rw [traverse_eq_mapM hcount] at h
  obtain ⟨values, hvalues, rfl⟩ := fmap_eq_ok_iff.mp h
  exact hvalues

end Index

end Broadcast
