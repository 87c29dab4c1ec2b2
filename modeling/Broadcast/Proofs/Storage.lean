import Broadcast.Dense
import Broadcast.Proofs.RowMajor

/-!
# Dense storage

A dense array is `Full` if it has as many elements as its shape has indices and that number fits a
word. Every way to make a dense array makes a full one, and a full array reads the element at an
index in bounds from the place of the index: neither the running position nor the last product
overflows, because each of them is at most the number of elements.
-/

namespace Broadcast.Dense

open Index (InBounds ordinal)

variable {α : Type}

/-- As many elements as the shape has indices, and a number of them that fits a word. -/
structure Full (a : Dense α) : Prop where
  size_eq : a.data.size = a.dims.prod
  size_lt : a.data.size < Word.size

/-! ## Positions -/

/-- The running position of an index is exact as long as the places behind it fit a word. -/
theorem foldlM_extendPosition_eq : ∀ {index : Index} {dims : Shape} {start : Nat},
    InBounds index dims → (start + 1) * dims.prod ≤ Word.size →
    (index.zip dims).foldlM extendPosition start = .ok (start * dims.prod + ordinal index dims)
  | [], [], start, _, _ => by simp [ordinal, pure, Except.pure]
  | i :: index, n :: dims, start, hb, hfit => by
    have hpos : 0 < dims.prod :=
      Index.prod_pos_of_zero_notMem (Index.zero_notMem_of_inBounds hb.2)
    -- There is at least one index behind this component, so what fits with it fits without it.
    have hnext : (start * n + i + 1) * dims.prod ≤ Word.size := by
      calc (start * n + i + 1) * dims.prod
          ≤ (start * n + n) * dims.prod := Nat.mul_le_mul_right _ (Nat.add_le_add_left hb.1 _)
        _ = (start + 1) * (n :: dims).prod := by rw [← Nat.succ_mul, Nat.mul_assoc, List.prod_cons]
        _ ≤ Word.size := hfit
    have hlt : start * n + i < Word.size :=
      Nat.lt_of_lt_of_le (Nat.lt_succ_self _) (Nat.le_trans (Nat.le_mul_of_pos_right _ hpos) hnext)
    have hscaled : Word.unsigned (start * n) = .ok (start * n) :=
      Word.unsigned_eq_ok_iff.mpr ⟨by omega, rfl⟩
    have hextend : extendPosition start (i, n) = .ok (start * n + i) := by
      rw [extendPosition, hscaled]
      exact Word.unsigned_eq_ok_iff.mpr ⟨hlt, rfl⟩
    rw [List.zip_cons_cons, List.foldlM_cons, hextend]
    show (index.zip dims).foldlM extendPosition (start * n + i) = _
    rw [foldlM_extendPosition_eq hb.2 hnext, ordinal, List.prod_cons, Nat.add_mul, Nat.mul_assoc,
      Nat.add_assoc]

/-- A full array holds the element at an index in bounds at the place of the index. -/
theorem Full.read_eq {a : Dense α} (ha : Full a) {index : Index} (hb : InBounds index a.dims) :
    ∃ x, a.data[ordinal index a.dims]? = some x ∧ a.read index = .ok x := by
  have hlt : ordinal index a.dims < a.data.size := by
    rw [ha.size_eq]
    exact Index.ordinal_lt hb
  have hfit : (0 + 1) * a.dims.prod ≤ Word.size := by
    rw [Nat.zero_add, Nat.one_mul, ← ha.size_eq]
    exact Nat.le_of_lt ha.size_lt
  have hposition : a.position index = .ok (ordinal index a.dims) := by
    rw [position, if_pos (Index.length_of_inBounds hb), foldlM_extendPosition_eq hb hfit,
      Nat.zero_mul, Nat.zero_add]
  have hget := Array.getElem?_eq_getElem hlt
  exact ⟨_, hget, read_of_position hposition hget⟩

/-! ## Making dense arrays -/

theorem full_of_ofArray {data : Array α} {dims : Shape} {a : Dense α}
    (h : ofArray data dims = .ok a) : Full a := by
  obtain ⟨count, hcount, h⟩ := bind_eq_ok_iff.mp h
  obtain ⟨hprod, hlt⟩ := Shape.numel_eq_ok (liftM_fault_eq_ok_iff.mp hcount)
  split at h
  · cases h
  · next heq =>
    cases h
    have hsize : count = data.size := Decidable.not_not.mp heq
    exact ⟨by rw [← hsize, hprod], by rw [← hsize]; exact hlt⟩

theorem full_of_fill {dims : Shape} {x : α} {a : Dense α} (h : fill dims x = .ok a) : Full a := by
  obtain ⟨count, hcount, h⟩ := bind_eq_ok_iff.mp h
  obtain ⟨hprod, hlt⟩ := Shape.numel_eq_ok hcount
  cases h
  exact ⟨by rw [Array.size_replicate, hprod], by rw [Array.size_replicate]; exact hlt⟩

/-- The table of a shape that can be counted is a full array. -/
theorem full_of_tabulates {dims : Shape} {read : Index → Except Fault α} {data : Array α}
    (h : Index.Tabulates dims read data) {count : Nat} (hcount : dims.numel = .ok count) :
    Full ⟨dims, data⟩ := by
  obtain ⟨hprod, hlt⟩ := Shape.numel_eq_ok hcount
  refine ⟨h.size_eq, ?_⟩
  show data.size < Word.size
  rw [h.size_eq, ← hprod]
  exact hlt

/-- The array of a function of the index is the table of that function. -/
theorem ofFn_eq {dims : Shape} {f : Index → α} {data : Array α}
    (h : Index.Tabulates dims (fun index => .ok (f index)) data) {count : Nat}
    (hcount : dims.numel = .ok count) : ofFn dims f = .ok ⟨dims, data⟩ := by
  rw [ofFn, h.traverse_eq hcount]
  rfl

theorem full_of_ofFn {dims : Shape} {f : Index → α} {a : Dense α} (h : ofFn dims f = .ok a) :
    Full a := by
  obtain ⟨data, hdata, h⟩ := bind_eq_ok_iff.mp h
  obtain ⟨count, hcount, _⟩ := bind_eq_ok_iff.mp hdata
  cases h
  exact full_of_tabulates (Index.tabulates_of_traverse hcount hdata) hcount

end Broadcast.Dense
