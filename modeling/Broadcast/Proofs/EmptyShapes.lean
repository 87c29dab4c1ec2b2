import Mathlib.Algebra.BigOperators.Ring.Finset
import Broadcast.Evaluation
import Broadcast.Proofs.AxisOrder
import Broadcast.Proofs.IdleAxes

/-!
# Shapes without elements

A shape with an axis of size zero has no elements, whatever its other sizes. Three running products
are taken over such a shape: the number of elements from the first axis on, where the zero counts as
it is, and the row-major strides and the check for contiguity from the last axis on, where it counts
as one. Each of them may leave the machine word on the way, before it meets the zero or because it
does not count it.

So an empty shape cannot always be used. `usable_iff` says which can, in every order of the axes:
those whose sizes other than zero have a product that fits a signed word, and those with a single
size that is neither zero nor one. In the second case the size itself may be beyond a signed word,
because a product with nothing but ones never overflows.
-/

namespace Broadcast

namespace Shape

/-! ## The sizes other than zero -/

/-- The product of the sizes other than zero. -/
def nonzeroProd (s : Shape) : Nat :=
  (s.filter (· ≠ 0)).prod

theorem nonzeroProd_cons_zero (s : Shape) : nonzeroProd (0 :: s) = nonzeroProd s := by
  simp [nonzeroProd]

theorem nonzeroProd_cons {n : Nat} (hn : n ≠ 0) (s : Shape) :
    nonzeroProd (n :: s) = n * nonzeroProd s := by
  simp [nonzeroProd, hn]

theorem nonzeroProd_pos (s : Shape) : 0 < nonzeroProd s :=
  Index.prod_pos_of_zero_notMem (by simp)

theorem nonzeroProd_perm {s t : Shape} (h : s.Perm t) : nonzeroProd s = nonzeroProd t :=
  (h.filter _).prod_eq

theorem dvd_nonzeroProd {s : Shape} {n : Nat} (hn : n ∈ s) (h0 : n ≠ 0) : n ∣ nonzeroProd s :=
  List.dvd_prod (List.mem_filter.mpr ⟨hn, by simpa using h0⟩)

/-- What is taken from a shape without its zeros is taken from its sizes other than zero. -/
theorem sublist_nonzero {s t : List Nat} (h : t.Sublist s) (h0 : 0 ∉ t) :
    t.Sublist (s.filter (· ≠ 0)) := by
  have hself : t.filter (· ≠ 0) = t :=
    List.filter_eq_self.mpr fun n hn => decide_eq_true (ne_of_mem_of_not_mem hn h0)
  exact hself ▸ h.filter _

/-- Next to a size that is the product of them all, there are only ones and zeros. -/
theorem eq_one_of_mem_erase {s : Shape} (h : nonzeroProd s ∈ s) {n : Nat}
    (hn : n ∈ (s.filter (· ≠ 0)).erase (nonzeroProd s)) : n = 1 := by
  have hpos := nonzeroProd_pos s
  have hmem : nonzeroProd s ∈ s.filter (· ≠ 0) :=
    List.mem_filter.mpr ⟨h, by simpa using Nat.ne_of_gt hpos⟩
  have hrest : ((s.filter (· ≠ 0)).erase (nonzeroProd s)).prod = 1 :=
    Nat.eq_of_mul_eq_mul_left hpos (by rw [List.prod_erase hmem, Nat.mul_one]; rfl)
  exact Nat.dvd_one.mp (hrest ▸ List.dvd_prod hn)

/-- If the product fits a word and is none of the sizes, no size is beyond a signed word. -/
theorem lt_half_of_notMem {s : Shape} (hlt : nonzeroProd s < Word.size) (h : nonzeroProd s ∉ s)
    {n : Nat} (hn : n ∈ s) : n < Word.half := by
  by_cases hzero : n = 0
  · rw [hzero]
    decide
  · -- The size is a proper divisor of the product.
    obtain ⟨k, hk⟩ := dvd_nonzeroProd hn hzero
    have hpos := nonzeroProd_pos s
    have hk0 : k ≠ 0 := by
      rintro rfl
      omega
    have hk1 : k ≠ 1 := by
      rintro rfl
      rw [hk, Nat.mul_one] at h
      exact h hn
    have hdouble : n * 2 ≤ nonzeroProd s := by
      rw [hk]
      exact Nat.mul_le_mul_left n (by omega)
    unfold Word.size at hlt
    unfold Word.half
    omega

/-- A shape is tame if its sizes other than zero have a small product or are one size and ones. -/
def Tame (s : Shape) : Prop :=
  nonzeroProd s < Word.half ∨ nonzeroProd s ∈ s

theorem Tame.perm {s t : Shape} (h : s.Perm t) (hs : Tame s) : Tame t := by
  unfold Tame
  rw [← nonzeroProd_perm h, ← h.mem_iff]
  exact hs

/-! ## The number of elements -/

theorem foldlM_unsigned_mul_eq_ok : ∀ {s : Shape} {product : Nat},
    product * nonzeroProd s < Word.size →
    s.foldlM (fun product n => Word.unsigned (product * n)) product = .ok (product * s.prod)
  | [], product, _ => by simp [pure, Except.pure]
  | n :: s, product, h => by
    have hpos := nonzeroProd_pos s
    have hle : product * n * nonzeroProd s ≤ product * nonzeroProd (n :: s) := by
      by_cases hn : n = 0
      · simp [hn]
      · rw [nonzeroProd_cons hn, Nat.mul_assoc]
    have hnext : product * n * nonzeroProd s < Word.size := Nat.lt_of_le_of_lt hle h
    have hword : product * n < Word.size :=
      Nat.lt_of_le_of_lt (Nat.le_mul_of_pos_right _ hpos) hnext
    rw [List.foldlM_cons, Word.unsigned_eq_ok_iff.mpr ⟨hword, rfl⟩]
    refine (foldlM_unsigned_mul_eq_ok hnext).trans ?_
    rw [List.prod_cons, Nat.mul_assoc]

/-- If the product of the other sizes fits a word, the elements of an empty shape can be counted. -/
theorem numel_of_zero_mem {s : Shape} (h0 : 0 ∈ s) (h : nonzeroProd s < Word.size) :
    s.numel = .ok 0 := by
  rw [numel, foldlM_unsigned_mul_eq_ok (by rw [Nat.one_mul]; exact h), List.prod_eq_zero h0,
    Nat.mul_zero]

/-- With the zeros at the end, all other sizes are multiplied before them. -/
theorem nonzeroProd_lt_of_numel {s : Shape} {count : Nat}
    (h : numel (s.filter (· ≠ 0) ++ s.filter (fun n => !decide (n ≠ 0))) = .ok count) :
    nonzeroProd s < Word.size := by
  rw [numel, List.foldlM_append] at h
  obtain ⟨product, hproduct, _⟩ := bind_eq_ok_iff.mp h
  obtain ⟨rfl, hlt⟩ := foldlM_unsigned_mul hproduct (by decide)
  rw [Nat.one_mul] at hlt
  exact hlt

/-! ## Products in signed words -/

/-- Every product of some sizes other than zero fits a signed word, read as signed words. -/
def SignedProducts (s : Shape) : Prop :=
  ∀ t : List Nat, t.Sublist s → 0 ∉ t → Word.Holds (t.map Word.asSigned).prod

theorem map_asSigned_prod {t : List Nat} (h : ∀ n ∈ t, n < Word.half) :
    (t.map Word.asSigned).prod = (t.prod : Nat) := by
  rw [Nat.cast_list_prod]
  exact congrArg List.prod (List.map_congr_left fun n hn => Word.asSigned_of_lt (h n hn))

theorem Tame.signedProducts {s : Shape} (h : Tame s) : SignedProducts s := by
  intro t hsub h0
  have hnonzero := sublist_nonzero hsub h0
  rcases h with hsmall | hbig
  · have hprod : t.prod < Word.half :=
      Nat.lt_of_le_of_lt (Nat.le_of_dvd (nonzeroProd_pos s) hnonzero.prod_dvd_prod) hsmall
    have hsizes : ∀ n ∈ t, n < Word.half := fun n hn => Nat.lt_of_le_of_lt
      (Nat.le_of_dvd (Index.prod_pos_of_zero_notMem h0) (List.dvd_prod hn)) hprod
    rw [map_asSigned_prod hsizes]
    exact ⟨by omega, by omega⟩
  · have hones : ∀ n ∈ t.erase (nonzeroProd s), n = 1 := fun n hn =>
      eq_one_of_mem_erase hbig ((hnonzero.erase _).subset hn)
    have hone : ((t.erase (nonzeroProd s)).map Word.asSigned).prod = 1 := by
      rw [List.map_congr_left (g := fun _ => 1) fun n hn => by rw [hones n hn]; rfl]
      simp
    by_cases ht : nonzeroProd s ∈ t
    · rw [← List.prod_map_erase Word.asSigned ht, hone, Int.mul_one]
      exact Word.holds_asSigned _
    · rw [List.erase_of_not_mem ht] at hone
      rw [hone]
      exact ⟨by decide, by decide⟩

end Shape

/-! ## Strides and contiguity -/

namespace View

open Shape (SignedProducts Tame nonzeroProd)

variable {α : Type}

theorem stridesBelow_eq_ok : ∀ {s : Shape}, SignedProducts s →
    ∃ strides, stridesBelow s
      = .ok (((s.filter (· ≠ 0)).map Word.asSigned).prod, strides)
  | [], _ => ⟨[], rfl⟩
  | n :: s, h => by
    obtain ⟨strides, hbelow⟩ := stridesBelow_eq_ok (s := s) fun t ht => h t (ht.cons n)
    have hproduct : ((s.filter (· ≠ 0)).map Word.asSigned).prod * Word.asSigned (max n 1)
        = (((n :: s).filter (· ≠ 0)).map Word.asSigned).prod := by
      by_cases hn : n = 0
      · subst hn
        simp [Word.asSigned_of_lt (n := 1) (by decide)]
      · rw [List.filter_cons_of_pos (by simpa using hn), List.map_cons, List.prod_cons,
          Nat.max_eq_left (Nat.one_le_iff_ne_zero.mpr hn), Int.mul_comm]
    have hword := (h ((n :: s).filter (· ≠ 0)) List.filter_sublist (by simp)).signed_eq
    rw [← hproduct] at hword ⊢
    exact ⟨_, bind_eq_ok_iff.mpr ⟨_, hbelow, bind_eq_ok_iff.mpr ⟨_, hword, rfl⟩⟩⟩

/-- If no size is beyond a signed word, the product below all axes is exact and fits one. -/
theorem nonzeroProd_lt_of_stridesBelow : ∀ {s : Shape} {product : Int} {strides : List Int},
    (∀ n ∈ s, n < Word.half) → stridesBelow s = .ok (product, strides) →
    product = nonzeroProd s ∧ nonzeroProd s < Word.half
  | [], product, strides, _, h => by
    cases h
    exact ⟨rfl, by decide⟩
  | n :: s, product, strides, hsizes, h => by
    rw [List.forall_mem_cons] at hsizes
    obtain ⟨⟨below, rest⟩, hbelow, h⟩ := bind_eq_ok_iff.mp h
    obtain ⟨next, hnext, h⟩ := bind_eq_ok_iff.mp h
    cases h
    obtain ⟨rfl, _⟩ := nonzeroProd_lt_of_stridesBelow hsizes.2 hbelow
    obtain ⟨⟨_, hhigh⟩, rfl⟩ := Word.signed_eq_ok_iff.mp hnext
    have hmax : max n 1 < Word.half := Nat.max_lt.mpr ⟨hsizes.1, by decide⟩
    have hproduct : (nonzeroProd s : Int) * Word.asSigned (max n 1) = nonzeroProd (n :: s) := by
      rw [Word.asSigned_of_lt hmax, ← Int.natCast_mul]
      by_cases hn : n = 0
      · rw [hn, Shape.nonzeroProd_cons_zero]
        simp
      · rw [Shape.nonzeroProd_cons hn, Nat.max_eq_left (Nat.one_le_iff_ne_zero.mpr hn),
          Nat.mul_comm]
    rw [hproduct] at hhigh ⊢
    exact ⟨rfl, by omega⟩

/-- The expected stride is a product of sizes, so it fits as long as all of them do. -/
theorem followsFrom_eq_ok : ∀ {axes : List (Nat × Int)} {expected : Int},
    (∀ t : List Nat, t.Sublist (axes.map (·.1)) → 0 ∉ t →
      Word.Holds (expected * (t.map Word.asSigned).prod)) →
    ∃ answer, followsFrom expected axes = .ok answer
  | [], expected, _ => ⟨true, rfl⟩
  | (n, stride) :: axes, expected, h => by
    rw [followsFrom]
    split
    · exact followsFrom_eq_ok fun t ht => h t (ht.cons n)
    · next hn =>
      split
      · exact ⟨false, rfl⟩
      · have hnonzero : (0 : Nat) ≠ n := by omega
        have hproducts : ∀ t : List Nat, t.Sublist (axes.map (·.1)) → 0 ∉ t →
            Word.Holds (expected * Word.asSigned n * (t.map Word.asSigned).prod) := by
          intro t ht h0
          have hmore := h (n :: t) (ht.cons_cons n) (List.not_mem_cons_of_ne_of_not_mem hnonzero h0)
          rwa [List.map_cons, List.prod_cons, ← Int.mul_assoc] at hmore
        have hword := hproducts [] (List.nil_sublist _) List.not_mem_nil
        rw [List.map_nil, List.prod_nil, Int.mul_one] at hword
        obtain ⟨answer, hanswer⟩ := followsFrom_eq_ok hproducts
        exact ⟨answer, bind_eq_ok_iff.mpr ⟨_, hword.signed_eq, hanswer⟩⟩

theorem isContiguous_eq_ok {v : View α} (hlen : v.strides.length = v.dims.length)
    (h : Tame v.dims) : ∃ answer, v.isContiguous = .ok answer := by
  refine followsFrom_eq_ok fun t ht h0 => ?_
  rw [List.map_reverse, List.map_fst_zip (Nat.le_of_eq hlen.symm)] at ht
  rw [Int.one_mul]
  exact (h.perm (List.reverse_perm _).symm).signedProducts t ht h0

end View

/-! ## Using an empty shape -/

theorem Operand.materialize_of_numel_zero {α : Type} {x : Operand α} (h : x.numel = .ok 0) :
    x.materialize = .ok ⟨x.shape, #[]⟩ := by
  have hcount : x.shape.numel = .ok 0 := h
  rw [materialize, Index.traverse, hcount]
  rfl

namespace Shape

/-- What should be possible with an empty shape, for data of any kind. -/
structure Usable (α : Type) (dims : Shape) : Prop where
  /-- In any order of the axes, the number of elements is zero. -/
  numel_eq : ∀ order : Shape, order.Perm dims → order.numel = .ok 0
  /-- There is an array with no elements, and it can be viewed. -/
  viewed : ∃ a : Dense α, Dense.ofArray #[] dims = .ok a ∧ ∃ v, a.view = .ok v
  /-- With its axes in any order, a view tells whether it is contiguous and has no elements. -/
  permuted : ∀ (data : Array α) (strides : List Int) (offset : Nat) (v : View α),
    View.new data dims strides offset = .ok v →
    ∀ axes : List Nat, axes.Perm (List.range dims.length) →
      ∃ w, v.permute axes = .ok w ∧ (∃ answer, w.isContiguous = .ok answer) ∧
        ∀ d : DType, (w.toOperand d).materialize = .ok ⟨w.dims, #[]⟩

variable {α : Type} {dims : Shape}

theorem Tame.lt_size (h : Tame dims) (hword : ∀ n ∈ dims, n < Word.size) :
    nonzeroProd dims < Word.size := by
  rcases h with hsmall | hbig
  · exact Nat.lt_trans hsmall (by decide)
  · exact hword _ hbig

theorem Tame.usable (h : Tame dims) (h0 : 0 ∈ dims) (hword : ∀ n ∈ dims, n < Word.size) :
    Usable α dims := by
  have hnumel : ∀ order : Shape, order.Perm dims → order.numel = .ok 0 := fun order horder =>
    numel_of_zero_mem (horder.mem_iff.mpr h0) (nonzeroProd_perm horder ▸ h.lt_size hword)
  refine ⟨hnumel, ?_, ?_⟩
  · obtain ⟨strides, hstrides⟩ := View.stridesBelow_eq_ok h.signedProducts
    refine ⟨⟨dims, #[]⟩, ?_, ⟨#[], dims, strides, 0⟩, ?_⟩
    · rw [Dense.ofArray, hnumel dims (.refl dims)]
      rfl
    · rw [Dense.view, View.rowMajorStrides, hstrides]
      rfl
  · intro data strides offset v hv axes haxes
    obtain ⟨rfl, hlen⟩ := View.new_eq_ok hv
    have hperm : (rearrange axes dims).Perm dims := rearrange_perm haxes
    refine ⟨_, View.permute_eq_ok_iff.mpr ⟨haxes, rfl⟩, ?_, ?_⟩
    · exact View.isContiguous_eq_ok (by simp) (h.perm hperm.symm)
    · intro d
      exact Operand.materialize_of_numel_zero (hnumel _ hperm)

theorem Usable.tame (h : Usable α dims) : Tame dims := by
  have hlt : nonzeroProd dims < Word.size :=
    nonzeroProd_lt_of_numel (h.numel_eq _ (List.filter_append_perm _ dims))
  by_cases hmem : nonzeroProd dims ∈ dims
  · exact .inr hmem
  · have hsizes : ∀ n ∈ dims, n < Word.half := fun _ hn => lt_half_of_notMem hlt hmem hn
    obtain ⟨a, ha, v, hv⟩ := h.viewed
    obtain ⟨count, _, ha⟩ := bind_eq_ok_iff.mp ha
    split at ha
    · cases ha
    · cases ha
      obtain ⟨strides, hstrides, _⟩ := bind_eq_ok_iff.mp hv
      obtain ⟨below, hbelow, _⟩ := bind_eq_ok_iff.mp hstrides
      exact .inl (View.nonzeroProd_lt_of_stridesBelow hsizes hbelow).2

/--
**Which empty shapes can be used.** A shape of words, one of them zero, can be used in every order
of its axes (its elements are counted, the array without elements exists and can be viewed, and
every permuted view of it tells whether it is contiguous and evaluates to nothing) exactly if the
product of its sizes other than zero fits a signed word, or is itself one of the sizes.
-/
theorem usable_iff (h0 : 0 ∈ dims) (hword : ∀ n ∈ dims, n < Word.size) :
    Usable α dims ↔ nonzeroProd dims < Word.half ∨ nonzeroProd dims ∈ dims :=
  ⟨Usable.tame, fun h => Tame.usable h h0 hword⟩

/-- An axis as long as can be, next to an empty one. -/
theorem usable_longest :
    Usable Nat [0xffffffffffffffff, 1, 0] ∧ numel [0xffffffffffffffff, 1, 0] = .ok 0 :=
  have h := (usable_iff (α := Nat) (by decide) (by decide)).mpr
    (.inr (by decide : nonzeroProd [0xffffffffffffffff, 1, 0] ∈ [0xffffffffffffffff, 1, 0]))
  ⟨h, h.numel_eq _ (.refl _)⟩

/--
Two sizes whose product is beyond a word: with the zero in front of them they are counted, with the
zero behind them they are not. A view of this shape is accepted, and can neither tell whether it is
contiguous nor be evaluated.
-/
theorem not_usable_zero_last :
    numel [0, 0x8000000000000000, 2] = .ok 0 ∧
      numel [0x8000000000000000, 2, 0] = .error .overflow ∧
      Dense.ofArray (#[] : Array Nat) [0x8000000000000000, 2, 0] = .error (.fault .overflow) ∧
      (∃ v, View.new (#[] : Array Nat) [0x8000000000000000, 2, 0] [2, 1, 1] 0 = .ok v ∧
        v.isContiguous = .error .overflow ∧
        (v.toOperand .bool).materialize = .error .overflow) ∧
      ¬ Usable Nat [0x8000000000000000, 2, 0] := by
  refine ⟨rfl, rfl, rfl, ⟨_, rfl, rfl, rfl⟩, ?_⟩
  intro h
  cases h.numel_eq _ (.refl _)

end Shape

end Broadcast
