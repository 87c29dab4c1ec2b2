import Broadcast.Proofs.BuildOutcome
import Broadcast.Proofs.OperandOrder
import Broadcast.Proofs.PromotedTypes
import Broadcast.Proofs.Selection
import Broadcast.Proofs.Tags
import Broadcast.Proofs.WrapOnce

/-!
# Clipping whole numbers

Clipping takes the greater of an element and a lower bound, converts it to the result type, and
takes the lesser of that and an upper bound. The three operands may have different types. The
conversion in between loses nothing, because the promoted type holds the numbers of every operand
(`Operand.Integral.represents`). So a clipped element is the exact number `min (max a low) high`,
and all else follows from this (`Value.Clips`).

The result has the shape and the type that it would have if it were clipped again
(`Operand.Integral.replace`), so clipping again by the same bounds changes nothing.
-/

namespace Broadcast

/-! ## Numbers between bounds -/

namespace DType

variable {d : DType} {m n : Int}

theorem Represents.max (hm : d.Represents m) (hn : d.Represents n) : d.Represents (max m n) := by
  rcases max_choice m n with h | h <;> rw [h] <;> assumption

theorem Represents.min (hm : d.Represents m) (hn : d.Represents n) : d.Represents (min m n) := by
  rcases min_choice m n with h | h <;> rw [h] <;> assumption

end DType

namespace Value

/-- Values of whole numbers are told apart by their types and numbers. -/
theorem eq_of_toInt_eq : ∀ {v w : Value}, v.dtype.isIntegral → v.dtype = w.dtype →
    v.toInt = w.toInt → v = w
  | ⟨d, x⟩, ⟨_, y⟩, hd, rfl, h => by
    have helem : x = y := by rw [← DType.ofInt_toInt hd x, h, DType.ofInt_toInt hd y]
    rw [helem]

/-- A value of type `d` whose number is that of `a`, held above `low` and then below `high`. -/
structure Clips (v : Value) (d : DType) (a low high : Value) : Prop where
  dtype_eq : v.dtype = d
  toInt_eq : v.toInt = min (max a.toInt low.toInt) high.toInt

variable {v w a a' low high : Value} {d d' : DType}

theorem clips_clipRule (hd : d.isIntegral) (ha : d.Represents a.toInt)
    (hlow : d.Represents low.toInt) (hhigh : d.Represents high.toInt) :
    Clips ⟨d, Kernel.clipRule d a low high⟩ d a low high := by
  refine ⟨rfl, ?_⟩
  have hgreater : toInt ⟨d, Kernel.greater.rule d a low⟩ = max a.toInt low.toInt := by
    rw [Kernel.Arithmetic.rule_of_isIntegral _ hd]
    exact (ha.max hlow).toInt_ofInt
  rw [Kernel.clipRule, Kernel.Arithmetic.rule_of_isIntegral _ hd, hgreater]
  exact ((ha.max hlow).min hhigh).toInt_ofInt

namespace Clips

theorem between (h : v.Clips d a low high) (hle : low.toInt ≤ high.toInt) :
    low.toInt ≤ v.toInt ∧ v.toInt ≤ high.toInt := by
  have hv := h.toInt_eq
  omega

theorem eq_high (h : v.Clips d a low high) (hlt : high.toInt < low.toInt) :
    v.toInt = high.toInt := by
  have hv := h.toInt_eq
  omega

theorem mono (h : v.Clips d a low high) (h' : w.Clips d' a' low high) (hle : a.toInt ≤ a'.toInt) :
    v.toInt ≤ w.toInt := by
  rw [h.toInt_eq, h'.toInt_eq]
  omega

/-- A clipped value that is clipped again by the same bounds stays what it is. -/
theorem eq_of_again (hd : d.isIntegral) (h : v.Clips d a low high) (h' : w.Clips d v low high) :
    w = v := by
  refine eq_of_toInt_eq (h'.dtype_eq ▸ hd) (h'.dtype_eq.trans h.dtype_eq.symm) ?_
  have hv := h.toInt_eq
  have hw := h'.toInt_eq
  omega

end Clips

end Value

/-! ## Operands of whole numbers -/

namespace Operand

/--
Operands of whole numbers, whose elements have the reported types, with a common shape and a
promoted type that is one of whole numbers again.
-/
structure Integral (args : List (Operand Value)) (d : DType) (out : Shape) : Prop where
  tagged : ∀ x ∈ args, x.Tagged
  isIntegral : ∀ x ∈ args, x.dtype.isIntegral
  promoteAll_eq : DType.promoteAll (args.map (·.dtype)) = d
  isIntegral_result : d.isIntegral
  broadcast_eq : Shape.broadcast (args.map (·.shape)) = .ok out

namespace Integral

variable {args rest : List (Operand Value)} {x y : Operand Value} {d : DType} {out : Shape}

theorem isIntegral_dtypes (h : Integral args d out) : ∀ t ∈ args.map (·.dtype), t.isIntegral := by
  intro t ht
  obtain ⟨x, hx, rfl⟩ := List.mem_map.mp ht
  exact h.isIntegral x hx

/-- The promoted type holds every number that is read. -/
theorem represents (h : Integral args d out) (hx : x ∈ args) {index : Index}
    (hb : index.InBounds out) {v : Value}
    (hv : x.read ((Plan.align x.shape out.rank).project index) = .ok v) :
    d.Represents v.toInt := by
  have hown := (project_inBounds h.broadcast_eq (List.mem_map_of_mem hx) hb).2
  have htag := h.tagged x hx _ hown v hv
  refine DType.Represents.promoteAll h.isIntegral_dtypes h.promoteAll_eq h.isIntegral_result
    (List.mem_map_of_mem hx) ?_
  rw [← htag]
  exact DType.represents_toInt (htag ▸ h.isIntegral x hx) v.elem

/-- The promoted type, listed in place of one operand, promotes with the others to itself. -/
theorem joinIntegers_cons (h : Integral (x :: rest) d out) :
    DType.joinIntegers (d :: rest.map (·.dtype)) = d := by
  have hjoin : DType.joinIntegers ((x :: rest).map (·.dtype)) = d := by
    rw [← DType.promoteAll_eq_joinIntegers h.isIntegral_dtypes, h.promoteAll_eq]
  calc DType.joinIntegers (d :: rest.map (·.dtype))
      = .promote (.joinIntegers [d]) (.joinIntegers (rest.map (·.dtype))) :=
        DType.joinIntegers_append [d] _
    _ = .promote (.joinIntegers ((x :: rest).map (·.dtype)))
          (.joinIntegers (rest.map (·.dtype))) := by
        rw [DType.joinIntegers_singleton h.isIntegral_result, hjoin]
    _ = .joinIntegers ((x :: rest).map (·.dtype) ++ rest.map (·.dtype)) :=
        (DType.joinIntegers_append _ _).symm
    _ = d := by
        rw [← hjoin]
        exact DType.joinIntegers_congr fun t => by simp

/-- So does the common shape. -/
theorem broadcast_cons (h : Integral (x :: rest) d out) :
    Shape.broadcast (out :: rest.map (·.shape)) = .ok out := by
  refine (@Shape.broadcast_nested_iff [] _ _ _ _ h.broadcast_eq).mpr ?_
  refine Shape.broadcast_eq_ok_iff.mpr ((Shape.broadcast_eq_ok_iff.mp h.broadcast_eq).congr ?_)
  intro s
  simp

/-- The first operand may be replaced by one of the common shape and the promoted type. -/
theorem replace (h : Integral (x :: rest) d out) (hy : y.Tagged) (hshape : y.shape = out)
    (hdtype : y.dtype = d) : Integral (y :: rest) d out := by
  have htail : ∀ z ∈ rest, z ∈ x :: rest := fun z hz => List.mem_cons_of_mem x hz
  have hintegral : ∀ z ∈ y :: rest, z.dtype.isIntegral :=
    List.forall_mem_cons.mpr
      ⟨hdtype ▸ h.isIntegral_result, fun z hz => h.isIntegral z (htail z hz)⟩
  refine ⟨List.forall_mem_cons.mpr ⟨hy, fun z hz => h.tagged z (htail z hz)⟩, hintegral, ?_,
    h.isIntegral_result, ?_⟩
  · rw [DType.promoteAll_eq_joinIntegers (by simpa using hintegral), List.map_cons, hdtype]
    exact h.joinIntegers_cons
  · rw [List.map_cons, hshape]
    exact h.broadcast_cons

end Integral

end Operand

/-! ## Clipped operands -/

/-- Holds its first operand between the other two, for any result type that has an order. -/
def Kernel.clipping : Kernel :=
  ⟨"clip", 3, 0, isOrdered, ternary clipRule⟩

theorem Registry.get?_clip : standard.get? "clip" = some Kernel.clipping := rfl

theorem Kernel.isOrdered_of_isIntegral : ∀ {d : DType}, d.isIntegral → isOrdered d := by
  decide

namespace Application

variable {x low high : Operand Value} {d : DType} {out : Shape} {e : Application}

open Operand (Integral)

theorem build_clip (h : Integral [x, low, high] d out) :
    ∃ e, Registry.standard.build "clip" [x, low, high] = .ok e ∧ e.toOperand.shape = out ∧
      e.toOperand.dtype = d := by
  have hsupports : Kernel.clipping.supports (Kernel.clipping.resultType [x, low, high]) := by
    rw [show Kernel.clipping.resultType [x, low, high] = d from h.promoteAll_eq]
    exact Kernel.isOrdered_of_isIntegral h.isIntegral_result
  rw [Registry.build_of_get? Registry.get?_clip,
    of_of_common (k := .clipping) rfl (by decide) h.broadcast_eq, if_pos hsupports]
  exact ⟨_, rfl, rfl, h.promoteAll_eq⟩

theorem layout_of_clip (h : Integral [x, low, high] d out)
    (he : Registry.standard.build "clip" [x, low, high] = .ok e) :
    e.toOperand.shape = out ∧ e.toOperand.dtype = d := by
  obtain ⟨e', he', hshape, hdtype⟩ := build_clip h
  cases he.symm.trans he'
  exact ⟨hshape, hdtype⟩

/-- Reading a clipped operand reads all three operands and applies the rule. -/
theorem read_clip (h : Integral [x, low, high] d out)
    (he : Registry.standard.build "clip" [x, low, high] = .ok e) {index : Index}
    (hb : index.InBounds out) :
    e.toOperand.read index
      = (x.read ((Plan.align x.shape out.rank).project index) >>= fun a =>
          low.read ((Plan.align low.shape out.rank).project index) >>= fun b =>
            high.read ((Plan.align high.shape out.rank).project index) >>= fun c =>
              .ok ⟨d, Kernel.clipRule d a b c⟩) := by
  obtain ⟨rfl, rfl⟩ := layout_of_clip h he
  rw [Registry.build_of_get? Registry.get?_clip] at he
  exact read_triple he hb

/-- The elements that three operands give at the projections of an index of the common shape. -/
structure Meet (x low high : Operand Value) (out : Shape) (index : Index) (a b c : Value) :
    Prop where
  first : x.read ((Plan.align x.shape out.rank).project index) = .ok a
  low : low.read ((Plan.align low.shape out.rank).project index) = .ok b
  high : high.read ((Plan.align high.shape out.rank).project index) = .ok c

variable {index : Index} {a b c v : Value}

theorem Meet.clips (h : Integral [x, low, high] d out) (hb : index.InBounds out)
    (hmeet : Meet x low high out index a b c) : Value.Clips ⟨d, Kernel.clipRule d a b c⟩ d a b c :=
  Value.clips_clipRule h.isIntegral_result (h.represents (by simp) hb hmeet.first)
    (h.represents (by simp) hb hmeet.low) (h.represents (by simp) hb hmeet.high)

/-- Where all three operands give an element, so does the clipped one, and it is the exact one. -/
theorem exists_read_clip (h : Integral [x, low, high] d out)
    (he : Registry.standard.build "clip" [x, low, high] = .ok e) (hb : index.InBounds out)
    (hmeet : Meet x low high out index a b c) :
    ∃ v, e.toOperand.read index = .ok v ∧ v.Clips d a b c := by
  refine ⟨_, ?_, hmeet.clips h hb⟩
  rw [read_clip h he hb, hmeet.first, hmeet.low, hmeet.high]
  rfl

theorem exists_meet (h : Integral [x, low, high] d out)
    (he : Registry.standard.build "clip" [x, low, high] = .ok e) (hb : index.InBounds out)
    (hv : e.toOperand.read index = .ok v) :
    ∃ a b c, Meet x low high out index a b c ∧ v.Clips d a b c := by
  rw [read_clip h he hb] at hv
  obtain ⟨a, ha, hv⟩ := bind_eq_ok_iff.mp hv
  obtain ⟨b, hlow, hv⟩ := bind_eq_ok_iff.mp hv
  obtain ⟨c, hhigh, hv⟩ := bind_eq_ok_iff.mp hv
  cases hv
  have hmeet : Meet x low high out index a b c := ⟨ha, hlow, hhigh⟩
  exact ⟨a, b, c, hmeet, hmeet.clips h hb⟩

/-- Clipping a clipped operand by the same bounds is possible, and changes nothing. -/
theorem build_clip_again (h : Integral [x, low, high] d out)
    (he : Registry.standard.build "clip" [x, low, high] = .ok e) :
    ∃ e', Registry.standard.build "clip" [e.toOperand, low, high] = .ok e' ∧
      e'.toOperand.Agrees e.toOperand := by
  obtain ⟨hshape, hdtype⟩ := layout_of_clip h he
  have htagged : e.toOperand.Tagged :=
    (typed (Kernel.typed_ternary _ _ _ _)
      ((Registry.build_of_get? Registry.get?_clip).symm.trans he)).tagged
  have hagain := h.replace htagged hshape hdtype
  obtain ⟨e', he', hshape', hdtype'⟩ := build_clip hagain
  refine ⟨e', he', hshape'.trans hshape.symm, hdtype'.trans hdtype.symm, ?_⟩
  intro index hb
  rw [hshape'] at hb
  -- The clipped operand has the common shape already, so it is read where its result is.
  have hself : (Plan.align e.toOperand.shape out.rank).project index = index := by
    rw [hshape]
    exact Plan.project_self hb
  cases hv : e.toOperand.read index with
  | error fault =>
    rw [read_clip hagain he' hb, hself, hv]
    rfl
  | ok v =>
    obtain ⟨a, b, c, hmeet, hclips⟩ := exists_meet h he hb hv
    have hmeet' : Meet e.toOperand low high out index v b c :=
      ⟨hself.symm ▸ hv, hmeet.low, hmeet.high⟩
    obtain ⟨w, hw, hclips'⟩ := exists_read_clip hagain he' hb hmeet'
    rw [hw, hclips.eq_of_again h.isIntegral_result hclips']

/--
**Clipping whole numbers is exact.** Let three operands hold truth values or integers of their
reported types, have a common shape, and promote to truth values or to an integer type. Then the
first one can be clipped by the other two. The result has that shape and type, and wherever the
operands give `a`, `b` and `c` it gives the number `min (max a b) c`, without wrapping: a number
between the bounds if they are in order, else the upper bound. Clipping another operand that is not
less at an index gives no less there. Clipping the result again by the same bounds gives the same
shape, type and elements.
-/
theorem clip_exact (h : Integral [x, low, high] d out) :
    ∃ e, Registry.standard.build "clip" [x, low, high] = .ok e ∧ e.toOperand.shape = out ∧
      e.toOperand.dtype = d ∧
      (∀ index : Index, index.InBounds out → ∀ a b c, Meet x low high out index a b c →
        ∃ v, e.toOperand.read index = .ok v ∧ v.dtype = d ∧
          v.toInt = min (max a.toInt b.toInt) c.toInt ∧
          (b.toInt ≤ c.toInt → b.toInt ≤ v.toInt ∧ v.toInt ≤ c.toInt) ∧
          (c.toInt < b.toInt → v.toInt = c.toInt)) ∧
      (∀ (x' : Operand Value) (d' : DType), Integral [x', low, high] d' out →
        ∃ e', Registry.standard.build "clip" [x', low, high] = .ok e' ∧
          ∀ index : Index, index.InBounds out → ∀ a a' b c, Meet x low high out index a b c →
            Meet x' low high out index a' b c → a.toInt ≤ a'.toInt →
            ∃ v v', e.toOperand.read index = .ok v ∧ e'.toOperand.read index = .ok v' ∧
              v.toInt ≤ v'.toInt) ∧
      ∃ e', Registry.standard.build "clip" [e.toOperand, low, high] = .ok e' ∧
        e'.toOperand.Agrees e.toOperand := by
  obtain ⟨e, he, hshape, hdtype⟩ := build_clip h
  refine ⟨e, he, hshape, hdtype, ?_, ?_, build_clip_again h he⟩
  · intro index hb a b c hmeet
    obtain ⟨v, hv, hclips⟩ := exists_read_clip h he hb hmeet
    exact ⟨v, hv, hclips.dtype_eq, hclips.toInt_eq, hclips.between, hclips.eq_high⟩
  · intro x' d' h'
    obtain ⟨e', he', _⟩ := build_clip h'
    refine ⟨e', he', ?_⟩
    intro index hb a a' b c hmeet hmeet' hle
    obtain ⟨v, hv, hclips⟩ := exists_read_clip h he hb hmeet
    obtain ⟨v', hv', hclips'⟩ := exists_read_clip h' he' hb hmeet'
    exact ⟨v, v', hv, hv', hclips.mono hclips' hle⟩

end Application

namespace Operand

/-- Some elements of one type as an operand. -/
def elements (d : DType) (dims : Shape) (data : Array d.Elem) : Operand Value :=
  ((⟨dims, data⟩ : Dense d.Elem).toOperand d).map (Value.mk d)

theorem tagged_elements (d : DType) (dims : Shape) (data : Array d.Elem) :
    (elements d dims data).Tagged :=
  (typed_map_mk rfl).tagged

/-- A column of numbers to clip. -/
def levels : Operand Value :=
  elements (.int .w8) [2, 1] #[-100, 127]

/-- A row of lower bounds, the second of which is above the only upper bound. -/
def floors : Operand Value :=
  elements (.uint .w8) [2] #[0, 200]

def ceiling : Operand Value :=
  elements (.int .w16) [] #[100]

theorem integral_levels : Integral [levels, floors, ceiling] (.int .w16) [2, 2] where
  tagged := by simp [levels, floors, ceiling, tagged_elements]
  isIntegral := by decide
  promoteAll_eq := rfl
  isIntegral_result := rfl
  broadcast_eq := rfl

end Operand

/-- Signed and unsigned bytes, clipped in a type that is wider than both. -/
theorem Application.clip_exact_levels :
    ∃ e e', Registry.standard.build "clip" [.levels, .floors, .ceiling] = .ok e ∧
      e.toOperand.dtype = .int .w16 ∧
      (∃ v, e.toOperand.read [0, 0] = .ok v ∧ v.toInt = 0) ∧
      (∃ v, e.toOperand.read [1, 0] = .ok v ∧ v.toInt = 100) ∧
      (∃ v, e.toOperand.read [1, 1] = .ok v ∧ v.toInt = 100) ∧
      Registry.standard.build "clip" [e.toOperand, .floors, .ceiling] = .ok e' ∧
      e'.toOperand.Agrees e.toOperand := by
  obtain ⟨e, he, _, hdtype, helement, _, e', he', hagrees⟩ := clip_exact Operand.integral_levels
  obtain ⟨v, hv, _, hlow, _⟩ := helement [0, 0] (by decide) _ _ _ ⟨rfl, rfl, rfl⟩
  obtain ⟨v', hv', _, hhigh, _⟩ := helement [1, 0] (by decide) _ _ _ ⟨rfl, rfl, rfl⟩
  obtain ⟨w, hw, _, _, _, hcrossed⟩ := helement [1, 1] (by decide) _ _ _ ⟨rfl, rfl, rfl⟩
  exact ⟨e, e', he, hdtype, ⟨v, hv, hlow⟩, ⟨v', hv', hhigh⟩, ⟨w, hw, hcrossed (by decide)⟩, he',
    hagrees⟩

end Broadcast
