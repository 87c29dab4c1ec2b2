import Broadcast.Proofs.Replacement

/-!
# What a selection takes from its condition

A selection chooses between two operands, element by element, by the truth of a third, its
condition. Of the condition it uses the shape, which is broadcast with the others, and whether each
element differs from zero. The type of the condition takes no part in promotion, and its elements
are not converted. So two conditions of one shape that are true at the same places cannot be told
apart by any selection (`where_by_truth`), even if one holds truth values and the other complex
numbers.
-/

namespace Broadcast

/-! ## The kernel -/

/-- Chooses by its first operand, which is left out of promotion, for any result type. -/
def Kernel.selection : Kernel :=
  ⟨"where", 3, 1, fun _ => true, select⟩

theorem Registry.get?_where : standard.get? "where" = some Kernel.selection := rfl

theorem Kernel.select_eq (condition a b : Value) (d : DType) :
    select [condition, a, b] d = .ok ((if condition.isTruthy then a else b).cast d) := by
  cases hc : condition.isTruthy <;> simp [select, hc]

/-- The element of a selection, by what the three operands gave: the chosen one, converted. -/
def selected (d : DType) (condition first second : Except Fault Value) : Except Fault Value := do
  let c ← condition
  let a ← first
  let b ← second
  return (if c.isTruthy then a else b).cast d

/-- Two elements, or two faults that are the same, that a selection treats alike. -/
def SameTruth : Except Fault Value → Except Fault Value → Prop :=
  SameOutcome fun a b => a.isTruthy = b.isTruthy

theorem selected_congr {condition condition' : Except Fault Value}
    (h : SameTruth condition condition') (d : DType) (first second : Except Fault Value) :
    selected d condition first second = selected d condition' first second := by
  cases condition with
  | error fault =>
    cases condition' with
    | error fault' => exact congrArg Except.error h
    | ok c' => exact absurd h id
  | ok c =>
    cases condition' with
    | error fault' => exact absurd h id
    | ok c' =>
      have htruth : c.isTruthy = c'.isTruthy := h
      simp only [selected, bind, Except.bind, htruth]

/-- Three operands are read one after the other. -/
theorem Layout.gather_triple {α : Type} {x y z : Operand α} {types : List DType} {l : Layout}
    (h : Layout.of ([x, y, z].map (·.shape)) types = .ok l) {index : Index}
    (hb : index.InBounds l.shape) :
    l.gather [x, y, z] index
      = (x.read ((Plan.align x.shape l.shape.rank).project index) >>= fun a =>
          y.read ((Plan.align y.shape l.shape.rank).project index) >>= fun b =>
            z.read ((Plan.align z.shape l.shape.rank).project index) >>= fun c =>
              .ok [a, b, c]) := by
  rw [gather_eq_mapM h hb]
  simp only [List.mapM_cons, List.mapM_nil, bind_assoc, pure_bind]
  rfl

/-- Reading an application to three operands applies the kernel to what they give. -/
theorem Application.read_triple {k : Kernel} {x y z : Operand Value} {e : Application}
    (h : Application.of k [x, y, z] = .ok e) {index : Index}
    (hb : index.InBounds e.toOperand.shape) :
    e.toOperand.read index
      = (x.read ((Plan.align x.shape e.toOperand.shape.rank).project index) >>= fun a =>
          y.read ((Plan.align y.shape e.toOperand.shape.rank).project index) >>= fun b =>
            z.read ((Plan.align z.shape e.toOperand.shape.rank).project index) >>= fun c =>
              k.apply [a, b, c] e.toOperand.dtype) := by
  obtain ⟨_, hkernel, hargs, hlayout⟩ := Application.of_eq_ok h
  show (e.layout.gather e.args index >>= fun elements => e.kernel.apply elements e.layout.dtype) = _
  rw [hkernel, hargs, Layout.gather_triple hlayout hb]
  simp only [bind_assoc]
  rfl

/-! ## Selections -/

namespace Application

variable {c x y : Operand Value}

/-- A selection is built if the three shapes have a common shape; any promoted type will do. -/
theorem build_where (c x y : Operand Value) : Registry.standard.build "where" [c, x, y]
    = (liftM (Layout.of [c.shape, x.shape, y.shape] [x.dtype, y.dtype]) >>= fun l =>
        .ok ⟨.selection, [c, x, y], l⟩ : Except Error Application) := by
  rw [Registry.build_of_get? Registry.get?_where, of_eq_layout rfl (by decide)]
  rfl

theorem layout_of_where {e : Application} (h : Registry.standard.build "where" [c, x, y] = .ok e) :
    e.kernel = .selection ∧ e.args = [c, x, y] ∧
      Layout.of ([c, x, y].map (·.shape)) [x.dtype, y.dtype] = .ok e.layout := by
  rw [build_where] at h
  obtain ⟨l, hl, h⟩ := bind_eq_ok_iff.mp h
  cases h
  exact ⟨rfl, rfl, liftM_conflict_eq_ok_iff.mp hl⟩

theorem dtype_where {e : Application} (h : Registry.standard.build "where" [c, x, y] = .ok e) :
    e.toOperand.dtype = .promoteAll [x.dtype, y.dtype] :=
  (Layout.of_eq_ok (layout_of_where h).2.2).2.1

/-- Reading a selection reads all three operands, whichever is chosen. -/
theorem read_where {e : Application} (h : Registry.standard.build "where" [c, x, y] = .ok e)
    {index : Index} (hb : index.InBounds e.toOperand.shape) :
    e.toOperand.read index = selected (.promoteAll [x.dtype, y.dtype])
      (c.read ((Plan.align c.shape e.toOperand.shape.rank).project index))
      (x.read ((Plan.align x.shape e.toOperand.shape.rank).project index))
      (y.read ((Plan.align y.shape e.toOperand.shape.rank).project index)) := by
  have hof : Application.of Kernel.selection [c, x, y] = .ok e :=
    (Registry.build_of_get? Registry.get?_where).symm.trans h
  rw [read_triple hof hb, ← dtype_where h]
  simp only [Kernel.selection, Kernel.select_eq]
  rfl

end Application

/-! ## Two conditions -/

/-- Selections by conditions of one shape that are true at the same places agree. -/
theorem Application.agrees_where {c c' x y : Operand Value} {e e' : Application}
    (hshape : c.shape = c'.shape)
    (htruth : ∀ index : Index, index.InBounds c.shape → SameTruth (c.read index) (c'.read index))
    (he : Registry.standard.build "where" [c, x, y] = .ok e)
    (he' : Registry.standard.build "where" [c', x, y] = .ok e') :
    e.toOperand.Agrees e'.toOperand := by
  have hl := (layout_of_where he).2.2
  have hl' := (layout_of_where he').2.2
  have hshapes : [c, x, y].map (·.shape) = [c', x, y].map (·.shape) := by simp [hshape]
  have hlayout : e'.layout = e.layout := Except.ok.inj (hl'.symm.trans (hshapes ▸ hl))
  have hout : e'.toOperand.shape = e.toOperand.shape := congrArg Layout.shape hlayout
  refine ⟨hout.symm, congrArg Layout.dtype hlayout.symm, ?_⟩
  intro index hb
  have hown : ((Plan.align c.shape e.toOperand.shape.rank).project index).InBounds c.shape :=
    Layout.project_operand_inBounds hl hb List.mem_cons_self
  rw [read_where he hb, read_where he' (hout ▸ hb), hout, ← hshape]
  exact selected_congr (htruth _ hown) _ _ _

/--
**A condition matters by its truth only.** If two conditions have the same shape and at every index
in bounds their elements are both zero or both not, whatever their types, then selecting between two
operands by the one and by the other fails with the same error, or gives the same shape, the same
type and the same elements. The type is the promoted type of the two operands, and each element is
the chosen one of theirs, converted to that type.
-/
theorem where_by_truth {c c' : Operand Value} (hshape : c.shape = c'.shape)
    (htruth : ∀ index : Index, index.InBounds c.shape → SameTruth (c.read index) (c'.read index))
    (x y : Operand Value) :
    SameOutcome (fun e e' => e.toOperand.Agrees e'.toOperand)
      (Registry.standard.build "where" [c, x, y]) (Registry.standard.build "where" [c', x, y]) ∧
    ∀ e, Registry.standard.build "where" [c, x, y] = .ok e →
      e.toOperand.dtype = .promoteAll [x.dtype, y.dtype] ∧
      ∀ index : Index, index.InBounds e.toOperand.shape →
        e.toOperand.read index = selected (.promoteAll [x.dtype, y.dtype])
          (c.read ((Plan.align c.shape e.toOperand.shape.rank).project index))
          (x.read ((Plan.align x.shape e.toOperand.shape.rank).project index))
          (y.read ((Plan.align y.shape e.toOperand.shape.rank).project index)) := by
  refine ⟨?_, fun e he => ⟨Application.dtype_where he, fun _ hb => Application.read_where he hb⟩⟩
  have hbuild := Application.build_where c x y
  have hbuild' := Application.build_where c' x y
  rw [← hshape] at hbuild'
  cases hl : Layout.of [c.shape, x.shape, y.shape] [x.dtype, y.dtype] with
  | error conflict =>
    rw [hl] at hbuild hbuild'
    rw [hbuild, hbuild']
    exact rfl
  | ok l =>
    rw [hl] at hbuild hbuild'
    have hagrees := Application.agrees_where hshape htruth hbuild hbuild'
    rw [hbuild, hbuild']
    exact hagrees

/-- Complex numbers as an operand, of which the second is zero and the third is not a number. -/
def Operand.complexColumn : Operand Value :=
  ((⟨[3, 1], #[⟨.zero, .ofBits 0x3f800000⟩, ⟨.zero, -.zero⟩, ⟨.nan, .zero⟩]⟩ :
    Dense (DType.complex .single).Elem).toOperand (.complex .single)).map (Value.mk _)

/-- Truth values as an operand, false where the complex numbers are zero. -/
def Operand.truthColumn : Operand Value :=
  ((⟨[3, 1], #[true, false, true]⟩ : Dense DType.bool.Elem).toOperand .bool).map (Value.mk _)

/-- A row of bytes as an operand. -/
def Operand.byteRow : Operand Value :=
  ((⟨[2], #[100, 200]⟩ : Dense (DType.uint .w8).Elem).toOperand (.uint .w8)).map (Value.mk _)

def Operand.minusOne : Operand Value :=
  .scalar (.int .w8) ⟨.int .w8, -1⟩

/-- The same choice between bytes and a negative number, which meet in a wider type. -/
theorem where_by_truth_complex :
    ∃ e e', Registry.standard.build "where" [.complexColumn, .byteRow, .minusOne] = .ok e ∧
      Registry.standard.build "where" [.truthColumn, .byteRow, .minusOne] = .ok e' ∧
      e.toOperand.Agrees e'.toOperand ∧ e.toOperand.shape = [3, 2] ∧
      e.toOperand.read [2, 1] = .ok ⟨.int .w16, 200⟩ ∧
      e.toOperand.read [1, 1] = .ok ⟨.int .w16, -1⟩ := by
  have htruth : ∀ index : Index, index.InBounds [3, 1] →
      SameTruth (Operand.complexColumn.read index) (Operand.truthColumn.read index) := by
    intro index hb
    have hwalk : index ∈ [[0, 0], [1, 0], [2, 0]] := Index.mem_walk.mpr hb
    simp only [List.mem_cons, List.not_mem_nil, or_false] at hwalk
    rcases hwalk with rfl | rfl | rfl
    · show Value.isTruthy ⟨.complex .single, _⟩ = Value.isTruthy ⟨.bool, _⟩
      decide +kernel
    · exact rfl
    · exact rfl
  obtain ⟨hsame, _⟩ := @where_by_truth .complexColumn .truthColumn rfl htruth
    .byteRow .minusOne
  exact ⟨_, _, rfl, rfl, hsame, rfl, rfl, rfl⟩

end Broadcast
