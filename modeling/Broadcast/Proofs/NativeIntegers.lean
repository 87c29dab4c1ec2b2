import Broadcast.Pointwise.Catalogue
import Broadcast.Proofs.IntegerKernels
import Broadcast.Proofs.Tags

/-!
# Kernels and typed functions agree on integers

An operation on integers can be had in two ways: as a kernel by its name, which finds the types of
the operands when it is applied, or as a function on elements of fixed types, which converts both
operands to the promoted type and carries out the operation on the words of that type. Both ways give
the same (`WordOp.build_agrees_typed`), as long as the elements of the operands have the types that
they report.
-/

namespace Broadcast

/-! ## Conversion of words -/

namespace DType

/-- The word for an element: signed words are filled with their sign, all others with zeros. -/
def toWord (n : Nat) : (s : DType) → s.isIntegral = true → s.Elem → BitVec n
  | bool, _, b => (BitVec.ofBool b).setWidth n
  | int _, _, x => x.signExtend n
  | uint _, _, x => x.setWidth n

/-- The element of an integer type for an element that is a whole number. -/
def convert (s : DType) (hs : s.isIntegral = true) : (d : DType) → d.isInteger = true →
    s.Elem → d.Elem
  | int w, _, x => s.toWord w.bits hs x
  | uint w, _, x => s.toWord w.bits hs x

theorem toWord_eq_ofInt {n : Nat} {s : DType} (hs : s.isIntegral = true) (x : s.Elem) :
    s.toWord n hs x = BitVec.ofInt n (Value.toInt ⟨s, x⟩) := by
  cases s with
  | bool =>
    show (BitVec.ofBool x).setWidth n = BitVec.ofInt n x.toInt
    rw [← BitVec.ofNat_toNat, ← BitVec.ofInt_natCast]
    cases x <;> rfl
  | int w => rfl
  | uint w =>
    show BitVec.setWidth n x = BitVec.ofInt n (BitVec.toNat x : Int)
    rw [BitVec.ofInt_natCast, BitVec.ofNat_toNat]
  | float p | complex p => cases hs

theorem convert_eq_ofInt {s d : DType} (hs : s.isIntegral = true) (hd : d.isInteger = true)
    (x : s.Elem) : s.convert hs d hd x = d.ofInt (Value.toInt ⟨s, x⟩) := by
  cases d with
  | int w | uint w => exact toWord_eq_ofInt hs x
  | bool | float p | complex p => cases hd

end DType

/-! ## Typed functions -/

/-- The function that converts two elements to an integer type and carries out the operation. -/
def WordOp.typed (op : WordOp) (s t d : DType) (hs : s.isIntegral = true)
    (ht : t.isIntegral = true) (hd : d.isInteger = true) : Pointwise :=
  .typed op.name [s, t] d fun p q => op.native d hd (s.convert hs d hd p) (t.convert ht d hd q)

theorem WordOp.apply_typed (op : WordOp) {s t d : DType} {a b : Value} (ha : a.dtype = s)
    (hb : b.dtype = t) (hs : s.isIntegral = true) (ht : t.isIntegral = true)
    (hd : d.isInteger = true) :
    (op.typed s t d hs ht hd).apply [a, b]
      = .ok ⟨d, op.native d hd (d.ofInt a.toInt) (d.ofInt b.toInt)⟩ := by
  subst ha hb
  show Except.ok (Value.mk d (op.native d hd (a.dtype.convert hs d hd (a.elemAs a.dtype))
    (b.dtype.convert ht d hd (b.elemAs b.dtype)))) = _
  rw [DType.convert_eq_ofInt, DType.convert_eq_ofInt, ← Value.cast, ← Value.cast, Value.cast_self,
    Value.cast_self]

/-! ## Agreement -/

namespace WordOp

variable {x y : Operand Value} {d : DType}

/-- The elements that are gathered from two operands have the types that these report. -/
theorem tags_of_gather {types : List DType} {l : Layout} {index : Index} {elements : List Value}
    (hx : x.Tagged) (hy : y.Tagged) (hl : Layout.of ([x, y].map (·.shape)) types = .ok l)
    (hb : index.InBounds l.shape) (h : l.gather [x, y] index = .ok elements) :
    ∃ a b, elements = [a, b] ∧ a.dtype = x.dtype ∧ b.dtype = y.dtype := by
  rw [Layout.gather_pair hl hb] at h
  obtain ⟨a, ha, h⟩ := bind_eq_ok_iff.mp h
  obtain ⟨b, hb', h⟩ := bind_eq_ok_iff.mp h
  cases h
  have hpx := Layout.project_operand_inBounds hl hb List.mem_cons_self
  have hpy := Layout.project_operand_inBounds hl hb (List.mem_cons_of_mem x List.mem_cons_self)
  exact ⟨a, b, rfl, hx _ hpx a ha, hy _ hpy b hb'⟩

end WordOp

/--
**Kernels and typed functions agree on integers.** Let the elements of two operands have the types
that these report, truth values or integers, and let the promoted type be an integer. Then the
application of a bitwise, ring or order kernel is built exactly if the typed function is: the shapes
clash in the same conflict, or both have the same shape and the promoted type. At every index in
bounds both read the same: the operation on words of the promoted type, at the two elements
converted to it.
-/
theorem WordOp.build_agrees_typed (op : WordOp) {x y : Operand Value} {d : DType}
    (hx : x.Tagged) (hy : y.Tagged) (hxi : x.dtype.isIntegral) (hyi : y.dtype.isIntegral)
    (hd : DType.promoteAll [x.dtype, y.dtype] = d) (hdi : d.isInteger) :
    SameOutcome (fun e e' => Operand.Agrees e.toOperand e'.toOperand)
      (Registry.standard.build op.name [x, y])
      (Nary.of (op.typed x.dtype y.dtype d hxi hyi hdi) [x, y]) := by
  have hnary : Nary.of (op.typed x.dtype y.dtype d hxi hyi hdi) [x, y]
      = (liftM (Layout.of [x.shape, y.shape] [x.dtype, y.dtype]) >>= fun l =>
        .ok ⟨op.typed x.dtype y.dtype d hxi hyi hdi, [x, y], l⟩ : Except Error Nary) := rfl
  rw [build_eq, hnary]
  cases hl : Layout.of [x.shape, y.shape] [x.dtype, y.dtype] with
  | error conflict => exact rfl
  | ok l =>
    obtain ⟨_, hdtype, _⟩ := Layout.of_eq_ok hl
    have hld : l.dtype = d := hdtype.trans hd
    show SameOutcome _ (if op.supports l.dtype then _ else _) (.ok _)
    rw [hld, if_pos (op.supports_of_isInteger hdi)]
    refine ⟨rfl, hld, ?_⟩
    intro index hb
    show (l.gather [x, y] index >>= fun elements => op.kernel.apply elements l.dtype)
      = (l.gather [x, y] index >>= (op.typed x.dtype y.dtype d hxi hyi hdi).apply)
    cases hgather : l.gather [x, y] index with
    | error fault => rfl
    | ok elements =>
      obtain ⟨a, b, rfl, ha, hb⟩ := tags_of_gather hx hy hl hb hgather
      have htypes : ∀ t ∈ [x.dtype, y.dtype], t.isIntegral := by simp [hxi, hyi]
      have hdi' := DType.isIntegral_of_isInteger hdi
      have hrep : ∀ v : Value, v.dtype ∈ [x.dtype, y.dtype] → d.Represents v.toInt :=
        fun v hv => (DType.represents_toInt (htypes _ hv) v.elem).promoteAll htypes hd hdi' hv
      show Except.ok (Value.mk l.dtype (op.rule l.dtype a b)) = _
      refine Eq.trans ?_ (op.apply_typed ha hb hxi hyi hdi).symm
      rw [hld, op.rule_eq_native hdi (ha ▸ hxi) (hb ▸ hyi) (hrep a (by simp [ha]))
        (hrep b (by simp [hb]))]

/-- A column of signed numbers. -/
def Operand.signedColumn : Operand Value :=
  ((⟨[2, 1], #[300, -200]⟩ : Dense (DType.int .w16).Elem).toOperand (.int .w16)).map (Value.mk _)

/-- A row of unsigned numbers, narrower than those of the column. -/
def Operand.unsignedRow : Operand Value :=
  ((⟨[2], #[7, 255]⟩ : Dense (DType.uint .w8).Elem).toOperand (.uint .w8)).map (Value.mk _)

/-- Products of a column and a row, one of them beyond the range of the promoted type. -/
theorem WordOp.build_agrees_typed_products :
    ∃ e e', Registry.standard.build "multiply" [.signedColumn, .unsignedRow] = .ok e ∧
      Nary.of ((WordOp.ring .multiply).typed (.int .w16) (.uint .w8) (.int .w16) rfl rfl rfl)
        [.signedColumn, .unsignedRow] = .ok e' ∧
      Operand.Agrees e.toOperand e'.toOperand ∧ e.toOperand.shape = [2, 2] ∧
      e.toOperand.read [1, 0] = .ok ⟨.int .w16, -1400⟩ ∧
      e.toOperand.read [0, 1] = .ok ⟨.int .w16, 76500 - 65536⟩ := by
  have hcolumn : Operand.signedColumn.Tagged := (Operand.typed_map_mk rfl).tagged
  have hrow : Operand.unsignedRow.Tagged := (Operand.typed_map_mk rfl).tagged
  have hd : DType.promoteAll [Operand.signedColumn.dtype, Operand.unsignedRow.dtype]
      = .int .w16 := by decide
  have h := build_agrees_typed (.ring .multiply) hcolumn hrow rfl rfl hd rfl
  exact ⟨_, _, rfl, rfl, h, rfl, rfl, rfl⟩

end Broadcast
