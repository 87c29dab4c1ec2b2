import Broadcast.Proofs.CommonShape
import Broadcast.Proofs.IntegerKernels

/-!
# The order of two operands

A commutative operation gives the same outcome for two operands in either order
(`WordOp.build_swap`). Three layers contribute, each with its own symmetry:

* shapes — the common shape does not change, and a conflict is found on the same axis with its sizes
  in the other order (`Shape.broadcast_swap`)
* types — the promoted type does not change
* elements — on truth values and integers each kernel but subtraction commutes, whatever the types of
  the two values

On floating-point types the last of these fails: of the two zeros, the order kernels keep the one
that comes first.
-/

namespace Broadcast

/-! ## Shapes -/

/-- The conflict between the same sizes in the other order. -/
def Conflict.swap (c : Conflict) : Conflict :=
  ⟨c.axis, c.second, c.first⟩

namespace Shape

theorem mem_axisSizes_congr {shapes shapes' : List Shape} (h : ∀ s, s ∈ shapes ↔ s ∈ shapes')
    (rank axis n : Nat) : n ∈ axisSizes rank axis shapes ↔ n ∈ axisSizes rank axis shapes' := by
  simp only [axisSizes, List.mem_map, h]

theorem IsJoin.congr {sizes sizes' : List Nat} (h : ∀ n, n ∈ sizes ↔ n ∈ sizes') {n : Nat}
    (hn : IsJoin sizes n) : IsJoin sizes' n :=
  ⟨fun m hm => hn.eq_one_or m ((h m).mpr hm), hn.attained.imp_right (h n).mp⟩

theorem Agree.congr {sizes sizes' : List Nat} (h : ∀ n, n ∈ sizes ↔ n ∈ sizes')
    (hagree : Agree sizes) : Agree sizes' :=
  fun m hm n hn => hagree m ((h m).mpr hm) n ((h n).mpr hn)

/-- The common shape depends on nothing but which shapes there are. -/
theorem IsCommon.congr {shapes shapes' : List Shape} (h : ∀ s, s ∈ shapes ↔ s ∈ shapes')
    {out : Shape} (hout : IsCommon shapes out) : IsCommon shapes' out where
  length_le s hs := hout.length_le s ((h s).mpr hs)
  length_attained := by
    refine hout.length_attained.imp_right ?_
    rintro ⟨s, hs, hlen⟩
    exact ⟨s, (h s).mp hs, hlen⟩
  size axis hlt := (hout.size axis hlt).congr (mem_axisSizes_congr h _ _)

theorem maxRank_le_of_subset {shapes shapes' : List Shape} (h : ∀ s ∈ shapes, s ∈ shapes') :
    maxRank shapes ≤ maxRank shapes' := by
  rcases maxRank_attained shapes with hzero | ⟨s, hs, hlen⟩
  · omega
  · rw [← hlen]
    exact length_le_maxRank (h s hs)

theorem maxRank_congr {shapes shapes' : List Shape} (h : ∀ s, s ∈ shapes ↔ s ∈ shapes') :
    maxRank shapes = maxRank shapes' :=
  Nat.le_antisymm (maxRank_le_of_subset fun s hs => (h s).mp hs)
    (maxRank_le_of_subset fun s hs => (h s).mpr hs)

/-- Of two sizes, the first clash is between the one and the other. -/
theorem firstClash_pair_iff {m n first second : Nat} :
    FirstClash [m, n] first second ↔
      m ≠ 1 ∧ n ≠ 1 ∧ m ≠ n ∧ first = m ∧ second = n := by
  unfold FirstClash
  grind

theorem mem_swap {α : Type} (a b x : α) : x ∈ [a, b] ↔ x ∈ [b, a] := by
  simp [or_comm]

theorem FirstConflict.swap {s t : Shape} {c : Conflict} (h : FirstConflict [s, t] c) :
    FirstConflict [t, s] c.swap := by
  have hmem := mem_swap s t
  obtain ⟨hlt, hbefore, hclash⟩ := h
  rw [maxRank_congr hmem] at hlt hbefore hclash
  refine ⟨hlt, ?_, ?_⟩
  · intro axis haxis
    exact (hbefore axis haxis).congr (mem_axisSizes_congr hmem _ _)
  · obtain ⟨hm, hn, hne, hfirst, hsecond⟩ := firstClash_pair_iff.mp hclash
    exact firstClash_pair_iff.mpr ⟨hn, hm, hne.symm, hsecond, hfirst⟩

theorem broadcast_swap (s t : Shape) :
    broadcast [t, s] = (broadcast [s, t]).mapError Conflict.swap := by
  cases h : broadcast [s, t] with
  | ok out =>
    exact broadcast_eq_ok_iff.mpr ((broadcast_eq_ok_iff.mp h).congr (mem_swap s t))
  | error c => exact broadcast_eq_error_iff.mpr (broadcast_eq_error_iff.mp h).swap

end Shape

/-! ## Types and elements -/

theorem DType.promoteAll_swap (a b : DType) : promoteAll [b, a] = promoteAll [a, b] := by
  have hall : ∀ a ∈ all, ∀ b ∈ all, promoteAll [b, a] = promoteAll [a, b] := by decide
  exact hall a (mem_all a) b (mem_all b)

theorem BitOp.onWords_comm (op : BitOp) {n : Nat} (a b : BitVec n) :
    op.onWords a b = op.onWords b a := by
  cases op with
  | and => exact BitVec.and_comm a b
  | or => exact BitVec.or_comm a b
  | xor => exact BitVec.xor_comm a b

/-- On truth values and integers every kernel but subtraction commutes. -/
theorem WordOp.rule_swap {op : WordOp} (hop : op ≠ .ring .subtract) {d : DType}
    (hd : d.isIntegral) (a b : Value) : op.rule d b a = op.rule d a b := by
  cases op with
  | bits op =>
    show d.ofInt (op.onWords _ _).toInt = d.ofInt (op.onWords _ _).toInt
    rw [op.onWords_comm]
  | ring op =>
    rw [rule_ring_eq_wide op hd, rule_ring_eq_wide op hd]
    cases op with
    | add => rw [RingOp.onInt, RingOp.onInt, Int.add_comm]
    | subtract => exact absurd rfl hop
    | multiply => rw [RingOp.onInt, RingOp.onInt, Int.mul_comm]
  | order op =>
    rw [rule_order_eq op hd, rule_order_eq op hd]
    cases op with
    | maximum => rw [OrderOp.onInt, OrderOp.onInt, Int.max_comm]
    | minimum => rw [OrderOp.onInt, OrderOp.onInt, Int.min_comm]

-- The two zeros of a floating-point type are equal numbers and different elements.
example : (WordOp.order .maximum).rule (.float .double) ⟨.float .double, .zero⟩
    ⟨.float .double, -.zero⟩ ≠ (WordOp.order .maximum).rule (.float .double)
    ⟨.float .double, -.zero⟩ ⟨.float .double, .zero⟩ := by decide

/-! ## Applications -/

/-- The outcomes of building an application for two operands in the one and in the other order. -/
inductive Application.Swapped : Except Error Application → Except Error Application → Prop where
  /-- Both orders promote to the same type, which the operation does not take. -/
  | unsupported (name : String) (d : DType) :
    Swapped (.error (.unsupportedDType name d)) (.error (.unsupportedDType name d))
  /-- Both orders clash on the same axis. -/
  | incompatible (c : Conflict) :
    Swapped (.error (.incompatibleShape c)) (.error (.incompatibleShape c.swap))
  /-- Both orders have the same shape and type and, unless it is a floating-point type, elements. -/
  | built {e e' : Application} (shape_eq : e.toOperand.shape = e'.toOperand.shape)
    (dtype_eq : e.toOperand.dtype = e'.toOperand.dtype)
    (read_iff : e.toOperand.dtype.isIntegral → ∀ index : Index,
      index.InBounds e.toOperand.shape → ∀ v,
        (e.toOperand.read index = .ok v ↔ e'.toOperand.read index = .ok v)) :
    Swapped (.ok e) (.ok e')

/-- An application gives an element exactly if both operands do. -/
theorem WordOp.read_eq_ok_iff (op : WordOp) {x y : Operand Value} {e : Application}
    (h : Registry.standard.build op.name [x, y] = .ok e) {index : Index}
    (hb : index.InBounds e.toOperand.shape) {v : Value} :
    e.toOperand.read index = .ok v ↔ ∃ a b,
      x.read ((Plan.align x.shape e.toOperand.shape.rank).project index) = .ok a ∧
      y.read ((Plan.align y.shape e.toOperand.shape.rank).project index) = .ok b ∧
      ⟨e.toOperand.dtype, op.rule e.toOperand.dtype a b⟩ = v := by
  rw [op.read_of_build h hb]
  simp only [bind_eq_ok_iff, Except.ok.injEq, exists_and_left]

namespace WordOp

variable (op : WordOp) {x y : Operand Value}

theorem build_of_conflict {c : Conflict} (h : Shape.broadcast [x.shape, y.shape] = .error c) :
    Registry.standard.build op.name [x, y] = .error (.incompatibleShape c) := by
  rw [build_eq, Layout.of, h]
  rfl

theorem build_of_common {out : Shape} (h : Shape.broadcast [x.shape, y.shape] = .ok out) :
    ∃ e, Registry.standard.build op.name [x, y]
      = if op.supports (.promoteAll [x.dtype, y.dtype]) then .ok e
        else .error (.unsupportedDType op.name (.promoteAll [x.dtype, y.dtype])) := by
  rw [build_eq, Layout.of, h]
  exact ⟨_, rfl⟩

variable {op}

theorem swapped_of_build (hop : op ≠ .ring .subtract) {e e' : Application}
    (he : Registry.standard.build op.name [x, y] = .ok e)
    (he' : Registry.standard.build op.name [y, x] = .ok e') :
    Application.Swapped (.ok e) (.ok e') := by
  obtain ⟨_, _, hlayout⟩ := op.layout_of_build he
  obtain ⟨_, _, hlayout'⟩ := op.layout_of_build he'
  obtain ⟨hout, hd, _⟩ := Layout.of_eq_ok hlayout
  obtain ⟨hout', hd', _⟩ := Layout.of_eq_ok hlayout'
  have hshape : e.toOperand.shape = e'.toOperand.shape := by
    have hswap := Shape.broadcast_swap x.shape y.shape
    rw [show Shape.broadcast [x.shape, y.shape] = .ok e.layout.shape from hout] at hswap
    exact Except.ok.inj (hswap.symm.trans hout')
  have hdtype : e.toOperand.dtype = e'.toOperand.dtype :=
    (hd.trans (DType.promoteAll_swap y.dtype x.dtype)).trans hd'.symm
  refine .built hshape hdtype ?_
  intro hi index hb v
  rw [op.read_eq_ok_iff he hb, op.read_eq_ok_iff he' (hshape ▸ hb), ← hshape, ← hdtype]
  constructor
  · rintro ⟨a, b, ha, hb, rfl⟩
    exact ⟨b, a, hb, ha, by rw [rule_swap hop hi]⟩
  · rintro ⟨b, a, hb, ha, rfl⟩
    exact ⟨a, b, ha, hb, by rw [rule_swap hop hi]⟩

/--
**The order of two operands does not matter** to the bitwise operations, to sums and products and to
the greater and the lesser of two numbers. In both orders the promoted type is the same and not
supported, or the shapes clash on the same axis with the two sizes swapped, or the shape and the type
are the same. Then, if the type is that of truth values or integers, both orders have the same
element at every index in bounds, or neither has one.
-/
theorem build_swap (hop : op ≠ .ring .subtract) (x y : Operand Value) :
    Application.Swapped (Registry.standard.build op.name [x, y])
      (Registry.standard.build op.name [y, x]) := by
  have hswap := Shape.broadcast_swap x.shape y.shape
  cases h : Shape.broadcast [x.shape, y.shape] with
  | error c =>
    rw [h] at hswap
    rw [build_of_conflict op h, build_of_conflict op hswap]
    exact .incompatible c
  | ok out =>
    rw [h] at hswap
    obtain ⟨e, he⟩ := build_of_common op h
    obtain ⟨e', he'⟩ := build_of_common op hswap
    rw [DType.promoteAll_swap] at he'
    by_cases hsupports : op.supports (.promoteAll [x.dtype, y.dtype])
    · rw [if_pos hsupports] at he he'
      rw [he, he']
      exact swapped_of_build hop he he'
    · rw [if_neg hsupports] at he he'
      rw [he, he']
      exact .unsupported _ _

end WordOp

/-- Two signed numbers as an operand. -/
def Operand.signedPair : Operand Value :=
  ((⟨[2], #[100, -100]⟩ : Dense (DType.int .w8).Elem).toOperand (.int .w8)).map (Value.mk _)

/-- The greater of signed numbers and an unsigned one, which meet in a wider type. -/
theorem WordOp.build_swap_maximum :
    ∃ e e', Registry.standard.build "maximum" [.signedPair, .scalar (.uint .w8) ⟨.uint .w8, 200⟩]
        = .ok e ∧
      Registry.standard.build "maximum" [.scalar (.uint .w8) ⟨.uint .w8, 200⟩, .signedPair]
        = .ok e' ∧
      e.toOperand.read [1] = .ok ⟨.int .w16, 200⟩ ∧
      e'.toOperand.read [1] = .ok ⟨.int .w16, 200⟩ := by
  have hop : WordOp.order .maximum ≠ .ring .subtract := by decide
  have h : Application.Swapped (.ok _) (.ok _) :=
    build_swap hop .signedPair (.scalar (.uint .w8) ⟨.uint .w8, 200⟩)
  cases h with
  | built _ _ hread => exact ⟨_, _, rfl, rfl, rfl, (hread rfl [1] (by decide) _).mp rfl⟩

end Broadcast
