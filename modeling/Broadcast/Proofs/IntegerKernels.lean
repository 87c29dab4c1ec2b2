import Broadcast.Proofs.Building
import Broadcast.Proofs.Integers
import Broadcast.Proofs.Projection

/-!
# Kernels on integers

Eight standard kernels of two operands have a counterpart on the words of each width: the bitwise
operations, the ring operations and the choice by order. Kernels work in 128 bits on the numbers of
their operands and wrap the result to its type. That this is the operation on words of the result
type (`WordOp.rule_eq_native`) has a reason of its own for each of the three families:

* `BitOp` — cutting a word down to fewer bits commutes with each bitwise operation
* `RingOp` — so does wrapping a number with each ring operation, also where 128 bits overflow
* `OrderOp` — the order of numbers is that of the words only if the result type holds both numbers
-/

namespace Broadcast

/-! ## Operations on words -/

/-- An operation on each bit of two words. -/
inductive BitOp where
  | and
  | or
  | xor
  deriving DecidableEq, Repr

/-- An operation of the ring of words. -/
inductive RingOp where
  | add
  | subtract
  | multiply
  deriving DecidableEq, Repr

/-- The choice of one of two words by their order. -/
inductive OrderOp where
  | maximum
  | minimum
  deriving DecidableEq, Repr

/-- An operation that takes two words of one width to a word of that width. -/
inductive WordOp where
  | bits (op : BitOp)
  | ring (op : RingOp)
  | order (op : OrderOp)
  deriving DecidableEq, Repr

namespace BitOp

def onWords {n : Nat} : BitOp → BitVec n → BitVec n → BitVec n
  | and, a, b => a &&& b
  | or, a, b => a ||| b
  | xor, a, b => a ^^^ b

def name : BitOp → String
  | and => "bitwise_and"
  | or => "bitwise_or"
  | xor => "bitwise_xor"

end BitOp

namespace RingOp

/-- The operation modulo two to the power of the width. -/
def onWords {n : Nat} : RingOp → BitVec n → BitVec n → BitVec n
  | add, a, b => a + b
  | subtract, a, b => a - b
  | multiply, a, b => a * b

/-- The operation on all integers. -/
def onInt : RingOp → Int → Int → Int
  | add, a, b => a + b
  | subtract, a, b => a - b
  | multiply, a, b => a * b

def name : RingOp → String
  | add => "add"
  | subtract => "subtract"
  | multiply => "multiply"

def arithmetic : RingOp → Kernel.Arithmetic
  | add => Kernel.addition
  | subtract => Kernel.subtraction
  | multiply => Kernel.multiplication

end RingOp

namespace OrderOp

/-- The choice between two words by a comparison. -/
def onWords {n : Nat} (le : BitVec n → BitVec n → Bool) : OrderOp → BitVec n → BitVec n → BitVec n
  | maximum, a, b => if le a b then b else a
  | minimum, a, b => if le a b then a else b

def onInt : OrderOp → Int → Int → Int
  | maximum, a, b => max a b
  | minimum, a, b => min a b

def name : OrderOp → String
  | maximum => "maximum"
  | minimum => "minimum"

def arithmetic : OrderOp → Kernel.Arithmetic
  | maximum => Kernel.greater
  | minimum => Kernel.lesser

end OrderOp

namespace WordOp

/-- The operation on words that are ordered by `le`. -/
def onWords {n : Nat} (le : BitVec n → BitVec n → Bool) : WordOp → BitVec n → BitVec n → BitVec n
  | bits op => op.onWords
  | ring op => op.onWords
  | order op => op.onWords le

/-- The operation on the elements of an integer type, ordered as signed or as unsigned words. -/
def native (op : WordOp) : (d : DType) → d.isInteger = true → d.Elem → d.Elem → d.Elem
  | .int _, _ => op.onWords BitVec.sle
  | .uint _, _ => op.onWords BitVec.ule

def name : WordOp → String
  | bits op => op.name
  | ring op => op.name
  | order op => op.name

/-- The result types that the kernel of an operation is defined for. -/
def supports : WordOp → DType → Bool
  | bits _ => Kernel.isBitwise
  | ring _ => Kernel.isArithmetic
  | order _ => Kernel.isOrdered

/-- What the kernel of an operation computes. -/
def rule : WordOp → (d : DType) → Value → Value → d.Elem
  | bits op => Kernel.onBits op.onWords
  | ring op => op.arithmetic.rule
  | order op => op.arithmetic.rule

def kernel (op : WordOp) : Kernel :=
  .ofRule op.name op.supports op.rule

theorem get?_standard (op : WordOp) : Registry.standard.get? op.name = some op.kernel := by
  rw [Registry.get?_standard]
  rcases op with (_ | _ | _) | (_ | _ | _) | (_ | _) <;> rfl

theorem supports_of_isInteger (op : WordOp) {d : DType} (hd : d.isInteger) : op.supports d := by
  cases d with
  | int w | uint w => cases op <;> rfl
  | bool | float p | complex p => cases hd

end WordOp

/-! ## Computing in 128 bits -/

theorem Width.bits_le (w : Width) : w.bits ≤ 128 := by
  cases w <;> decide

/-- Wrapping to 128 bits first makes no difference to fewer bits. -/
theorem Word.ofInt_wide {n : Nat} (hn : n ≤ 128) (z : Int) :
    BitVec.ofInt n (wide z) = BitVec.ofInt n z := by
  have hdvd : 2 ^ n ∣ wideSize := pow_dvd_pow 2 hn
  refine BitVec.eq_of_toInt_eq ?_
  rw [BitVec.toInt_ofInt, BitVec.toInt_ofInt, wide, Int.bmod_bmod_of_dvd hdvd]

/-- An integer type takes the same element from a number that has been wrapped to 128 bits. -/
theorem DType.ofInt_wide {d : DType} (hd : d.isInteger) (z : Int) :
    d.ofInt (Word.wide z) = d.ofInt z := by
  cases d with
  | int w | uint w => exact Word.ofInt_wide w.bits_le z
  | bool | float p | complex p => cases hd

theorem Word.setWidth_ofInt {n : Nat} (hn : n ≤ 128) (z : Int) :
    (BitVec.ofInt 128 z).setWidth n = BitVec.ofInt n z := by
  rw [← BitVec.signExtend_eq_setWidth_of_le _ hn]
  show BitVec.ofInt n (BitVec.ofInt 128 z).toInt = _
  rw [BitVec.toInt_ofInt]
  exact ofInt_wide hn z

theorem BitOp.ofInt_onWords (op : BitOp) {n : Nat} (hn : n ≤ 128) (a b : Int) :
    BitVec.ofInt n (op.onWords (BitVec.ofInt 128 a) (BitVec.ofInt 128 b)).toInt
      = op.onWords (BitVec.ofInt n a) (BitVec.ofInt n b) := by
  show BitVec.signExtend n (op.onWords (BitVec.ofInt 128 a) (BitVec.ofInt 128 b)) = _
  rw [BitVec.signExtend_eq_setWidth_of_le _ hn, ← Word.setWidth_ofInt hn a,
    ← Word.setWidth_ofInt hn b]
  cases op with
  | and => exact BitVec.setWidth_and
  | or => exact BitVec.setWidth_or
  | xor => exact BitVec.setWidth_xor

theorem RingOp.ofInt_onInt (op : RingOp) {n : Nat} (a b : Int) :
    BitVec.ofInt n (op.onInt a b) = op.onWords (BitVec.ofInt n a) (BitVec.ofInt n b) := by
  cases op with
  | add => exact BitVec.ofInt_add a b
  | subtract =>
    show BitVec.ofInt n (a - b) = BitVec.ofInt n a - BitVec.ofInt n b
    rw [Int.sub_eq_add_neg, BitVec.ofInt_add, BitVec.ofInt_neg, BitVec.sub_eq_add_neg]
  | multiply => exact BitVec.ofInt_mul a b

/-- On words that are ordered as their numbers, the choice by order is that of the numbers. -/
theorem OrderOp.ofInt_onInt (op : OrderOp) {n : Nat} {le : BitVec n → BitVec n → Bool} {a b : Int}
    (hle : le (BitVec.ofInt n a) (BitVec.ofInt n b) = decide (a ≤ b)) :
    BitVec.ofInt n (op.onInt a b) = op.onWords le (BitVec.ofInt n a) (BitVec.ofInt n b) := by
  by_cases hab : a ≤ b
  · cases op <;> simp [onInt, onWords, hle, hab]
  · have hba : b ≤ a := by omega
    cases op <;> simp [onInt, onWords, hle, hab, hba]

/-! ## Kernels of integer types -/

theorem Kernel.Arithmetic.rule_of_isIntegral (op : Arithmetic) {d : DType} (hd : d.isIntegral)
    (a b : Value) : op.rule d a b = d.ofInt (op.onInt a.toInt b.toInt) := by
  cases d with
  | bool | int w | uint w => rfl
  | float p | complex p => cases hd

namespace WordOp

variable {d : DType} {a b : Value}

theorem rule_bits (op : BitOp) (hd : d.isInteger) (hra : (a.cast d).toInt = a.toInt)
    (hrb : (b.cast d).toInt = b.toInt) :
    (bits op).rule d a b = (bits op).native d hd (d.ofInt a.toInt) (d.ofInt b.toInt) := by
  show d.ofInt (op.onWords (.ofInt 128 (a.cast d).toInt) (.ofInt 128 (b.cast d).toInt)).toInt = _
  rw [hra, hrb]
  cases d with
  | int w | uint w => exact op.ofInt_onWords w.bits_le _ _
  | bool | float p | complex p => cases hd

theorem rule_ring_eq_wide (op : RingOp) (hd : d.isIntegral) (a b : Value) :
    (ring op).rule d a b = d.ofInt (Word.wide (op.onInt a.toInt b.toInt)) := by
  cases op <;> exact Kernel.Arithmetic.rule_of_isIntegral _ hd a b

/-- Ring operations need no more of their operands than numbers. -/
theorem rule_ring (op : RingOp) (hd : d.isInteger) (a b : Value) :
    (ring op).rule d a b = d.ofInt (op.onInt a.toInt b.toInt) := by
  rw [rule_ring_eq_wide op (DType.isIntegral_of_isInteger hd), DType.ofInt_wide hd]

theorem rule_order_eq (op : OrderOp) (hd : d.isIntegral) (a b : Value) :
    (order op).rule d a b = d.ofInt (op.onInt a.toInt b.toInt) := by
  cases op <;> exact Kernel.Arithmetic.rule_of_isIntegral _ hd a b

theorem rule_order (op : OrderOp) (hd : d.isInteger) (hra : d.Represents a.toInt)
    (hrb : d.Represents b.toInt) :
    (order op).rule d a b = (order op).native d hd (d.ofInt a.toInt) (d.ofInt b.toInt) := by
  rw [rule_order_eq op (DType.isIntegral_of_isInteger hd)]
  -- The words are in the order of their numbers because the type holds both numbers.
  have hna := hra.toInt_ofInt
  have hnb := hrb.toInt_ofInt
  cases d with
  | int w =>
    refine op.ofInt_onInt ?_
    rw [BitVec.sle_eq_decide]
    exact congrArg₂ (fun m n : Int => decide (m ≤ n)) hna hnb
  | uint w =>
    refine op.ofInt_onInt ?_
    rw [BitVec.ule_eq_decide, ← decide_eq_decide.mpr Int.ofNat_le]
    exact congrArg₂ (fun m n : Int => decide (m ≤ n)) hna hnb
  | bool | float p | complex p => cases hd

/-- On operands that an integer type can represent, a kernel is the operation on its words. -/
theorem rule_eq_native (op : WordOp) (hd : d.isInteger) (ha : a.dtype.isIntegral)
    (hb : b.dtype.isIntegral) (hra : d.Represents a.toInt) (hrb : d.Represents b.toInt) :
    op.rule d a b = op.native d hd (d.ofInt a.toInt) (d.ofInt b.toInt) := by
  have hdi := DType.isIntegral_of_isInteger hd
  cases op with
  | bits op => exact rule_bits op hd (hra.toInt_cast ha hdi) (hrb.toInt_cast hb hdi)
  | ring op =>
    rw [rule_ring op hd]
    cases d with
    | int w | uint w => exact op.ofInt_onInt _ _
    | bool | float p | complex p => cases hd
  | order op => exact rule_order op hd hra hrb

end WordOp

/-! ## Applications -/

/-- Two operands are read one after the other. -/
theorem Layout.gather_pair {α : Type} {x y : Operand α} {types : List DType} {l : Layout}
    (h : Layout.of ([x, y].map (·.shape)) types = .ok l) {index : Index}
    (hb : index.InBounds l.shape) :
    l.gather [x, y] index
      = (x.read ((Plan.align x.shape l.shape.rank).project index) >>= fun a =>
          y.read ((Plan.align y.shape l.shape.rank).project index) >>= fun b => .ok [a, b]) := by
  rw [gather_eq_mapM h hb]
  simp only [List.mapM_cons, List.mapM_nil, bind_assoc, pure_bind]
  rfl

namespace WordOp

variable (op : WordOp) {x y : Operand Value} {e : Application}

theorem build_eq (x y : Operand Value) : Registry.standard.build op.name [x, y]
    = (liftM (Layout.of [x.shape, y.shape] [x.dtype, y.dtype]) >>= fun l =>
        if op.supports l.dtype then .ok ⟨op.kernel, [x, y], l⟩
        else .error (.unsupportedDType op.name l.dtype) : Except Error Application) := by
  rw [Registry.build, op.get?_standard]
  rfl

theorem layout_of_build (h : Registry.standard.build op.name [x, y] = .ok e) :
    e.kernel = op.kernel ∧ e.args = [x, y] ∧
      Layout.of ([x, y].map (·.shape)) ([x, y].map (·.dtype)) = .ok e.layout := by
  obtain ⟨k, hk, h⟩ := Registry.build_eq_ok h
  rw [op.get?_standard] at hk
  cases hk
  obtain ⟨_, hkernel, hargs, hlayout⟩ := Application.of_eq_ok h
  exact ⟨hkernel, hargs, hlayout⟩

/-- Reading an application reads the first operand, then the second, and applies the rule. -/
theorem read_of_build (h : Registry.standard.build op.name [x, y] = .ok e) {index : Index}
    (hb : index.InBounds e.toOperand.shape) :
    e.toOperand.read index
      = (x.read ((Plan.align x.shape e.toOperand.shape.rank).project index) >>= fun a =>
          y.read ((Plan.align y.shape e.toOperand.shape.rank).project index) >>= fun b =>
            .ok ⟨e.toOperand.dtype, op.rule e.toOperand.dtype a b⟩) := by
  obtain ⟨hkernel, hargs, hlayout⟩ := op.layout_of_build h
  show (e.layout.gather e.args index >>= fun elements => e.kernel.apply elements e.layout.dtype) = _
  rw [hkernel, hargs, Layout.gather_pair hlayout hb]
  simp only [bind_assoc]
  rfl

end WordOp

end Broadcast
