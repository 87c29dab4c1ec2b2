import Broadcast.Kernel

/-!
# Standard kernels

Bitwise operations and shifts on integers, arithmetic on all numbers, the order operations on all
numbers but the complex ones, and selection.

Integers are computed exactly, or wrapped to 128 bits, before they are wrapped to the result type.
Floating-point results are computed in double precision and rounded to the result type.
-/

namespace Broadcast.Kernel

/-! ## Bits -/

/-- An operation on the two's-complement bits of both operands in the result type. -/
def onBits (op : BitVec 128 → BitVec 128 → BitVec 128) (d : DType) (a b : Value) : d.Elem :=
  d.ofInt (op (.ofInt 128 (a.cast d).toInt) (.ofInt 128 (b.cast d).toInt)).toInt

/-- The number of places to shift by: at least none and at most the width of the type. -/
def shiftAmount (d : DType) (v : Value) : Nat :=
  (max 0 (min (d.bits : Int) v.toInt)).toNat

/-- Shifts towards the high bits, filling with zeros. -/
def shiftLeft (d : DType) (a b : Value) : d.Elem :=
  d.ofInt ((Word.wideShiftLeft? (a.cast d).toInt (shiftAmount d b)).getD 0)

/-- Shifts towards the low bits, filling with the sign. -/
def shiftRight (d : DType) (a b : Value) : d.Elem :=
  d.ofInt ((a.cast d).toInt >>> min (shiftAmount d b) 127)

/-! ## Numbers -/

/-- An operation given on each kind of number. -/
structure Arithmetic where
  onInt : Int → Int → Int
  onDouble : Double → Double → Double
  onComplex : Complex Double → Complex Double → Complex Double

/-- Carries out an operation on the kind of number that the result type belongs to. -/
def Arithmetic.rule (op : Arithmetic) (d : DType) (a b : Value) : d.Elem :=
  match d with
  | .complex p => DType.ofComplex (.complex p) (op.onComplex a.toComplex b.toComplex)
  | .float p => DType.ofDouble (.float p) (op.onDouble a.toDouble b.toDouble)
  | d => d.ofInt (op.onInt a.toInt b.toInt)

def addition : Arithmetic :=
  ⟨fun a b => Word.wide (a + b), (· + ·), (· + ·)⟩

def subtraction : Arithmetic :=
  ⟨fun a b => Word.wide (a - b), (· - ·), (· - ·)⟩

def multiplication : Arithmetic :=
  ⟨fun a b => Word.wide (a * b), (· * ·), (· * ·)⟩

/-- The greater operand; of complex numbers, which have no order, the first. -/
def greater : Arithmetic :=
  ⟨max, Binary.maximum, fun a _ => a⟩

/-- The lesser operand; of complex numbers, which have no order, the first. -/
def lesser : Arithmetic :=
  ⟨min, Binary.minimum, fun a _ => a⟩

/-- Holds the first operand above the second and then below the third. -/
def clipRule (d : DType) (a low high : Value) : d.Elem :=
  lesser.rule d ⟨d, greater.rule d a low⟩ high

/-! ## Selection -/

/-- The second operand if the first differs from zero, else the third. -/
def select (args : List Value) (d : DType) : Except Fault Value :=
  match args with
  | [] => .error .missingOperand
  | condition :: choices =>
    match choices[if condition.isTruthy then 0 else 1]? with
    | some chosen => .ok (chosen.cast d)
    | none => .error .missingOperand

/-! ## The table -/

def isBitwise (d : DType) : Bool :=
  d.isBool || d.isInteger

def isArithmetic (d : DType) : Bool :=
  !d.isBool

def isOrdered (d : DType) : Bool :=
  !d.isComplex

/-- A kernel of two operands that are both promoted. -/
def ofRule (name : String) (supports : DType → Bool)
    (rule : (d : DType) → Value → Value → d.Elem) : Kernel :=
  ⟨name, 2, 0, supports, binary rule⟩

def standard : List Kernel := [
  ofRule "bitwise_and" isBitwise (onBits (· &&& ·)),
  ofRule "bitwise_or" isBitwise (onBits (· ||| ·)),
  ofRule "bitwise_xor" isBitwise (onBits (· ^^^ ·)),
  ofRule "left_shift" DType.isInteger shiftLeft,
  ofRule "right_shift" DType.isInteger shiftRight,
  ofRule "add" isArithmetic addition.rule,
  ofRule "subtract" isArithmetic subtraction.rule,
  ofRule "multiply" isArithmetic multiplication.rule,
  ofRule "maximum" isOrdered greater.rule,
  ofRule "minimum" isOrdered lesser.rule,
  ⟨"where", 3, 1, fun _ => true, select⟩,
  ⟨"clip", 3, 0, isOrdered, ternary clipRule⟩]

def standard? (name : String) : Option Kernel :=
  standard.find? fun k => k.name = name

end Broadcast.Kernel
