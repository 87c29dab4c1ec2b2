import Broadcast.Binary.Arithmetic
import Broadcast.DType
import Broadcast.Word

/-!
# Numbers

Elements of all types meet in `Number`: an exact integer, a double-precision number or a pair of
them. Arithmetic across types and conversions between types both pass through it.
-/

namespace Broadcast

abbrev Double := Binary .binary64

namespace Precision

def format : Precision → Format
  | single => .binary32
  | double => .binary64

/-- The double-precision number that equals a number of either precision. -/
def widen : (p : Precision) → Binary p.format → Double
  | single, x => x.convert
  | double, x => x

/-- The number of a precision that is nearest to a double-precision number. -/
def narrow : (p : Precision) → Double → Binary p.format
  | single, x => x.convert
  | double, x => x

end Precision

/-- An element of any type as a number of the widest kind it belongs to. -/
inductive Number where
  | int (z : Int)
  | real (x : Double)
  | complex (z : Complex Double)

namespace Number

/-- The whole part of a double-precision number in the 128-bit range. -/
def whole (x : Double) : Int :=
  x.truncate (-(Word.wideHalf : Int)) (Word.wideHalf - 1)

/-- The integer reading: reals lose their fraction, complex numbers their imaginary part too. -/
def toInt : Number → Int
  | int z => z
  | real x => whole x
  | complex z => whole z.re

/-- The real reading: integers are rounded, complex numbers lose their imaginary part. -/
def toDouble : Number → Double
  | int z => .ofInt z
  | real x => x
  | complex z => z.re

def toComplex : Number → Complex Double
  | int z => ⟨.ofInt z, .zero⟩
  | real x => ⟨x, .zero⟩
  | complex z => z

/-- Whether a number differs from zero. NaN does. -/
def isTruthy : Number → Bool
  | int z => z ≠ 0
  | real x => !x.isZero
  | complex z => !z.isZero

@[simp] theorem toInt_int (z : Int) : (int z).toInt = z := rfl

@[simp] theorem isTruthy_int (z : Int) : (int z).isTruthy = decide (z ≠ 0) := rfl

@[simp] theorem re_toComplex (n : Number) : n.toComplex.re = n.toDouble := by
  cases n <;> rfl

end Number

end Broadcast
