import Broadcast.Number

/-!
# Elements

The elements of each type and their conversion from and to numbers. Integers wrap around at their
width, whatever number they come from; floating-point numbers are rounded to double precision first
and to their own precision then.
-/

namespace Broadcast.DType

/-- The elements of a type. Integers are words, read in two's complement or unsigned. -/
@[reducible] def Elem : DType → Type
  | bool => Bool
  | int w => BitVec w.bits
  | uint w => BitVec w.bits
  | float p => Binary p.format
  | complex p => Complex (Binary p.format)

instance decEqElem : (d : DType) → DecidableEq d.Elem
  | bool => inferInstanceAs (DecidableEq Bool)
  | int w => inferInstanceAs (DecidableEq (BitVec w.bits))
  | uint w => inferInstanceAs (DecidableEq (BitVec w.bits))
  | float p => inferInstanceAs (DecidableEq (Binary p.format))
  | complex p => inferInstanceAs (DecidableEq (Complex (Binary p.format)))

/-- The zero of a type; among truth values it is `false`. -/
def zero : (d : DType) → d.Elem
  | bool => false
  | int w => 0#w.bits
  | uint w => 0#w.bits
  | float _ => Binary.zero
  | complex _ => ⟨Binary.zero, Binary.zero⟩

/-- Equality of elements as numbers: the two zeros are equal and NaN equals nothing. -/
def equals : (d : DType) → d.Elem → d.Elem → Bool
  | bool, x, y => x = y
  | int _, x, y => x = y
  | uint _, x, y => x = y
  | float _, x, y => Binary.equals x y
  | complex _, x, y => Complex.equals x y

def toNumber : (d : DType) → d.Elem → Number
  | bool, b => .int b.toInt
  | int _, x => .int (BitVec.toInt x)
  | uint _, x => .int (BitVec.toNat x)
  | float p, x => .real (p.widen x)
  | complex p, z => .complex ⟨p.widen z.re, p.widen z.im⟩

/-! ## Elements from numbers -/

/-- The element for a double-precision number; integers take its whole part and wrap around. -/
def ofDouble : (d : DType) → Double → d.Elem
  | bool, x => !x.isZero
  | int w, x => BitVec.ofInt w.bits (Number.whole x)
  | uint w, x => BitVec.ofInt w.bits (Number.whole x)
  | float p, x => p.narrow x
  | complex p, x => ⟨p.narrow x, .zero⟩

/-- The element for an integer; floating-point types take the nearest double-precision number. -/
def ofInt : (d : DType) → Int → d.Elem
  | bool, z => z ≠ 0
  | int w, z => BitVec.ofInt w.bits z
  | uint w, z => BitVec.ofInt w.bits z
  | float p, z => ofDouble (float p) (.ofInt z)
  | complex p, z => ofDouble (complex p) (.ofInt z)

/-- The element for a complex number. Real types take its real part, truth values test both. -/
def ofComplex : (d : DType) → Complex Double → d.Elem
  | bool, z => !z.isZero
  | complex p, z => ⟨p.narrow z.re, p.narrow z.im⟩
  | d, z => ofDouble d z.re

def ofNumber (d : DType) : Number → d.Elem
  | .int z => d.ofInt z
  | .real x => d.ofDouble x
  | .complex z => d.ofComplex z

end Broadcast.DType
