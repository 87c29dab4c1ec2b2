/-!
# Binary floating-point data

Data of an IEEE binary interchange format. All NaNs are one datum; every other datum is a sign and
a magnitude, the bit pattern below the sign bit. Magnitudes are ordered as the numbers they stand
for, up to the magnitude of infinity.

Every finite datum is a whole multiple of the smallest positive one. `Format.units` gives that
multiple, so that exact arithmetic on data is arithmetic on whole numbers.
-/

namespace Broadcast

/-- A binary interchange format. -/
structure Format where
  /-- Bits of the fraction field. -/
  fraction : Nat
  /-- Bits of the exponent field. -/
  exponent : Nat
  deriving DecidableEq, Repr

namespace Format

def binary32 : Format := ⟨23, 8⟩

def binary64 : Format := ⟨52, 11⟩

/-- Bits of a normal significand, the leading one included. -/
def precision (f : Format) : Nat :=
  f.fraction + 1

def width (f : Format) : Nat :=
  f.fraction + f.exponent + 1

/-- The leading one of a normal significand, above the fraction field. -/
def leadingOne (f : Format) : Nat :=
  1 <<< f.fraction

/-- The magnitude of infinity: an exponent field of ones and no fraction. -/
def infinity (f : Format) : Nat :=
  (1 <<< f.exponent - 1) * f.leadingOne

/-- The smallest positive datum is one over two to the power of `scale`. -/
def scale (f : Format) : Nat :=
  1 <<< (f.exponent - 1) - 2 + f.fraction

/-- The number that a finite magnitude stands for, in multiples of the smallest positive datum. -/
def units (f : Format) (magnitude : Nat) : Nat :=
  if magnitude < f.leadingOne then magnitude
  else (f.leadingOne + magnitude % f.leadingOne) <<< (magnitude / f.leadingOne - 1)

end Format

/-- A datum of the format `f`. -/
inductive Binary (f : Format) where
  | nan
  | num (negative : Bool) (magnitude : Nat) (bound : magnitude ≤ f.infinity)
  deriving DecidableEq

/-- A datum taken apart: finite data as a sign and a multiple of the smallest positive datum. -/
inductive Decoded where
  | nan
  | infinite (negative : Bool)
  | finite (negative : Bool) (units : Nat)
  deriving DecidableEq, Repr

namespace Binary

variable {f : Format}

def infinity (negative : Bool) : Binary f :=
  .num negative f.infinity (Nat.le_refl _)

def zero : Binary f :=
  .num false 0 (Nat.zero_le _)

def decode : Binary f → Decoded
  | .nan => .nan
  | .num negative m _ =>
    if m = f.infinity then .infinite negative else .finite negative (f.units m)

/-! ## Bit patterns -/

/-- The datum with the given bits; every pattern beyond infinity is NaN. -/
def ofBits (bits : Nat) : Binary f :=
  let m := bits % (1 <<< (f.width - 1))
  if h : m ≤ f.infinity then .num (bits.testBit (f.width - 1)) m h else .nan

/-- The bits of a datum that is a number. -/
def toBits? : Binary f → Option Nat
  | .nan => none
  | .num negative m _ => some (negative.toNat <<< (f.width - 1) + m)

/-! ## Order

Both zeros stand at the same place. NaN stands nowhere, so every comparison with it fails.
-/

/-- The place of a number among all numbers of the format. -/
def place? : Binary f → Option Int
  | .nan => none
  | .num negative m _ => some (if negative then -m else m)

/-- Compares two numbers by their places. -/
def compareBy (r : Int → Int → Bool) (x y : Binary f) : Bool :=
  match x.place?, y.place? with
  | some a, some b => r a b
  | _, _ => false

def equals : Binary f → Binary f → Bool :=
  compareBy fun a b => a = b

def le : Binary f → Binary f → Bool :=
  compareBy fun a b => a ≤ b

def isNaN : Binary f → Bool
  | .nan => true
  | .num .. => false

/-- Whether a datum is a zero of either sign. -/
def isZero (x : Binary f) : Bool :=
  x.equals zero

def neg : Binary f → Binary f
  | .nan => .nan
  | .num negative m h => .num (!negative) m h

instance : Neg (Binary f) := ⟨neg⟩

end Binary

end Broadcast
