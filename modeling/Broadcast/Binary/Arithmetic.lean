import Broadcast.Binary.Basic

/-!
# Floating-point arithmetic

Each operation is carried out exactly on whole numbers and rounded once, to the nearest datum, a
tie going to the even one. A result beyond the largest finite datum by half a step or more becomes
infinity.
-/

namespace Broadcast

/-- The whole number nearest to `n / d`, a tie going to the even one. -/
def roundHalfEven (n d : Nat) : Nat :=
  if 2 * (n % d) < d ∨ (2 * (n % d) = d ∧ n / d % 2 = 0) then n / d else n / d + 1

namespace Binary

variable {f g : Format}

/--
The datum nearest to `n` multiples of the smallest positive one over two to the power of `s`.

The significand keeps `precision` leading bits of the quotient, so `drop` low bits are rounded
away. A significand that rounds up to the next power of two carries into the exponent field.
-/
def round (negative : Bool) (n s : Nat) : Binary f :=
  let drop := n.log2 + 1 - (f.precision + s)
  .num negative (min (drop * f.leadingOne + roundHalfEven n (1 <<< (s + drop))) f.infinity)
    (Nat.min_le_right ..)

def withSign (negative : Bool) (n : Nat) : Int :=
  if negative then -n else n

/-- The sum. Opposite numbers sum to positive zero. -/
def add (x y : Binary f) : Binary f :=
  match x.decode, y.decode with
  | .nan, _ => .nan
  | _, .nan => .nan
  | .infinite s, .infinite t => if s = t then infinity s else .nan
  | .infinite s, .finite _ _ => infinity s
  | .finite _ _, .infinite t => infinity t
  | .finite s m, .finite t n =>
    let sum := withSign s m + withSign t n
    round (if sum = 0 then s && t else sum < 0) sum.natAbs 0

def sub (x y : Binary f) : Binary f :=
  x.add y.neg

/-- The product. An infinity times a zero is NaN. -/
def mul (x y : Binary f) : Binary f :=
  match x.decode, y.decode with
  | .nan, _ => .nan
  | _, .nan => .nan
  | .infinite s, .infinite t => infinity (s ^^ t)
  | .infinite s, .finite t n => if n = 0 then .nan else infinity (s ^^ t)
  | .finite s m, .infinite t => if m = 0 then .nan else infinity (s ^^ t)
  | .finite s m, .finite t n => round (s ^^ t) (m * n) f.scale

instance : Add (Binary f) := ⟨add⟩
instance : Sub (Binary f) := ⟨sub⟩
instance : Mul (Binary f) := ⟨mul⟩

/-! ## Conversions -/

/-- The nearest datum of another format. -/
def convert (x : Binary f) : Binary g :=
  match x.decode with
  | .nan => .nan
  | .infinite s => infinity s
  | .finite s m => round s (m <<< g.scale) f.scale

def ofInt (z : Int) : Binary f :=
  round (z < 0) (z.natAbs <<< f.scale) 0

/-- The whole part, held between `lo` and `hi`; NaN has the whole part zero. -/
def truncate (lo hi : Int) (x : Binary f) : Int :=
  match x.decode with
  | .nan => 0
  | .infinite s => if s then lo else hi
  | .finite s m => max lo (min hi (withSign s (m >>> f.scale)))

/-- The greater of two data. A NaN on the left stays, a NaN on the right is taken. -/
def maximum (x y : Binary f) : Binary f :=
  if x.isNaN || y.le x then x else y

/-- The lesser of two data, with NaN treated as by `maximum`. -/
def minimum (x y : Binary f) : Binary f :=
  if x.isNaN || x.le y then x else y

end Binary

/-- A complex number by its real and imaginary parts. -/
structure Complex (α : Type) where
  re : α
  im : α
  deriving DecidableEq

namespace Complex

variable {f : Format}

def add (x y : Complex (Binary f)) : Complex (Binary f) :=
  ⟨x.re + y.re, x.im + y.im⟩

def sub (x y : Complex (Binary f)) : Complex (Binary f) :=
  ⟨x.re - y.re, x.im - y.im⟩

/-- The product by the schoolbook formula, each step rounded. -/
def mul (x y : Complex (Binary f)) : Complex (Binary f) :=
  ⟨x.re * y.re - x.im * y.im, x.re * y.im + x.im * y.re⟩

instance : Add (Complex (Binary f)) := ⟨add⟩
instance : Sub (Complex (Binary f)) := ⟨sub⟩
instance : Mul (Complex (Binary f)) := ⟨mul⟩

def isZero (x : Complex (Binary f)) : Bool :=
  x.re.isZero && x.im.isZero

def equals (x y : Complex (Binary f)) : Bool :=
  x.re.equals y.re && x.im.equals y.im

end Complex

end Broadcast
