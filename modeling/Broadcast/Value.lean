import Broadcast.Elem

/-!
# Values

A value is an element together with its type. It is read as a number of any kind and converted to
any type; a value that has the type already is left alone.
-/

namespace Broadcast

/-- An element tagged with its type. -/
structure Value where
  dtype : DType
  elem : dtype.Elem
  deriving DecidableEq

namespace Value

/-! ## Readings -/

def toNumber (v : Value) : Number :=
  v.dtype.toNumber v.elem

def toInt (v : Value) : Int :=
  v.toNumber.toInt

def toDouble (v : Value) : Double :=
  v.toNumber.toDouble

def toComplex (v : Value) : Complex Double :=
  v.toNumber.toComplex

def isTruthy (v : Value) : Bool :=
  v.toNumber.isTruthy

/-- Equality as numbers of the same type. -/
def equals (v w : Value) : Bool :=
  if h : v.dtype = w.dtype then w.dtype.equals (h ▸ v.elem) w.elem else false

@[simp] theorem toInt_bool (b : Bool) : toInt ⟨.bool, b⟩ = b.toInt := rfl

@[simp] theorem toInt_int (w : Width) (x : BitVec w.bits) : toInt ⟨.int w, x⟩ = x.toInt := rfl

@[simp] theorem toInt_uint (w : Width) (x : BitVec w.bits) : toInt ⟨.uint w, x⟩ = x.toNat := rfl

/-! ## Conversion -/

/-- The element of type `d` for a value, which is its own element if it has that type. -/
def elemAs (v : Value) (d : DType) : d.Elem :=
  if h : v.dtype = d then h ▸ v.elem else d.ofNumber v.toNumber

def cast (v : Value) (d : DType) : Value :=
  ⟨d, v.elemAs d⟩

@[simp] theorem dtype_cast (v : Value) (d : DType) : (v.cast d).dtype = d := rfl

@[simp] theorem elemAs_mk (d : DType) (x : d.Elem) : elemAs ⟨d, x⟩ d = x := by
  simp [elemAs]

@[simp] theorem cast_self (v : Value) : v.cast v.dtype = v := by
  simp [cast, elemAs]

theorem cast_of_ne {v : Value} {d : DType} (h : v.dtype ≠ d) :
    v.cast d = ⟨d, d.ofNumber v.toNumber⟩ := by
  simp [cast, elemAs, h]

end Value

end Broadcast
