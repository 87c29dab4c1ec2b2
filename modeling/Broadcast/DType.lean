/-!
# Element types

The thirteen element types: truth values, signed and unsigned integers of four widths, and real
and complex floating-point numbers of two precisions. Each has a name, a size and a rank on the
promotion lattice.
-/

namespace Broadcast

/-- The width of an integer type. -/
inductive Width where
  | w8
  | w16
  | w32
  | w64
  deriving DecidableEq, Repr

namespace Width

/-- All widths, narrowest first. -/
def all : List Width := [w8, w16, w32, w64]

def bits : Width → Nat
  | w8 => 8
  | w16 => 16
  | w32 => 32
  | w64 => 64

/-- The place among the widths, counted from one. -/
def rank : Width → Nat
  | w8 => 1
  | w16 => 2
  | w32 => 3
  | w64 => 4

instance : Max Width where
  max a b := if a.rank ≤ b.rank then b else a

end Width

/-- The precision of a floating-point type. -/
inductive Precision where
  | single
  | double
  deriving DecidableEq, Repr

namespace Precision

def bits : Precision → Nat
  | single => 32
  | double => 64

end Precision

/-- An element type. -/
inductive DType where
  | bool
  | int (w : Width)
  | uint (w : Width)
  | float (p : Precision)
  | complex (p : Precision)
  deriving DecidableEq, Repr

namespace DType

/-- Every element type, in the order in which they are listed and sorted. -/
def all : List DType :=
  bool :: Width.all.map int ++ Width.all.map uint
    ++ [float .single, float .double, complex .single, complex .double]

theorem mem_all (d : DType) : d ∈ all := by
  cases d with
  | bool => decide
  | int w | uint w => cases w <;> decide
  | float p | complex p => cases p <;> decide

def position (d : DType) : Nat :=
  all.idxOf d

def sort (types : List DType) : List DType :=
  types.mergeSort fun a b => a.position ≤ b.position

/-! ## Kinds -/

def isBool : DType → Bool
  | bool => true
  | _ => false

def isSigned : DType → Bool
  | int _ => true
  | _ => false

def isUnsigned : DType → Bool
  | uint _ => true
  | _ => false

def isInteger (d : DType) : Bool :=
  d.isSigned || d.isUnsigned

def isFloat : DType → Bool
  | float _ => true
  | _ => false

def isComplex : DType → Bool
  | complex _ => true
  | _ => false

/-! ## Size, rank and names -/

/-- The number of bits one element takes; a truth value takes a byte. -/
def bits : DType → Nat
  | bool => 8
  | int w | uint w => w.bits
  | float p => p.bits
  | complex p => 2 * p.bits

def sizeBytes (d : DType) : Nat :=
  d.bits / 8

/-- The rank on the promotion lattice. Integers of one width share a rank. -/
def rank : DType → Nat
  | bool => 0
  | int w | uint w => w.rank
  | float .single => 5
  | float .double => 6
  | complex .single => 7
  | complex .double => 8

/-- The name used in data and messages, such as `uint16`. -/
def name : DType → String
  | bool => "bool"
  | int w => "int" ++ toString w.bits
  | uint w => "uint" ++ toString w.bits
  | float p => "float" ++ toString p.bits
  | complex p => "complex" ++ toString (2 * p.bits)

/-- The name used in descriptions, such as `UInt16`. -/
def title : DType → String
  | bool => "Bool"
  | int w => "Int" ++ toString w.bits
  | uint w => "UInt" ++ toString w.bits
  | float p => "Float" ++ toString p.bits
  | complex p => "Complex" ++ toString (2 * p.bits)

def ofName? (s : String) : Option DType :=
  all.find? fun d => d.name = s

end DType

end Broadcast
