import Broadcast.DType

/-!
# Promotion

The common type of several element types. Truth values give way to anything. A signed and an
unsigned integer meet in the narrowest signed integer that holds both ranges; next to a 64-bit
unsigned integer there is none, and double precision takes its place. All other pairs meet in the
one of higher rank.

A list of types is promoted in two steps, all integers first and then the floating-point types, so
the result does not hang on the order in which the types are listed.
-/

namespace Broadcast.DType

/-- The narrowest signed integer that holds the values of a signed and an unsigned one. -/
def joinMixed (signed unsigned : Width) : DType :=
  match Width.all.find? fun w => max signed.bits (unsigned.bits + 1) ≤ w.bits with
  | some w => int w
  | none => float .double

/-- The common type of two types. -/
def promote : DType → DType → DType
  | bool, t => t
  | t, bool => t
  | int s, uint u => joinMixed s u
  | uint u, int s => joinMixed s u
  | a, b => if b.rank ≤ a.rank then a else b

@[simp] theorem promote_self (d : DType) : promote d d = d := by
  cases d with
  | bool => rfl
  | int w | uint w => cases w <;> rfl
  | float p | complex p => cases p <;> rfl

@[simp] theorem promote_bool (d : DType) : promote d bool = d := by
  cases d <;> rfl

def signedWidth? : DType → Option Width
  | int w => some w
  | _ => none

def unsignedWidth? : DType → Option Width
  | uint w => some w
  | _ => none

/-- The common type of the integers in a list, or the truth values if there are none. -/
def joinIntegers (types : List DType) : DType :=
  match (types.filterMap signedWidth?).max?, (types.filterMap unsignedWidth?).max? with
  | some s, some u => joinMixed s u
  | some s, none => int s
  | none, some u => uint u
  | none, none => bool

/-- The common type of a list of types. -/
def promoteAll (types : List DType) : DType :=
  (types.filter fun t => t.isFloat || t.isComplex).foldl promote (joinIntegers types)

end Broadcast.DType
