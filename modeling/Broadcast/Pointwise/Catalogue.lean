import Broadcast.Pointwise

/-!
# A catalogue of pointwise functions

Functions on fixed element types, which wrap around on integers and round once per operation on
floating-point numbers, and functions on values of any type.
-/

namespace Broadcast.Pointwise

/-- A function whose parameters and result have fixed types. -/
def typed (name : String) (types : List DType) (result : DType)
    (fn : Curried (types.map .typed) result.Elem) : Pointwise :=
  ⟨name, types.map .typed, .typed result, fn⟩

/-- A function of values, whose result has a fixed type. -/
def measure (name : String) (result : DType) (fn : Value → Value → result.Elem) : Pointwise :=
  ⟨name, [.any, .any], .typed result, fn⟩

def half : Double :=
  .ofBits 0x3fe0000000000000

def integerFunctions : List Pointwise := [
  typed "lt_i32" [.int .w32, .int .w32] .bool fun p q => BitVec.slt p q,
  typed "mul_i8" [.int .w8, .int .w8] (.int .w8) fun p q => p * q,
  typed "add_i8_u8" [.int .w8, .uint .w8] (.int .w16) fun p q =>
    BitVec.signExtend 16 p + BitVec.zeroExtend 16 q,
  typed "sum3_i32" [.int .w32, .int .w32, .int .w32] (.int .w32) fun p q r => p + q + r,
  typed "quad_i32" [.int .w32, .int .w32, .int .w32, .int .w32] (.int .w32) fun p q r s =>
    p * 1000 + q + r * s,
  typed "sub_i64" [.int .w64, .int .w64] (.int .w64) fun p q => p - q,
  typed "lin_i64" [.int .w64, .int .w64] (.int .w64) fun p q => p * 100 + q,
  typed "xor_u8" [.uint .w8, .uint .w8] (.uint .w8) fun p q => p ^^^ q,
  typed "or_u16" [.uint .w16, .uint .w16] (.uint .w16) fun p q => p ||| q,
  typed "add_u32" [.uint .w32, .uint .w32] (.uint .w32) fun p q => p + q,
  typed "and4_u64" [.uint .w64, .uint .w64, .uint .w64, .uint .w64] (.uint .w64) fun p q r s =>
    p &&& q &&& r &&& s]

def floatFunctions : List Pointwise := [
  typed "select_f32" [.bool, .float .single, .float .single] (.float .single) fun p q r =>
    if p then q else r,
  typed "half_i32" [.int .w32, .int .w32] (.float .double) fun p q =>
    (Binary.ofInt (BitVec.toInt p) * half + Binary.ofInt (BitVec.toInt q) : Double),
  typed "fma_f64" [.float .double, .float .double, .float .double] (.float .double) fun p q r =>
    p * q + r,
  typed "add_c64" [.complex .single, .complex .single] (.complex .single) fun p q => p + q,
  typed "mul_c128" [.complex .double, .complex .double] (.complex .double) fun p q => p * q]

def valueFunctions : List Pointwise := [
  measure "v_and" .bool fun p q => p.isTruthy && q.isTruthy,
  measure "v_sum_f64" (.float .double) fun p q => (p.toDouble + q.toDouble : Double),
  ⟨"v_first", [.any, .any], .any, fun p _ => p⟩,
  ⟨"v_third", [.any, .any, .any], .any, fun _ _ r => r⟩,
  ⟨"v_fourth", [.any, .any, .any, .any], .any, fun _ _ _ s => s⟩]

def catalogue : List Pointwise :=
  integerFunctions ++ floatFunctions ++ valueFunctions

def ofName? (name : String) : Option Pointwise :=
  catalogue.find? fun f => f.name = name

end Broadcast.Pointwise
