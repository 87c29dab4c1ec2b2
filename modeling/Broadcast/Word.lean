import Broadcast.Fault

/-!
# Machine words

Sizes are natural numbers and strides are integers; both are held in 64 bits. Every operation is
first carried out exactly and then checked against the range of the word that receives it, so an
operation either gives the exact number or is a fault. Only a change between the unsigned and the
signed reading of a word wraps.
-/

namespace Broadcast.Word

/-- The number of different words: two to the power of 64. -/
def size : Nat := 0x10000000000000000

/-- Half the number of words, which is where the signed numbers end. -/
def half : Nat := 0x8000000000000000

/-- An exact number as an unsigned word. -/
def unsigned (n : Nat) : Except Fault Nat :=
  if n < size then .ok n else .error .overflow

/-- An exact number as a signed word. -/
def signed (z : Int) : Except Fault Int :=
  if -(half : Int) ≤ z ∧ z < half then .ok z else .error .overflow

/-- The signed number with the same 64 bits as `n`. -/
def asSigned (n : Nat) : Int :=
  (n : Int).bmod size

/-- The unsigned number with the same 64 bits as `z`. -/
def asUnsigned (z : Int) : Nat :=
  (z % size).toNat

theorem unsigned_eq_ok_iff {n m : Nat} : unsigned n = .ok m ↔ n < size ∧ n = m := by
  unfold unsigned
  split <;> simp <;> omega

theorem signed_eq_ok_iff {z w : Int} :
    signed z = .ok w ↔ (-(half : Int) ≤ z ∧ z < half) ∧ z = w := by
  unfold signed
  split <;> simp <;> omega

/-- Sizes in the lower half read the same either way. -/
theorem asSigned_of_lt {n : Nat} (h : n < half) : asSigned n = n := by
  unfold half at h
  unfold asSigned size
  exact Int.bmod_eq_of_le (by omega) (by omega)

/-- A word that reads as a number from zero on reads the same either way. -/
theorem asSigned_of_nonneg {n : Nat} (h : n < size) (h0 : 0 ≤ asSigned n) : asSigned n = n := by
  unfold size at h
  unfold asSigned size at h0 ⊢
  rw [Int.bmod_def] at h0 ⊢
  split at h0 <;> omega

theorem asSigned_lt_half (n : Nat) : asSigned n < half := by
  have h := Int.bmod_lt (x := (n : Int)) (m := size) (by decide)
  exact h

theorem asUnsigned_of_nonneg {z : Int} (h : 0 ≤ z) (hlt : z < size) : asUnsigned z = z.toNat := by
  rw [asUnsigned, Int.emod_eq_of_lt h hlt]

/-! ## Double words

Integers of any type are computed in 128 bits, which hold them all, and wrap around there.
-/

def wideSize : Nat := size * size

def wideHalf : Nat := half * size

/-- The signed double word that a number wraps around to. -/
def wide (z : Int) : Int :=
  z.bmod wideSize

/-- A double word shifted to the left, by fewer places than it has bits. -/
def wideShiftLeft? (z : Int) (places : Nat) : Option Int :=
  if places < 128 then some (wide (z <<< places)) else none

end Broadcast.Word
