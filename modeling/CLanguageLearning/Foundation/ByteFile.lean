import Mathlib.Tactic

/-!
# Files of bytes

A file is its size and its bytes. Writing past the end enlarges it; the bytes in between are zero.
`Copied src f p` says that the byte `p` of `f` is there and is that of `src`. Writes of bytes of
`src` to their own places keep what has been copied, whatever their order and however they overlap.
-/

set_option autoImplicit false

namespace CLanguageLearning.Foundation

structure ByteFile where
  size : Nat
  byte : Nat → UInt8

namespace ByteFile

def empty : ByteFile := ⟨0, fun _ => 0⟩

/-- Write the `n` bytes `b` from `offset` on. -/
def write (f : ByteFile) (offset n : Nat) (b : Nat → UInt8) : ByteFile :=
  if n = 0 then f
  else ⟨max f.size (offset + n),
    fun p => if offset ≤ p ∧ p < offset + n then b (p - offset) else f.byte p⟩

/-- The byte `p` of `f` is that of `src`. -/
def Copied (src f : ByteFile) (p : Nat) : Prop := p < f.size ∧ f.byte p = src.byte p

variable {src f : ByteFile} {offset n p : Nat} {b : Nat → UInt8}

/-- The bytes that have been written are copied. -/
theorem copied_write (hb : ∀ k, k < n → b k = src.byte (offset + k)) (hp : offset ≤ p)
    (hpn : p < offset + n) : Copied src (f.write offset n b) p := by
  have hn : n ≠ 0 := by omega
  rw [write, if_neg hn]
  constructor
  · show p < max f.size (offset + n)
    omega
  · show (if offset ≤ p ∧ p < offset + n then b (p - offset) else f.byte p) = src.byte p
    rw [if_pos ⟨hp, hpn⟩, hb (p - offset) (by omega), Nat.add_sub_cancel' hp]

/-- What has been copied stays. -/
theorem Copied.write (h : Copied src f p) (hb : ∀ k, k < n → b k = src.byte (offset + k)) :
    Copied src (f.write offset n b) p := by
  by_cases hp : offset ≤ p ∧ p < offset + n
  · exact copied_write hb hp.1 hp.2
  · unfold ByteFile.write
    split
    · exact h
    · constructor
      · exact lt_of_lt_of_le h.1 (le_max_left _ _)
      · show (if offset ≤ p ∧ p < offset + n then b (p - offset) else f.byte p) = src.byte p
        rw [if_neg hp, h.2]

end ByteFile

end CLanguageLearning.Foundation
