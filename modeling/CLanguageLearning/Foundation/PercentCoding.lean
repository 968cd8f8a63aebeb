import Mathlib.Tactic

/-!
# Percent coding of byte strings

A byte that is not `plain` is written as a percent sign and two hexadecimal digits. The decoder
replaces every percent sign that two hexadecimal digits follow, and leaves all others as they are.
When the percent sign itself is not plain, decoding takes back the coding of any string.
-/

set_option autoImplicit false

namespace CLanguageLearning.Foundation

/-- The value of a hexadecimal digit of either case. -/
def hexValue (c : UInt8) : Option Nat :=
  if 48 ≤ c ∧ c ≤ 57 then some (c.toNat - 48)
  else if 97 ≤ c ∧ c ≤ 102 then some (c.toNat - 87)
  else if 65 ≤ c ∧ c ≤ 70 then some (c.toNat - 55)
  else none

/-- The hexadecimal digit of `n`, in lower case. -/
def hexDigit (n : Nat) : UInt8 := UInt8.ofNat (if n < 10 then 48 + n else 87 + n)

def percentSign : UInt8 := 37

/-- The coding of one byte. -/
def escapeByte (plain : UInt8 → Bool) (c : UInt8) : List UInt8 :=
  if plain c then [c] else [percentSign, hexDigit (c.toNat / 16), hexDigit (c.toNat % 16)]

def escape (plain : UInt8 → Bool) (s : List UInt8) : List UInt8 := s.flatMap (escapeByte plain)

/-- The byte that `c` and the two bytes after it stand for, if they are an escape. -/
def escapedByte (c : UInt8) : List UInt8 → Option UInt8
  | a :: b :: _ =>
      if c = percentSign then
        (hexValue a).bind fun m => (hexValue b).map fun n => UInt8.ofNat (m * 16 + n)
      else none
  | _ => none

/-- The decoding of a string behind its first `skip` bytes, which are part of an escape. -/
def unescapeFrom : Nat → List UInt8 → List UInt8
  | _, [] => []
  | skip + 1, _ :: s => unescapeFrom skip s
  | 0, c :: s =>
      match escapedByte c s with
      | some b => b :: unescapeFrom 2 s
      | none => c :: unescapeFrom 0 s

def unescape (s : List UInt8) : List UInt8 := unescapeFrom 0 s

variable {plain : UInt8 → Bool} {c : UInt8} {s t : List UInt8} {skip : Nat}

theorem hexValue_hexDigit : ∀ n, n < 16 → hexValue (hexDigit n) = some n := by
  decide

theorem hexDigit_ne_zero : ∀ n, n < 16 → hexDigit n ≠ 0 := by
  decide

theorem hexDigit_ne_percentSign : ∀ n, n < 16 → hexDigit n ≠ percentSign := by
  decide

theorem escapedByte_of_ne (h : c ≠ percentSign) : escapedByte c s = none := by
  rw [escapedByte.eq_def]
  split
  · exact if_neg h
  · rfl

/-- A byte that is an escape is followed by two digits. -/
theorem escapedByte_eq_some {b : UInt8} (h : escapedByte c s = some b) :
    c = percentSign ∧ ∃ d e t m n, s = d :: e :: t ∧ hexValue d = some m ∧ hexValue e = some n ∧
      b = UInt8.ofNat (m * 16 + n) := by
  rw [escapedByte.eq_def] at h
  split at h
  · next d e t =>
    rw [Option.ite_none_right_eq_some, Option.bind_eq_some_iff] at h
    obtain ⟨hc, m, hm, h⟩ := h
    rw [Option.map_eq_some_iff] at h
    obtain ⟨n, hn, hb⟩ := h
    exact ⟨hc, d, e, t, m, n, rfl, hm, hn, hb.symm⟩
  · cases h

theorem unescapeFrom_length_le : (unescapeFrom skip s).length ≤ s.length := by
  induction s generalizing skip with
  | nil => cases skip <;> exact le_rfl
  | cons c s ih =>
      cases skip with
      | zero =>
          rw [unescapeFrom]
          split <;> exact Nat.succ_le_succ ih
      | succ skip => exact ih.trans (Nat.le_succ _)

/-- Decoding makes no string longer. -/
theorem unescape_length_le : (unescape s).length ≤ s.length := unescapeFrom_length_le

theorem escapeByte_length : (escapeByte plain c).length = if plain c then 1 else 3 := by
  rw [escapeByte]
  split <;> rfl

theorem escape_append (s t : List UInt8) :
    escape plain (s ++ t) = escape plain s ++ escape plain t := List.flatMap_append

theorem escape_cons (c : UInt8) (s : List UInt8) :
    escape plain (c :: s) = escapeByte plain c ++ escape plain s := List.flatMap_cons

/-- The two digits of an escape. -/
theorem escapedByte_digits (c : UInt8) (t : List UInt8) :
    escapedByte percentSign (hexDigit (c.toNat / 16) :: hexDigit (c.toNat % 16) :: t) =
      some c := by
  have hlt : c.toNat < 256 := c.toNat_lt
  have hhigh := hexValue_hexDigit (c.toNat / 16) (by omega)
  have hlow := hexValue_hexDigit (c.toNat % 16) (by omega)
  rw [escapedByte, if_pos rfl, hhigh, hlow, Option.bind_some, Option.map_some,
    Nat.div_add_mod', UInt8.ofNat_toNat]

/-- No escape is cut: every percent sign of a coded string begins a whole escape. -/
theorem escape_whole {w : List UInt8} (h : plain percentSign = false)
    (hs : escape plain s = w ++ percentSign :: t) : (escapedByte percentSign t).isSome := by
  induction s generalizing w with
  | nil => cases w <;> cases hs
  | cons c s ih =>
      rw [escape_cons, escapeByte] at hs
      split at hs
      · next hplain =>
        rcases w with _ | ⟨a, w⟩
        · obtain ⟨rfl, -⟩ := List.cons.inj hs
          rw [h] at hplain
          cases hplain
        · exact ih (List.cons.inj hs).2
      · have hlt : c.toNat < 256 := c.toNat_lt
        rcases w with _ | ⟨a, _ | ⟨b, _ | ⟨d, w⟩⟩⟩
        · obtain ⟨-, rfl⟩ := List.cons.inj hs
          exact Option.isSome_iff_exists.mpr ⟨c, escapedByte_digits c (escape plain s)⟩
        · obtain ⟨-, hs⟩ := List.cons.inj hs
          exact absurd (List.cons.inj hs).1 (hexDigit_ne_percentSign _ (by omega))
        · obtain ⟨-, hs⟩ := List.cons.inj hs
          obtain ⟨-, hs⟩ := List.cons.inj hs
          exact absurd (List.cons.inj hs).1 (hexDigit_ne_percentSign _ (by omega))
        · obtain ⟨-, hs⟩ := List.cons.inj hs
          obtain ⟨-, hs⟩ := List.cons.inj hs
          exact ih (List.cons.inj hs).2

/-- The coding of a byte is decoded to the byte. -/
theorem unescape_escapeByte (h : plain percentSign = false) :
    unescape (escapeByte plain c ++ t) = c :: unescape t := by
  rw [escapeByte]
  split
  · next hplain =>
    have hc : c ≠ percentSign := by
      rintro rfl
      rw [h] at hplain
      cases hplain
    rw [List.singleton_append, unescape, unescapeFrom, escapedByte_of_ne hc]
    rfl
  · show unescapeFrom 0 (percentSign :: _ :: _ :: t) = _
    rw [unescapeFrom, escapedByte_digits]
    rfl

/-- Decoding takes back the coding of a string. -/
theorem unescape_escape (h : plain percentSign = false) :
    unescape (escape plain s ++ t) = s ++ unescape t := by
  induction s with
  | nil => rfl
  | cons c s ih =>
      rw [escape_cons, List.append_assoc, unescape_escapeByte h]
      exact congrArg (c :: ·) ih

/-- A coded string has no NUL when the string has none. -/
theorem zero_notMem_escape (hs : 0 ∉ s) : 0 ∉ escape plain s := by
  intro hmem
  obtain ⟨c, hc, hmem⟩ := List.mem_flatMap.mp hmem
  rw [escapeByte] at hmem
  split at hmem
  · rw [List.mem_singleton] at hmem
    exact hs (hmem ▸ hc)
  · have hlt : c.toNat < 256 := c.toNat_lt
    simp only [List.mem_cons, List.not_mem_nil, or_false] at hmem
    rcases hmem with hmem | hmem | hmem
    · exact absurd hmem (by decide)
    · exact hexDigit_ne_zero _ (by omega) hmem.symm
    · exact hexDigit_ne_zero _ (by omega) hmem.symm

end CLanguageLearning.Foundation
