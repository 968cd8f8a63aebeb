import Mathlib.Data.List.TakeDrop
import Mathlib.Data.List.TakeWhile
import Mathlib.Tactic

/-!
# Strings in a buffer of bytes

A string is the bytes up to the first NUL. The functions of `string.h` and `strings.h` are functions
of the strings they are given; a position in their result counts from the start of the string. The
lemmas give their results on a string that is cut where the function stops.
-/

set_option autoImplicit false

namespace CLanguageLearning.Foundation

/-- The string at the start of the bytes `l`, if a NUL ends it. -/
def cstring (l : List UInt8) : Option (List UInt8) :=
  if 0 ∈ l then some (l.takeWhile (· ≠ 0)) else none

/-- The bytes of a literal. -/
def bytes (s : String) : List UInt8 := s.toList.map Char.toUInt8

/-- The string that the bytes `l` and a NUL behind them hold. -/
def upToNul (l : List UInt8) : List UInt8 := l.takeWhile (· ≠ 0)

/-- `isspace` of the C locale. -/
def isspace (c : UInt8) : Bool := c = 32 ∨ 9 ≤ c ∧ c ≤ 13

def isdigit (c : UInt8) : Bool := 48 ≤ c ∧ c ≤ 57

/-- The sign that `strtol` finds, and what is behind it. -/
def signOf : List UInt8 → Int × List UInt8
  | 45 :: s => (-1, s)
  | 43 :: s => (1, s)
  | s => (1, s)

/-- `atoi(s)`, which is `(int) strtol(s, NULL, 10)` with a `long` of 64 bits. -/
def atoi (s : List UInt8) : Int :=
  let (sign, s) := signOf (s.dropWhile isspace)
  let n : Nat := (s.takeWhile isdigit).foldl (fun n c => 10 * n + (c.toNat - 48)) 0
  (max (-2 ^ 63) (min (2 ^ 63 - 1) (sign * n))).bmod (2 ^ 32)

/-- The position of the first byte of `s` that is in `accept`. -/
def strpbrk (s accept : List UInt8) : Option Nat := s.findIdx? (· ∈ accept)

/-- The length of the longest start of `s` with bytes in `accept` only. -/
def strspn (s accept : List UInt8) : Nat := (s.takeWhile (· ∈ accept)).length

/-- The position of the first `c` in `s`. -/
def strchr (s : List UInt8) (c : UInt8) : Option Nat := strpbrk s [c]

def tolower (c : UInt8) : UInt8 := if 65 ≤ c ∧ c ≤ 90 then c + 32 else c

/-- `strcasecmp(s, t) == 0`. -/
def strcasecmp (s t : List UInt8) : Bool := s.map tolower = t.map tolower

/-- `strncasecmp(s, t, n) == 0`. -/
def strncasecmp (s t : List UInt8) (n : Nat) : Bool := strcasecmp (s.take n) (t.take n)

variable {s t u v accept : List UInt8} {c : UInt8} {i n : Nat}

theorem cstring_append_zero (hs : 0 ∉ s) (post : List UInt8) :
    cstring (s ++ 0 :: post) = some s := by
  have hall : ∀ b ∈ s, (decide (b ≠ 0)) = true := by
    intro b hb
    exact decide_eq_true fun hzero => hs (hzero ▸ hb)
  rw [cstring, if_pos (by simp), List.takeWhile_append_of_pos hall, List.takeWhile_cons_of_neg
    (by simp), List.append_nil]

theorem upToNul_append_nul (s post : List UInt8) : upToNul (s ++ 0 :: post) = upToNul s := by
  induction s with
  | nil => rfl
  | cons c s ih =>
      rw [upToNul, upToNul] at ih ⊢
      rw [List.cons_append, List.takeWhile_cons, List.takeWhile_cons, ih]

theorem upToNul_eq_self (hs : 0 ∉ s) : upToNul s = s := by
  refine List.takeWhile_eq_self_iff.mpr fun b hb => decide_eq_true ?_
  rintro rfl
  exact hs hb

/-- A NUL in front of the one at the end of `s` ends the string as well. -/
theorem cstring_append_nul (s post : List UInt8) : cstring (s ++ 0 :: post) = some (upToNul s) := by
  rw [cstring, if_pos (by simp)]
  exact congrArg some (upToNul_append_nul s post)

/-- Every string with a byte in `accept` is cut at the first of them. -/
theorem exists_cut (h : ¬ ∀ b ∈ s, b ∉ accept) :
    ∃ u c v, s = u ++ c :: v ∧ (∀ b ∈ u, b ∉ accept) ∧ c ∈ accept := by
  induction s with
  | nil => exact absurd (fun b hb => absurd hb List.not_mem_nil) h
  | cons a s ih =>
      by_cases ha : a ∈ accept
      · exact ⟨[], a, s, rfl, fun b hb => absurd hb List.not_mem_nil, ha⟩
      · have hrest : ¬ ∀ b ∈ s, b ∉ accept := fun hall => h (List.forall_mem_cons.mpr ⟨ha, hall⟩)
        obtain ⟨u, c, v, rfl, hu, hc⟩ := ih hrest
        exact ⟨a :: u, c, v, rfl, List.forall_mem_cons.mpr ⟨ha, hu⟩, hc⟩

theorem strpbrk_eq_none (h : ∀ b ∈ s, b ∉ accept) : strpbrk s accept = none := by
  rw [strpbrk, List.findIdx?_eq_none_iff]
  exact fun b hb => decide_eq_false (h b hb)

theorem strpbrk_cut (hu : ∀ b ∈ u, b ∉ accept) (hc : c ∈ accept) (v : List UInt8) :
    strpbrk (u ++ c :: v) accept = some u.length := by
  have hnone : u.findIdx? (· ∈ accept) = none := strpbrk_eq_none hu
  rw [strpbrk, List.findIdx?_append, hnone, List.findIdx?_cons, if_pos (decide_eq_true hc)]
  simp

theorem strpbrk_eq_some (h : strpbrk s accept = some i) :
    ∃ u c v, s = u ++ c :: v ∧ (∀ b ∈ u, b ∉ accept) ∧ c ∈ accept ∧ i = u.length := by
  have hsome : ¬ ∀ b ∈ s, b ∉ accept := by
    intro hall
    rw [strpbrk_eq_none hall] at h
    cases h
  obtain ⟨u, c, v, rfl, hu, hc⟩ := exists_cut hsome
  rw [strpbrk_cut hu hc, Option.some.injEq] at h
  exact ⟨u, c, v, rfl, hu, hc, h.symm⟩

theorem strchr_isSome_iff : (strchr s c).isSome = true ↔ c ∈ s := by
  rw [strchr, strpbrk, List.findIdx?_isSome, List.any_eq_true]
  simp

/-- A byte that `strchr` finds behind the first `n` bytes. -/
theorem strchr_drop_eq_some (hn : n ≤ s.length) (h : strchr (s.drop n) c = some i) :
    ∃ w v, s = w ++ c :: v ∧ w.length = n + i := by
  obtain ⟨u, d, v, hcut, -, hd, rfl⟩ := strpbrk_eq_some h
  rw [List.mem_singleton] at hd
  subst hd
  refine ⟨s.take n ++ u, v, ?_, ?_⟩
  · rw [List.append_assoc, ← hcut, List.take_append_drop]
  · rw [List.length_append, List.length_take_of_le hn]

theorem strspn_append (hu : ∀ b ∈ u, b ∈ accept) (hv : ∀ b ∈ v.head?, b ∉ accept) :
    strspn (u ++ v) accept = u.length := by
  rw [strspn, List.takeWhile_append_of_pos (fun b hb => decide_eq_true (hu b hb))]
  cases v with
  | nil => simp
  | cons a v => rw [List.takeWhile_cons_of_neg (by simpa using hv a rfl), List.append_nil]

theorem bytes_append (s t : String) : bytes (s ++ t) = bytes s ++ bytes t := by
  rw [bytes, String.toList_append, List.map_append]
  rfl

theorem length_bytes (s : String) : (bytes s).length = s.toList.length := List.length_map _

/-- No character takes less than a byte. -/
theorem length_bytes_le (s : String) : (bytes s).length ≤ s.utf8ByteSize := by
  obtain ⟨l, rfl⟩ : ∃ l, s = String.ofList l := ⟨s.toList, String.ofList_toList.symm⟩
  rw [length_bytes, String.toList_ofList]
  induction l with
  | nil => exact Nat.zero_le _
  | cons c l ih =>
      have hcons : String.ofList (c :: l) = String.singleton c ++ String.ofList l := by
        apply String.toList_inj.mp
        simp
      have hpos := Char.utf8Size_pos c
      rw [hcons, String.utf8ByteSize_append, String.utf8ByteSize_singleton, List.length_cons,
        Nat.add_comm]
      exact Nat.add_le_add hpos ih

/-- Every string is cut behind the bytes that `strspn` counts. -/
theorem exists_span (s accept : List UInt8) :
    ∃ u v, s = u ++ v ∧ (∀ b ∈ u, b ∈ accept) ∧ (∀ b ∈ v.head?, b ∉ accept) := by
  induction s with
  | nil => exact ⟨[], [], rfl, by simp, by simp⟩
  | cons a s ih =>
      by_cases ha : a ∈ accept
      · obtain ⟨u, v, rfl, hu, hv⟩ := ih
        exact ⟨a :: u, v, rfl, List.forall_mem_cons.mpr ⟨ha, hu⟩, hv⟩
      · exact ⟨[], a :: s, rfl, by simp, by simpa using ha⟩

theorem strncasecmp_eq_true (h : strncasecmp s t n = true) (ht : t.length = n) :
    n ≤ s.length := by
  rw [strncasecmp, strcasecmp, decide_eq_true_iff, List.take_of_length_le ht.le] at h
  have hlen := congrArg List.length h
  rw [List.length_map, List.length_map, List.length_take] at hlen
  omega

end CLanguageLearning.Foundation
