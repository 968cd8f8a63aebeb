import CLanguageLearning.Foundation.CString
import CLanguageLearning.Foundation.LocalArray

/-!
# Decimal numerals

A numeral is canonical when it is what one would write for its value: an optional minus sign, which
stands for a negative value, and digits without a leading zero, zero itself apart. The digits of
`decimal` and the text of `decimalInt` are canonical numerals of the number they are made from.
-/

set_option autoImplicit false

namespace CLanguageLearning.Foundation

/-- The value of decimal digits. -/
def digitsValue (l : List UInt8) : Nat := l.foldl (fun n c => 10 * n + (c.toNat - 48)) 0

/-- The digits of a numeral. -/
def numeralDigits (text : List UInt8) : List UInt8 :=
  if text.head? = some 45 then text.tail else text

/-- The value of a numeral. -/
def numeralValue (text : List UInt8) : Int :=
  if text.head? = some 45 then -(digitsValue text.tail : Int) else digitsValue text

/-- The text is the canonical decimal numeral of `x`. -/
structure IsNumeral (text : List UInt8) (x : Int) : Prop where
  value : numeralValue text = x
  digits : ∀ c ∈ numeralDigits text, 48 ≤ c ∧ c ≤ 57
  ne_nil : numeralDigits text ≠ []
  leading : (numeralDigits text).head? = some 48 → text = [48]
  sign : text.head? = some 45 ↔ x < 0

/-! ## Digits -/

theorem digitsValue_append (l : List UInt8) (c : UInt8) :
    digitsValue (l ++ [c]) = 10 * digitsValue l + (c.toNat - 48) := by
  rw [digitsValue, List.foldl_append]
  rfl

/-- The digits in front count more. -/
theorem digitsValue_append_list (l r : List UInt8) :
    digitsValue (l ++ r) = digitsValue l * 10 ^ r.length + digitsValue r := by
  induction r using List.reverseRecOn with
  | nil => simp [digitsValue]
  | append_singleton r c ih =>
      rw [← List.append_assoc, digitsValue_append, digitsValue_append, ih, List.length_append,
        List.length_singleton, pow_succ]
      ring

theorem digitsValue_part_le (a b c : List UInt8) : digitsValue b ≤ digitsValue (a ++ b ++ c) := by
  rw [digitsValue_append_list, digitsValue_append_list]
  exact (Nat.le_add_left _ _).trans ((Nat.le_mul_of_pos_right _ (by simp)).trans
    (Nat.le_add_right _ _))

/-- Some of the digits without the last one have the value of all only if all are zero. -/
theorem digitsValue_part (a b : List UInt8) {c : List UInt8} (hc : c ≠ []) :
    digitsValue b = digitsValue (a ++ b ++ c) ↔ digitsValue (a ++ b ++ c) = 0 := by
  have hten : 10 ≤ 10 ^ c.length := Nat.le_self_pow (List.length_pos_iff.mpr hc).ne' 10
  have hparts : digitsValue (a ++ b ++ c) =
      (digitsValue a * 10 ^ b.length + digitsValue b) * 10 ^ c.length + digitsValue c := by
    rw [digitsValue_append_list, digitsValue_append_list]
  have hle : digitsValue b * 10 ≤ digitsValue (a ++ b ++ c) := by
    rw [hparts]
    exact le_add_right (Nat.mul_le_mul (Nat.le_add_left _ _) hten)
  omega

/-- Only a leading zero can be left out. -/
theorem digitsValue_cons_iff {d : UInt8} (hd : isdigit d = true) (l : List UInt8) :
    digitsValue l = digitsValue (d :: l) ↔ d = 48 := by
  have hlow : (48 : UInt8).toNat ≤ d.toNat := UInt8.le_iff_toNat_le.mp (of_decide_eq_true hd).1
  have hvalue : digitsValue (d :: l) = (d.toNat - 48) * 10 ^ l.length + digitsValue l := by
    rw [← List.singleton_append, digitsValue_append_list]
    simp [digitsValue]
  have hten : (10 : Nat) ^ l.length ≠ 0 := by simp
  rw [hvalue, eq_comm, Nat.add_eq_right, Nat.mul_eq_zero, or_iff_left hten, Nat.sub_eq_zero_iff_le,
    ← UInt8.toNat_inj]
  exact ⟨fun hle => Nat.le_antisymm hle hlow, Eq.le⟩

theorem toNat_digit {d : Nat} (h : d < 10) : (UInt8.ofNat (48 + d)).toNat = 48 + d := by
  rw [UInt8.toNat_ofNat']
  omega

/-- Reading the digits of a number gives the number. -/
theorem digitsValue_decimal (n : Nat) : digitsValue (decimal n) = n := by
  induction n using Nat.strong_induction_on with
  | _ n ih =>
      have hd := toNat_digit (Nat.mod_lt n (by decide : 0 < 10))
      rw [decimal_eq, digitsValue_append, hd]
      by_cases h : n < 10
      · rw [if_pos h]
        show 10 * 0 + (48 + n % 10 - 48) = n
        omega
      · rw [if_neg h, ih (n / 10) (by omega)]
        omega

theorem decimal_digits (n : Nat) : ∀ c ∈ decimal n, 48 ≤ c ∧ c ≤ 57 := by
  induction n using Nat.strong_induction_on with
  | _ n ih =>
      intro c hc
      rw [decimal_eq, List.mem_append, List.mem_singleton] at hc
      rcases hc with hc | rfl
      · by_cases h : n < 10
        · rw [if_pos h] at hc
          cases hc
        · rw [if_neg h] at hc
          exact ih (n / 10) (by omega) c hc
      · have hd := toNat_digit (Nat.mod_lt n (by decide : 0 < 10))
        have h48 : (48 : UInt8).toNat = 48 := rfl
        have h57 : (57 : UInt8).toNat = 57 := rfl
        rw [UInt8.le_iff_toNat_le, UInt8.le_iff_toNat_le, hd, h48, h57]
        omega

theorem notMem_decimalInt {c : UInt8} (hsign : c ≠ 45) (hdigit : ¬ (48 ≤ c ∧ c ≤ 57)) (n : Int) :
    c ∉ decimalInt n := by
  have hnat : ∀ k : Nat, c ∉ decimal k := fun k hmem => hdigit (decimal_digits k c hmem)
  rw [decimalInt]
  split
  · rw [List.mem_cons, not_or]
    exact ⟨hsign, hnat _⟩
  · exact hnat _

/-- Only zero is written with a leading zero. -/
theorem head_decimal {n : Nat} (h : (decimal n).head? = some 48) : n = 0 := by
  induction n using Nat.strong_induction_on with
  | _ n ih =>
      rw [decimal_eq] at h
      by_cases hlt : n < 10
      · rw [if_pos hlt, List.nil_append, List.head?_cons, Option.some.injEq] at h
        have hd := toNat_digit (Nat.mod_lt n (by decide : 0 < 10))
        have h48 : (48 : UInt8).toNat = 48 := rfl
        rw [h, h48] at hd
        omega
      · rw [if_neg hlt, List.head?_append_of_ne_nil _ (decimal_ne_nil _)] at h
        have := ih (n / 10) (by omega) h
        omega

theorem head_decimal_ne_minus (n : Nat) : (decimal n).head? ≠ some 45 := by
  intro h
  have hmem := List.mem_of_head? h
  exact absurd (decimal_digits n 45 hmem).1 (by decide)

/-! ## Numerals -/

theorem isNumeral_decimal (n : Nat) : IsNumeral (decimal n) n := by
  have hne := head_decimal_ne_minus n
  have hdigits : numeralDigits (decimal n) = decimal n := if_neg hne
  constructor
  · rw [numeralValue, if_neg hne, digitsValue_decimal]
  · rw [hdigits]
    exact decimal_digits n
  · rw [hdigits]
    exact decimal_ne_nil n
  · rw [hdigits]
    intro h
    rw [head_decimal h]
    rfl
  · exact iff_of_false hne (by omega)

theorem isNumeral_decimalInt (x : Int) : IsNumeral (decimalInt x) x := by
  unfold decimalInt
  by_cases hx : x < 0
  · rw [if_pos hx]
    have hdigits : numeralDigits (45 :: decimal x.natAbs) = decimal x.natAbs := rfl
    constructor
    · show -(digitsValue (decimal x.natAbs) : Int) = x
      rw [digitsValue_decimal]
      omega
    · rw [hdigits]
      exact decimal_digits _
    · rw [hdigits]
      exact decimal_ne_nil _
    · -- a negative number is not zero
      rw [hdigits]
      intro h
      have := head_decimal h
      omega
    · exact iff_of_true rfl hx
  · rw [if_neg hx]
    have h := isNumeral_decimal x.natAbs
    rwa [Int.natAbs_of_nonneg (not_lt.mp hx)] at h

/-- The text of an integer is its numeral. -/
theorem bytes_toString (x : Int) : bytes (toString x) = decimalInt x := by
  have hnat : ∀ k : Nat, bytes k.repr = decimal k := fun k => by
    rw [Nat.repr, bytes, String.toList_ofList, decimal]
  cases x with
  | ofNat k => exact hnat k
  | negSucc k =>
      have htext : toString (Int.negSucc k) = "-" ++ (k + 1).repr := rfl
      rw [htext, bytes_append, hnat, decimalInt, if_pos (Int.negSucc_lt_zero k)]
      rfl

/-! ## Reading a number -/

theorem isspace_of_isdigit {c : UInt8} (h : isdigit c = true) : isspace c = false := by
  rw [isdigit, decide_eq_true_iff, UInt8.le_iff_toNat_le, UInt8.le_iff_toNat_le] at h
  obtain ⟨hlow, -⟩ := h
  change 48 ≤ c.toNat at hlow
  apply decide_eq_false
  rintro (rfl | ⟨-, hle⟩)
  · exact absurd hlow (by decide)
  · have hsmall : c.toNat ≤ 13 := UInt8.le_iff_toNat_le.mp hle
    omega

/-- `atoi` of digits behind blanks is their value, as far as it is an `int`. -/
theorem atoi_digits {blanks digits tail : List UInt8} (hblanks : ∀ c ∈ blanks, isspace c = true)
    (hdigits : ∀ c ∈ digits, isdigit c = true) (htail : tail = [] ∨ tail = [10]) :
    atoi (blanks ++ digits ++ tail) =
      (min (2 ^ 63 - 1) (digitsValue digits : Int)).bmod (2 ^ 32) := by
  have hsign : signOf ((blanks ++ digits ++ tail).dropWhile isspace) =
      (1, (digits ++ tail).dropWhile isspace) := by
    rw [List.append_assoc, List.dropWhile_append_of_pos hblanks]
    cases digits with
    | nil => rcases htail with rfl | rfl <;> rfl
    | cons d digits =>
        have hd := List.forall_mem_cons.mp hdigits
        have hspace := isspace_of_isdigit hd.1
        rw [List.cons_append, List.dropWhile_cons_of_neg (by simp [hspace])]
        unfold signOf
        split
        next heq =>
          cases heq
          exact absurd hd.1 (by decide)
        next heq =>
          cases heq
          exact absurd hd.1 (by decide)
        next => rfl
  have hend : tail.takeWhile isdigit = [] := by
    rcases htail with rfl | rfl <;> rfl
  have htake : ((digits ++ tail).dropWhile isspace).takeWhile isdigit = digits := by
    cases digits with
    | nil => rcases htail with rfl | rfl <;> rfl
    | cons d digits =>
        have hspace := isspace_of_isdigit (List.forall_mem_cons.mp hdigits).1
        rw [List.cons_append, List.dropWhile_cons_of_neg (by simp [hspace]), ← List.cons_append,
          List.takeWhile_append_of_pos hdigits, hend, List.append_nil]
  rw [atoi, hsign]
  dsimp only
  rw [htake, one_mul, max_eq_right]
  · rfl
  · exact le_min (by decide) ((by decide : (-2 ^ 63 : Int) ≤ 0).trans (Int.natCast_nonneg _))

/-- The result of `atoi` is an `int`. -/
theorem atoi_range (s : List UInt8) : -2 ^ 31 ≤ atoi s ∧ atoi s < 2 ^ 31 := by
  have hrange : ∀ n : Int, -2 ^ 31 ≤ n.bmod (2 ^ 32) ∧ n.bmod (2 ^ 32) < 2 ^ 31 := fun n =>
    ⟨Int.le_bmod (by decide), Int.bmod_lt (by decide)⟩
  exact hrange _

theorem atoi_le (s : List UInt8) : atoi s ≤ INT_MAX :=
  Int.le_of_lt_add_one (atoi_range s).2

end CLanguageLearning.Foundation
