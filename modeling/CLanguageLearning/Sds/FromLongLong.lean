import CLanguageLearning.Foundation.Numerals
import CLanguageLearning.Sds.CatFmt
import CLanguageLearning.Sds.SplitLen

/-!
# Numbers as strings

`sdsll2str` and `sdsull2str` write the canonical numeral of their argument and a terminator, for
every value of the type, and `sdsfromlonglong` makes a string of it. Its array has exactly the bytes
the longest numeral needs.
-/

set_option autoImplicit false

namespace CLanguageLearning.Sds

open CLanguageLearning.Foundation

/-- `buf` is what the array for the digits holds at first. -/
def sdsfromlonglong (al : Allocator) (buf : Vector UInt8 SDS_LLSTR_SIZE) (value : Int64) :
    Exec Mem Ptr := do
  let (len, buf) ← (sdsll2str value).run buf.toList
  sdsnewlen al (.src (.bytes buf)) len

/-- The sign leaves room for the terminator. -/
theorem length_decimalInt_lt (value : Int64) :
    (decimalInt value.toInt).length + 1 ≤ SDS_LLSTR_SIZE := by
  have hlow := value.le_toInt
  have hhigh := value.toInt_lt
  have hlen : (decimalInt value.toInt).length ≤ 19 + 1 :=
    length_decimalInt_le (by decide) (by omega)
  exact (Nat.succ_le_succ hlen).trans (by decide)

theorem length_decimal_lt (v : UInt64) : (decimal v.toNat).length + 1 ≤ SDS_LLSTR_SIZE :=
  Nat.succ_le_succ (length_decimal_toNat v)

section FromLongLong

variable {al : Allocator} {m : Mem} {buf : Vector UInt8 SDS_LLSTR_SIZE} {value : Int64}

/-- The string is the numeral. -/
theorem sdsfromlonglong_yields (hal : al m.requests.length ≠ none) :
    Yields ((sdsfromlonglong al buf value).run m) m m.next
      (Value.ofBytes (decimalInt value.toInt)) := by
  have hlen := length_decimalInt_lt value
  rw [SDS_LLSTR_SIZE] at hlen
  have hnum := sdsll2str_run buf.length_toList value
  -- only the bytes in front of the terminator are copied
  have hsrc : (Source.bytes (decimalInt value.toInt ++
      0 :: buf.toList.drop ((decimalInt value.toInt).length + 1))).Holds m
      (decimalInt value.toInt) := List.prefix_append _ _
  have hnew := sdsnewlen_yields hal hsrc (fitsSize_newType (by omega))
  rw [sdsfromlonglong, hnum]
  exact hnew

theorem sdsfromlonglong_refused (hal : al m.requests.length = none) :
    ∃ n, (sdsfromlonglong al buf value).run m = .ok (Ptr.null, m.refuse n) := by
  have hnum := sdsll2str_run buf.length_toList value
  rw [sdsfromlonglong, hnum]
  exact ⟨_, sdsnewlen_refused hal _ _⟩

end FromLongLong

/-- For every value, signed or unsigned, and whatever the array holds at first: the numeral and its
terminator are written into the array and nothing behind them, the numeral is canonical, and the
string made of it holds it. -/
theorem numerals_canonical (buf : Vector UInt8 SDS_LLSTR_SIZE) (value : Int64) (v : UInt64) :
    (∃ text, IsNumeral text value.toInt ∧ text.length + 1 ≤ SDS_LLSTR_SIZE ∧
      (sdsll2str value).run buf.toList =
        .ok (text.length, text ++ 0 :: buf.toList.drop (text.length + 1)) ∧
      ∀ (al : Allocator) (m : Mem),
        (al m.requests.length ≠ none →
          Yields ((sdsfromlonglong al buf value).run m) m m.next (Value.ofBytes text)) ∧
        (al m.requests.length = none →
          ∃ n, (sdsfromlonglong al buf value).run m = .ok (Ptr.null, m.refuse n))) ∧
    ∃ text, IsNumeral text v.toNat ∧ text.length + 1 ≤ SDS_LLSTR_SIZE ∧
      (sdsull2str v).run buf.toList =
        .ok (text.length, text ++ 0 :: buf.toList.drop (text.length + 1)) := by
  constructor
  · exact ⟨decimalInt value.toInt, isNumeral_decimalInt _, length_decimalInt_lt value,
      sdsll2str_run buf.length_toList value,
      fun al m => ⟨sdsfromlonglong_yields, sdsfromlonglong_refused⟩⟩
  · exact ⟨decimal v.toNat, isNumeral_decimal _, length_decimal_lt v,
      sdsull2str_run buf.length_toList v⟩

/-- The most negative value fills the array. -/
example : outcome ((sdsll2str LLONG_MIN).run (List.replicate 21 7)) = .ok 20 := by rfl

end CLanguageLearning.Sds
