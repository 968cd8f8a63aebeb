import CLanguageLearning.Foundation.Numerals
import CLanguageLearning.WebServer.Log

/-!
# The buffer of a log line

`write_log` builds a line in `m_buf`: the time and the level, behind them the message, a newline and
a terminator. `vsnprintf` is given the size of the whole buffer for the part behind the time and
level, and what it returns is the length of the whole message, so a message that does not fit is not
cut but written past the end.
-/

set_option autoImplicit false

namespace CLanguageLearning.WebServer

open CLanguageLearning.Foundation

/-- A time as `localtime` and `gettimeofday` give it, in a year that is an `int`. -/
structure ValidTime (tm : Tm) (tv_usec : Int) : Prop where
  year : -2 ^ 31 ≤ tm.tm_year + 1900 ∧ tm.tm_year + 1900 < 2 ^ 31
  mon : 0 ≤ tm.tm_mon ∧ tm.tm_mon ≤ 11
  mday : 1 ≤ tm.tm_mday ∧ tm.tm_mday ≤ 31
  hour : 0 ≤ tm.tm_hour ∧ tm.tm_hour ≤ 23
  min : 0 ≤ tm.tm_min ∧ tm.tm_min ≤ 59
  sec : 0 ≤ tm.tm_sec ∧ tm.tm_sec ≤ 60
  usec : 0 ≤ tv_usec ∧ tv_usec ≤ 999999

namespace Log

/-- The time and the level, as bytes. -/
def linePrefix (c : LogCall) : List UInt8 := bytes (head c)

/-- `snprintf(m_buf + k, size, …)` for a text: what does not fit in `size` bytes is left out, and the
length of the whole text is returned. -/
def snprintfAt (k size : Nat) (text : List UInt8) : Exec (List UInt8) Nat := do
  if 0 < size then Array8.storeAll k (text.take (size - 1) ++ [0])
  return text.length

/-- The section of `write_log` that builds the line in `m_buf`, for the message that the format and
its arguments give, and `log_str`. -/
def formatBytes (c : LogCall) (message : List UInt8) (m_log_buf_size : Nat) :
    Exec (List UInt8) (List UInt8) := do
  let n ← snprintfAt 0 48 (linePrefix c)
  let m ← snprintfAt n (m_log_buf_size - 1) message
  Array8.store (n + m) 10
  Array8.store (n + m + 1) 0
  let m_buf ← get
  return upToNul m_buf

/-- The line is built within the buffer: the time and the level, the message, cut only if it does
not fit, and a newline. -/
def LineBuilt {size : Nat} (m_buf : Vector UInt8 size) (c : LogCall) (message : List UInt8) : Prop :=
  ∃ line m_buf', (formatBytes c message size).run m_buf.toList = .ok (line, m_buf') ∧
    ∃ k, line = linePrefix c ++ message.take k ++ [10] ∧
      ((linePrefix c).length + message.length + 2 ≤ size → message.length ≤ k)

/-! ## The time and the level -/

section Prefix

variable {n : Int} {k : Nat}

theorem bytes_padded (k : Nat) (n : Int) :
    bytes (padded k n) = List.replicate (k - (decimalInt n).length) 48 ++ decimalInt n := by
  have htext := bytes_toString n
  have hlen := length_bytes (toString n)
  rw [htext] at hlen
  have hpadded : (padded k n).toList = (toString n).toList.leftpad k '0' := String.toList_ofList
  rw [bytes, hpadded, List.leftpad, List.map_append, List.map_replicate, ← hlen]
  exact congrArg (_ ++ ·) htext

theorem length_bytes_padded (h : (decimalInt n).length ≤ k) :
    (bytes (padded k n)).length = k := by
  rw [bytes_padded, List.length_append, List.length_replicate, Nat.sub_add_cancel h]

theorem length_levelText_le (level : Int) : (bytes (levelText level)).length ≤ 8 := by
  rw [levelText]
  split_ifs <;> decide

/-- A number of two digits. -/
theorem length_two (hlow : 0 ≤ n) (hhigh : n ≤ 99) : (bytes (padded 2 n)).length = 2 := by
  apply length_bytes_padded
  rw [decimalInt, if_neg (not_lt.mpr hlow)]
  exact length_decimal_le (by decide) (by omega)

theorem notMem_bytes_padded {c : UInt8} (hsign : c ≠ 45) (hdigit : ¬ (48 ≤ c ∧ c ≤ 57)) (k : Nat)
    (n : Int) : c ∉ bytes (padded k n) := by
  rw [bytes_padded, List.mem_append, not_or]
  refine ⟨fun hmem => hdigit ?_, notMem_decimalInt hsign hdigit n⟩
  rw [List.eq_of_mem_replicate hmem]
  decide

/-- The prefix part by part. -/
theorem linePrefix_eq (c : LogCall) : linePrefix c =
    bytes (toString (c.my_tm.tm_year + 1900)) ++ bytes "-" ++ bytes (padded 2 (c.my_tm.tm_mon + 1)) ++
      bytes "-" ++ bytes (padded 2 c.my_tm.tm_mday) ++ bytes " " ++
      bytes (padded 2 c.my_tm.tm_hour) ++ bytes ":" ++ bytes (padded 2 c.my_tm.tm_min) ++
      bytes ":" ++ bytes (padded 2 c.my_tm.tm_sec) ++ bytes "." ++ bytes (padded 6 c.tv_usec) ++
      bytes " " ++ bytes (levelText c.level) ++ bytes " " := by
  show bytes (toString (c.my_tm.tm_year + 1900) ++ "-" ++ padded 2 (c.my_tm.tm_mon + 1) ++ "-" ++
    padded 2 c.my_tm.tm_mday ++ " " ++ padded 2 c.my_tm.tm_hour ++ ":" ++
    padded 2 c.my_tm.tm_min ++ ":" ++ padded 2 c.my_tm.tm_sec ++ "." ++ padded 6 c.tv_usec ++ " " ++
    levelText c.level ++ " ") = _
  simp only [bytes_append]

/-- The time and the level are a string. -/
theorem notMem_linePrefix (c : LogCall) : (0 : UInt8) ∉ linePrefix c := by
  have hyear : (0 : UInt8) ∉ bytes (toString (c.my_tm.tm_year + 1900)) := by
    rw [bytes_toString]
    exact notMem_decimalInt (by decide) (by decide) _
  have hlevel : (0 : UInt8) ∉ bytes (levelText c.level) := by
    rw [levelText]
    split_ifs <;> decide
  have hdash : (0 : UInt8) ∉ bytes "-" := by decide
  have hblank : (0 : UInt8) ∉ bytes " " := by decide
  have hcolon : (0 : UInt8) ∉ bytes ":" := by decide
  have hdot : (0 : UInt8) ∉ bytes "." := by decide
  have hpadded : ∀ k n, (0 : UInt8) ∉ bytes (padded k n) :=
    notMem_bytes_padded (by decide) (by decide)
  simp only [linePrefix_eq, List.mem_append, not_or, hyear, hlevel, hdash, hblank, hcolon,
    hdot, hpadded, not_false_eq_true, and_self]

/-- The time and the level take 43 bytes at most. -/
theorem length_linePrefix_le {c : LogCall} (h : ValidTime c.my_tm c.tv_usec) :
    (linePrefix c).length ≤ 43 := by
  obtain ⟨hyear, hmon, hmday, hhour, hmin, hsec, husec⟩ := h
  have hyearLen : (bytes (toString (c.my_tm.tm_year + 1900))).length ≤ 11 := by
    rw [bytes_toString]
    exact length_decimalInt_le (by decide) (by omega)
  have husecLen : (bytes (padded 6 c.tv_usec)).length = 6 := by
    apply length_bytes_padded
    rw [decimalInt, if_neg (not_lt.mpr husec.1)]
    exact length_decimal_le (by decide) (by omega)
  have hlevel := length_levelText_le c.level
  have hdash : (bytes "-").length = 1 := rfl
  have hblank : (bytes " ").length = 1 := rfl
  have hcolon : (bytes ":").length = 1 := rfl
  have hdot : (bytes ".").length = 1 := rfl
  simp only [linePrefix_eq, List.length_append, husecLen, hdash, hblank, hcolon,
    hdot, length_two (n := c.my_tm.tm_mon + 1) (by omega) (by omega),
    length_two (n := c.my_tm.tm_mday) (by omega) (by omega),
    length_two (n := c.my_tm.tm_hour) hhour.1 (by omega),
    length_two (n := c.my_tm.tm_min) hmin.1 (by omega),
    length_two (n := c.my_tm.tm_sec) hsec.1 (by omega)]
  omega

end Prefix

/-! ## The line -/

section Line

variable {buf buf' text : List UInt8} {k size : Nat}

theorem snprintfAt_ok {n : Nat} (h : (snprintfAt k size text).run buf = .ok (n, buf')) :
    n = text.length ∧ buf'.length = buf.length := by
  rw [snprintfAt] at h
  by_cases hsize : 0 < size
  · rw [if_pos hsize] at h
    obtain ⟨_, buf'', hstored, hret⟩ := run_bind_eq_ok h
    cases hret
    exact ⟨rfl, Array8.storeAll_keeps _ _ _ _ _ hstored⟩
  · rw [if_neg hsize] at h
    cases h
    exact ⟨rfl, rfl⟩

/-- A text that fits is stored with its terminator. -/
theorem snprintfAt_run {before junk : List UInt8} (hk : before.length = k) (hfits : text.length < size)
    (hjunk : junk.length = text.length + 1) (after : List UInt8) :
    (snprintfAt k size text).run (before ++ junk ++ after) =
      .ok (text.length, before ++ (text ++ [0]) ++ after) := by
  have hwhole : text.take (size - 1) = text := List.take_of_length_le (by omega)
  have hlen : (text ++ [0]).length = junk.length := by simp [hjunk]
  rw [snprintfAt, if_pos (Nat.zero_lt_of_lt hfits), hwhole]
  rw [run_bind_of_ok (Array8.storeAll_run (text ++ [0]) hk hlen after)]
  rfl

/-- A line that is built fits in the buffer with its terminator. -/
theorem fits_of_formatBytes {c : LogCall} {message line : List UInt8}
    (h : (formatBytes c message size).run buf = .ok (line, buf')) :
    (linePrefix c).length + message.length + 2 ≤ buf.length := by
  obtain ⟨n, buf₁, hhead, h⟩ := run_bind_eq_ok h
  obtain ⟨m, buf₂, hmessage, h⟩ := run_bind_eq_ok h
  obtain ⟨_, buf₃, hnewline, h⟩ := run_bind_eq_ok h
  obtain ⟨_, buf₄, hend, -⟩ := run_bind_eq_ok h
  obtain ⟨hn, hlen₁⟩ := snprintfAt_ok hhead
  obtain ⟨hm, hlen₂⟩ := snprintfAt_ok hmessage
  have hlen₃ := Array8.store_keeps _ _ _ _ _ hnewline
  have hin := Array8.lt_of_store hend
  omega

/-- What is built of a message that fits. -/
theorem formatBytes_run {c : LogCall} {message : List UInt8} (hshort : (linePrefix c).length < 48)
    (hfits : (linePrefix c).length + message.length + 2 ≤ buf.length) :
    ∃ buf', (formatBytes c message buf.length).run buf =
      .ok (upToNul (linePrefix c ++ message ++ [10]), buf') := by
  generalize hp : linePrefix c = p at hshort hfits
  -- behind the prefix and its terminator there is room for the message and another byte
  have hsplit : buf = [] ++ buf.take (p.length + 1) ++ buf.drop (p.length + 1) := by simp
  have hrest : message.length < (buf.drop (p.length + 1)).length := by
    rw [List.length_drop]
    omega
  have hjunk : (buf.take (p.length + 1)).length = p.length + 1 := List.length_take_of_le (by omega)
  generalize buf.take (p.length + 1) = junk, buf.drop (p.length + 1) = rest at hsplit hrest hjunk
  obtain ⟨y, d, hd⟩ := List.exists_cons_of_ne_nil (List.ne_nil_of_length_pos
    (by rw [List.length_drop]; omega) : rest.drop message.length ≠ [])
  have hhead : (snprintfAt 0 48 p).run buf = .ok (p.length, [] ++ (p ++ [0]) ++ rest) := by
    rw [hsplit]
    exact snprintfAt_run List.length_nil hshort hjunk rest
  have hmove : [] ++ (p ++ [0]) ++ rest = p ++ ([0] ++ rest.take message.length) ++ y :: d := by
    simp [← hd]
  have hmessage : (snprintfAt p.length (buf.length - 1) message).run
      (p ++ ([0] ++ rest.take message.length) ++ y :: d) =
        .ok (message.length, p ++ (message ++ [0]) ++ y :: d) := by
    refine snprintfAt_run rfl (by omega) ?_ (y :: d)
    rw [List.length_append, List.length_take_of_le hrest.le, List.length_singleton, Nat.add_comm]
  have hnewline : (Array8.store (p.length + message.length) 10).run
      (p ++ (message ++ [0]) ++ y :: d) = .ok ((), p ++ message ++ 10 :: y :: d) := by
    have hmove : p ++ (message ++ [0]) ++ y :: d = p ++ message ++ 0 :: y :: d := by simp
    rw [hmove]
    exact Array8.store_run List.length_append 0 10 (y :: d)
  have hend : (Array8.store (p.length + message.length + 1) 0).run
      (p ++ message ++ 10 :: y :: d) = .ok ((), p ++ message ++ [10] ++ 0 :: d) := by
    have hmove : p ++ message ++ 10 :: y :: d = p ++ message ++ [10] ++ y :: d := by simp
    rw [hmove]
    exact Array8.store_run (by simp [Nat.add_assoc]) y 0 d
  refine ⟨p ++ message ++ [10] ++ 0 :: d, ?_⟩
  rw [formatBytes, hp, run_bind_of_ok hhead, hmove, run_bind_of_ok hmessage,
    run_bind_of_ok hnewline, run_bind_of_ok hend, run_bind_of_ok (run_get _), upToNul_append_nul]
  rfl

theorem format_eq (c : LogCall) (s : Log) :
    (format c).run s =
      if 48 ≤ (head c).utf8ByteSize ∨
        s.m_log_buf_size ≤ (head c).utf8ByteSize + c.text.utf8ByteSize + 1 then .error .undefined
      else .ok (head c ++ c.text ++ "\n", s) := by
  rw [format, run_bind_of_ok (run_get s), run_ite]
  rfl

/-- The line is built exactly if the prefix, the message, the newline and the terminator fit, and the
message is a string. -/
theorem line_built_iff {c : LogCall} (h : ValidTime c.my_tm c.tv_usec) (m_buf : Vector UInt8 size)
    (message : List UInt8) :
    LineBuilt m_buf c message ↔
      (linePrefix c).length + message.length + 2 ≤ size ∧ 0 ∉ message := by
  have hshort : (linePrefix c).length < 48 := Nat.lt_of_le_of_lt (length_linePrefix_le h) (by decide)
  have hsize : m_buf.toList.length = size := m_buf.length_toList
  have hrun : (linePrefix c).length + message.length + 2 ≤ size → ∃ buf',
      (formatBytes c message size).run m_buf.toList =
        .ok (upToNul (linePrefix c ++ message ++ [10]), buf') := fun hfits => by
    have hfits' : (linePrefix c).length + message.length + 2 ≤ m_buf.toList.length := by
      rwa [hsize]
    have hbuilt := formatBytes_run hshort hfits'
    rwa [hsize] at hbuilt
  constructor
  · rintro ⟨line, m_buf', hline, k, htext, hk⟩
    have hfits := fits_of_formatBytes hline
    rw [hsize] at hfits
    refine ⟨hfits, fun hmem => ?_⟩
    obtain ⟨buf', hbuilt⟩ := hrun hfits
    rw [hline, Except.ok.injEq, Prod.mk.injEq] at hbuilt
    -- the whole message is in the line, which has no NUL
    rw [List.take_of_length_le (hk hfits), hbuilt.1] at htext
    have hnul : (0 : UInt8) ∈ upToNul (linePrefix c ++ message ++ [10]) := by
      rw [htext]
      simp [hmem]
    exact absurd (List.mem_takeWhile_imp hnul) (by simp)
  · rintro ⟨hfits, hnul⟩
    obtain ⟨buf', hbuilt⟩ := hrun hfits
    refine ⟨_, buf', hbuilt, message.length, ?_, fun _ => Nat.le_refl _⟩
    rw [List.take_length]
    apply upToNul_eq_self
    simp [notMem_linePrefix c, hnul]

theorem bytes_newline : bytes "\n" = [10] := rfl

/-- A line of the log is built as it is there in bytes. -/
theorem formatBytes_format {c : LogCall} {s s' : Log} {line : String}
    (h : (format c).run s = .ok (line, s')) (hbuf : buf.length = s.m_log_buf_size) :
    ∃ buf', (formatBytes c (bytes c.text) s.m_log_buf_size).run buf =
      .ok (upToNul (bytes line), buf') := by
  rw [format_eq] at h
  split_ifs at h with hfits
  rw [not_or, not_le, not_le] at hfits
  have hhead : (linePrefix c).length ≤ (head c).utf8ByteSize := length_bytes_le _
  have htext := length_bytes_le c.text
  have hroom : (linePrefix c).length + (bytes c.text).length + 2 ≤ buf.length := by omega
  obtain ⟨buf', hrun⟩ := formatBytes_run (Nat.lt_of_le_of_lt hhead hfits.1) hroom
  rw [hbuf] at hrun
  rw [Except.ok.injEq, Prod.mk.injEq] at h
  refine ⟨buf', ?_⟩
  rw [hrun, ← h.1, bytes_append, bytes_append, linePrefix, bytes_newline]

def newYear (text : String) : LogCall := ⟨1, text, ⟨124, 0, 1, 0, 0, 0⟩, 0⟩

theorem validTime_newYear (text : String) :
    ValidTime (newYear text).my_tm (newYear text).tv_usec := by
  constructor <;> simp [newYear]

theorem line_built_iff_short : LineBuilt (Vector.replicate 64 0) (newYear "up") (bytes "up") := by
  refine (line_built_iff (validTime_newYear "up") _ _).mpr ⟨?_, by decide⟩
  have hshort := length_linePrefix_le (validTime_newYear "up")
  have hmessage : (bytes "up").length = 2 := rfl
  omega

/-- A message of 64 bytes does not fit in a buffer of 64, and is written past its end. -/
theorem long_message_outside :
    ValidTime (newYear "").my_tm (newYear "").tv_usec ∧
      ¬ LineBuilt (Vector.replicate 64 0) (newYear "") (List.replicate 64 97) := by
  refine ⟨validTime_newYear "", ?_⟩
  rintro ⟨line, m_buf', hrun, -⟩
  have hfits := fits_of_formatBytes hrun
  rw [List.length_replicate, Vector.length_toList] at hfits
  omega

end Line

end Log

end CLanguageLearning.WebServer
