import CLanguageLearning.Http.LineScan
import Mathlib.Data.List.TakeWhile

/-!
# Reading byte by byte

`Reader` is what the parser has made of the bytes it has seen, with nothing of the buffer: the lines
that are complete, the line that is not, and whether the last byte was a `'\r'`. One byte leads to
the next `Reader` or ends the parse. Since a stream is read byte by byte, it does not matter where
it is cut (`read_append`).
-/

set_option autoImplicit false

namespace CLanguageLearning.Http

open CLanguageLearning.Foundation

/-- The parse between two bytes. -/
structure Reader where
  checkstate : CheckState
  /-- The complete lines, as they are left in the buffer. -/
  parsed : List UInt8
  /-- The unfinished line, without a `'\r'` at its end. -/
  line : List UInt8
  /-- Whether the last byte was a `'\r'`. -/
  cr : Bool
  printed : List Message
  deriving DecidableEq, Repr

namespace Reader

/-- Before the first byte. -/
def start : Reader := ⟨.requestline, [], [], false, []⟩

/-- The string of the line. -/
def text (r : Reader) : List UInt8 := r.line.takeWhile (· ≠ 0)

/-- The effect of the line. -/
def result (r : Reader) : LineResult :=
  match r.checkstate with
  | .requestline => requestlineResult r.text
  | .header => headerResult r.text
  | .content => ⟨.internal_error, r.text, []⟩

/-- The parse behind the line, when it is complete. -/
def advance (r : Reader) : Reader where
  checkstate :=
    if r.checkstate = .requestline ∧ r.result.code = .no_request then .header else r.checkstate
  parsed := r.parsed ++ r.result.left ++ r.line.dropWhile (· ≠ 0) ++ [0, 0]
  line := []
  cr := false
  printed := r.printed ++ r.result.messages

/-- Bytes of the unfinished line. -/
def keep (r : Reader) (l : List UInt8) : Reader := { r with line := r.line ++ l }

/-- The line is complete. -/
def endLine (r : Reader) : Except (HttpCode × Reader) Reader :=
  if r.result.code = .no_request then .ok r.advance else .error (r.result.code, r.advance)

/-- The next byte. -/
def feed (r : Reader) (b : UInt8) : Except (HttpCode × Reader) Reader :=
  if r.cr = true then
    if b = LF then r.endLine else .error (.bad_request, r)
  else if b = CR then .ok { r with cr := true }
  else if b = LF then .error (.bad_request, r)
  else .ok (r.keep [b])

/-- The bytes `l`, up to the one that ends the parse. -/
def read (r : Reader) (l : List UInt8) : Except (HttpCode × Reader) Reader := l.foldlM feed r

/-- The bytes of the unfinished line that `parse_line` has not passed. -/
def pending (r : Reader) : List UInt8 := if r.cr = true then [CR] else []

variable {r r' : Reader} {b : UInt8} {l m : List UInt8}

@[simp] theorem keep_nil (r : Reader) : r.keep [] = r := by rw [keep, List.append_nil]

theorem keep_keep (r : Reader) (l m : List UInt8) : (r.keep l).keep m = r.keep (l ++ m) := by
  rw [keep, keep, keep, List.append_assoc]

@[simp] theorem read_nil (r : Reader) : r.read [] = .ok r := rfl

theorem read_cons (r : Reader) (b : UInt8) (l : List UInt8) :
    r.read (b :: l) = r.feed b >>= fun r => r.read l := List.foldlM_cons

/-- Reading a stream is reading its parts one after the other. -/
theorem read_append (r : Reader) (l m : List UInt8) :
    r.read (l ++ m) = r.read l >>= fun r => r.read m := List.foldlM_append

theorem read_of_feed (h : r.feed b = .ok r') (l : List UInt8) : r.read (b :: l) = r'.read l := by
  rw [read_cons, h]
  rfl

theorem read_of_feed_error {e : HttpCode × Reader} (h : r.feed b = .error e) (l : List UInt8) :
    r.read (b :: l) = .error e := by
  rw [read_cons, h]
  rfl

theorem feed_plain (hcr : r.cr = false) (hb : b ≠ CR) (hb' : b ≠ LF) :
    r.feed b = .ok (r.keep [b]) := by
  rw [feed, if_neg (by simp [hcr]), if_neg hb, if_neg hb']

/-- The bytes of a line are kept. -/
theorem read_line {line : List UInt8} (hcr : r.cr = false) (hline : IsLine line)
    (rest : List UInt8) : r.read (line ++ rest) = (r.keep line).read rest := by
  induction line generalizing r with
  | nil => rw [List.nil_append, keep_nil]
  | cons b line ih =>
      obtain ⟨hb, hline⟩ := List.forall_mem_cons.mp hline
      rw [CRLF, List.mem_cons, List.mem_singleton, not_or] at hb
      rw [List.cons_append, read_of_feed (feed_plain hcr hb.1 hb.2), ih (r := r.keep [b]) hcr hline,
        keep_keep, List.singleton_append]

theorem feed_cr (hcr : r.cr = false) : r.feed CR = .ok { r with cr := true } := by
  rw [feed, if_neg (by simp [hcr]), if_pos rfl]

theorem feed_lf (hcr : r.cr = false) : r.feed LF = .error (.bad_request, r) := by
  rw [feed, if_neg (by simp [hcr]), if_neg (by decide), if_pos rfl]

/-- A line end completes the line. -/
theorem read_crlf (hcr : r.cr = false) (l : List UInt8) :
    r.read (CR :: LF :: l) = r.endLine >>= fun r => r.read l := by
  have hlf : ({ r with cr := true } : Reader).feed LF = r.endLine := rfl
  rw [read_of_feed (feed_cr hcr), read_cons, hlf]

/-- A `'\r'` that does not start a line end. -/
theorem read_stray_cr (hcr : r.cr = false) (hb : b ≠ LF) (l : List UInt8) :
    r.read (CR :: b :: l) = .error (.bad_request, { r with cr := true }) := by
  have hbad : ({ r with cr := true } : Reader).feed b =
      .error (.bad_request, { r with cr := true }) := by
    rw [feed, if_pos rfl, if_neg hb]
  rw [read_of_feed (feed_cr hcr), read_of_feed_error hbad]

theorem read_stray_lf (hcr : r.cr = false) (l : List UInt8) :
    r.read (LF :: l) = .error (.bad_request, r) :=
  read_of_feed_error (feed_lf hcr) l

/-- Reading on behind a `'\r'` is reading it again. -/
theorem read_pending (r : Reader) (l : List UInt8) :
    ({ r with cr := false } : Reader).read (r.pending ++ l) = r.read l := by
  unfold pending
  cases hcr : r.cr with
  | false =>
      have hr : { r with cr := false } = r := by rw [← hcr]
      rw [if_neg (by simp), List.nil_append, hr]
  | true =>
      have hr : { r with cr := true } = r := by rw [← hcr]
      rw [if_pos rfl, List.singleton_append, read_of_feed (feed_cr rfl)]
      exact congrArg (fun r : Reader => r.read l) hr

theorem pending_length_le (r : Reader) : r.pending.length ≤ 1 := by
  unfold pending
  split_ifs
  · exact le_refl 1
  · exact Nat.zero_le 1

theorem cut_text (r : Reader) :
    0 ∉ r.text ∧ ∃ q, r.line.dropWhile (· ≠ 0) ++ [0, 0] = 0 :: q := by
  constructor
  · intro hmem
    have hne := List.mem_takeWhile_imp hmem
    simp at hne
  · cases hdrop : r.line.dropWhile (· ≠ 0) with
    | nil => exact ⟨[0], rfl⟩
    | cons c v =>
        have hc := List.head?_dropWhile_not (fun b : UInt8 => b ≠ 0) r.line
        rw [hdrop] at hc
        have hzero : c = 0 := by simpa using hc
        exact ⟨v ++ [0, 0], by rw [hzero]; rfl⟩

theorem result_left_length (r : Reader) : r.result.left.length = r.text.length := by
  unfold result
  cases r.checkstate with
  | requestline => exact requestlineResult_left_length r.text
  | header => rw [headerResult_left]
  | content => rfl

end Reader

end CLanguageLearning.Http
