import CLanguageLearning.Http.TinyhttpdReads

/-!
# The text that `get_line` reads

Called again and again, with buffers of any sizes, `get_line` reads the whole stream, each line end
as one line feed. A call stops at the end of a line, at the end of the stream or where the buffer is
full.
-/

set_option autoImplicit false

namespace CLanguageLearning.Tinyhttpd

open CLanguageLearning.Foundation

/-- A text with a line feed for every CR; a line feed behind a CR belongs to it. -/
def unixTextFrom : Bool → List UInt8 → List UInt8
  | _, [] => []
  | behindCr, c :: s =>
      if c = CR then LF :: unixTextFrom true s
      else if c = LF ∧ behindCr = true then unixTextFrom false s
      else c :: unixTextFrom false s

/-- A text with a single line feed for every CRLF and for every other CR. -/
def unixText (s : List UInt8) : List UInt8 := unixTextFrom false s

/-- A sequence of calls of `get_line`, with the bytes that each of them has stored. -/
inductive LinesRead : Conn → List (List UInt8) → Conn → Prop where
  | none (s : Conn) : LinesRead s [] s
  | call {s t u : Conn} {lines : List (List UInt8)} {buf buf' : List UInt8} {size n : Nat}
      (h : LinesRead s lines t) (hsize : 2 ≤ size) (hbuf : size ≤ buf.length)
      (hrun : (get_line buf size).run t = .ok ((buf', n), u)) :
      LinesRead s (lines ++ [buf'.take n]) u

/-- The state in which a call of `get_line` ends: what it has stored and where it has stopped. -/
structure LineStored (buf : List UInt8) (size : Nat) (t : Conn) (line : List UInt8) (u : Conn) :
    Prop where
  run : (get_line buf size).run t =
    .ok ((line ++ 0 :: buf.drop (line.length + 1), line.length), u)
  fits : line.length ≤ size - 1
  oneLine : LF ∉ line.dropLast
  early : line.length < size - 1 → line.getLast? ≠ some LF → u.stream = []
  atEnd : line = [] ↔ t.stream = []

section Text

variable {s line : List UInt8} {lines : List (List UInt8)} {n : Nat} {t u : Conn} {c : UInt8}

theorem unixTextFrom_true (s : List UInt8) :
    unixTextFrom true s = unixText (if s.head? = some LF then s.tail else s) := by
  cases s with
  | nil => rfl
  | cons c s =>
      by_cases hlf : c = LF
      · have hne : LF ≠ CR := by decide
        simp [unixTextFrom, unixText, hlf, hne]
      · simp [unixTextFrom, unixText, hlf]

theorem lineOf_cr (n : Nat) (s : List UInt8) :
    lineOf (n + 1) (CR :: s) = ([LF], if s.head? = some LF then s.tail else s) := by
  rw [lineOf, if_pos rfl]

theorem lineOf_lf (n : Nat) (s : List UInt8) : lineOf (n + 1) (LF :: s) = ([LF], s) := by
  have hne : LF ≠ CR := by decide
  rw [lineOf, if_neg hne, if_pos rfl]

theorem lineOf_other (hcr : c ≠ CR) (hlf : c ≠ LF) (n : Nat) (s : List UInt8) :
    lineOf (n + 1) (c :: s) = (c :: (lineOf n s).1, (lineOf n s).2) := by
  rw [lineOf, if_neg hcr, if_neg hlf]

/-- What is read and what is left make up the text. -/
theorem lineOf_text (n : Nat) (s : List UInt8) :
    (lineOf n s).1 ++ unixText (lineOf n s).2 = unixText s := by
  induction n generalizing s with
  | zero => rfl
  | succ n ih =>
      cases s with
      | nil => rfl
      | cons c s =>
          by_cases hcr : c = CR
          · subst hcr
            rw [lineOf_cr, ← unixTextFrom_true]
            rfl
          · by_cases hlf : c = LF
            · subst hlf
              rw [lineOf_lf]
              rfl
            · have hrest := ih s
              rw [unixText] at hrest
              simp [lineOf_other hcr hlf, hcr, hlf, unixText, unixTextFrom, hrest]

theorem lineOf_eq_nil_iff (n : Nat) (s : List UInt8) : (lineOf (n + 1) s).1 = [] ↔ s = [] := by
  cases s with
  | nil => exact iff_of_true rfl rfl
  | cons c s =>
      refine iff_of_false (fun hnil => ?_) (List.cons_ne_nil c s)
      rw [lineOf] at hnil
      split_ifs at hnil

/-- A line feed is the last byte of a line. -/
theorem notMem_dropLast_lineOf (n : Nat) (s : List UInt8) : LF ∉ (lineOf n s).1.dropLast := by
  induction n generalizing s with
  | zero => exact List.not_mem_nil
  | succ n ih =>
      cases s with
      | nil => exact List.not_mem_nil
      | cons c s =>
          by_cases hcr : c = CR
          · subst hcr
            rw [lineOf_cr]
            exact List.not_mem_nil
          · by_cases hlf : c = LF
            · subst hlf
              rw [lineOf_lf]
              exact List.not_mem_nil
            · rw [lineOf_other hcr hlf]
              intro hmem
              rcases eq_or_ne (lineOf n s).1 [] with hnil | hne
              · rw [hnil] at hmem
                cases hmem
              · rw [List.dropLast_cons_of_ne_nil hne, List.mem_cons] at hmem
                exact hmem.elim (fun heq => hlf heq.symm) (ih s)

/-- A line that is shorter than the buffer and does not end in a line feed has come to the end of
the stream. -/
theorem lineOf_early (n : Nat) (s : List UInt8) (hshort : (lineOf n s).1.length < n)
    (hlast : (lineOf n s).1.getLast? ≠ some LF) : (lineOf n s).2 = [] := by
  induction n generalizing s with
  | zero => exact absurd hshort (Nat.not_lt_zero _)
  | succ n ih =>
      cases s with
      | nil => rfl
      | cons c s =>
          by_cases hcr : c = CR
          · subst hcr
            rw [lineOf_cr] at hlast
            exact absurd rfl hlast
          · by_cases hlf : c = LF
            · subst hlf
              rw [lineOf_lf] at hlast
              exact absurd rfl hlast
            · rw [lineOf_other hcr hlf] at hshort hlast ⊢
              apply ih s (Nat.lt_of_succ_lt_succ hshort)
              intro hlf'
              rw [List.getLast?_cons, hlf'] at hlast
              exact hlast rfl

/-- Every call returns. -/
theorem lineStored {buf : List UInt8} {size : Nat} (hsize : 2 ≤ size) (hbuf : size ≤ buf.length)
    (t : Conn) :
    LineStored buf size t (lineOf (size - 1) t.stream).1
      { t with stream := (lineOf (size - 1) t.stream).2 } where
  run := get_line_run (Nat.zero_lt_of_lt hsize) hbuf t
  fits := length_lineOf_le _ _
  oneLine := notMem_dropLast_lineOf _ _
  early := lineOf_early _ _
  atEnd := by
    obtain ⟨n, hn⟩ := Nat.exists_eq_add_of_le' (show 1 ≤ size - 1 by omega)
    rw [hn]
    exact lineOf_eq_nil_iff n t.stream

/-- What a run of calls has read, and how much of the stream it has taken at least. -/
theorem LinesRead.text (h : LinesRead u lines t) :
    lines.flatten ++ unixText t.stream = unixText u.stream ∧
      (lines.countP fun line => !line.isEmpty) + t.stream.length ≤ u.stream.length := by
  induction h with
  | none => exact ⟨rfl, by simp⟩
  | @call t u lines buf buf' size n _ hsize hbuf hrun ih =>
      -- what the call stores is determined, so `lineOf` says it
      obtain ⟨htext, hcount⟩ := ih
      have hstored := lineStored hsize hbuf t
      rw [hstored.run] at hrun
      cases hrun
      have hrest := length_lineOf_rest (size - 1) t.stream
      rw [List.take_left]
      constructor
      · rw [← htext, List.flatten_append, List.flatten_singleton, List.append_assoc, lineOf_text]
      · rw [List.countP_append, List.countP_singleton]
        by_cases hnil : (lineOf (size - 1) t.stream).1 = []
        · rw [hnil]
          exact (Nat.add_le_add_left hrest.1 _).trans hcount
        · -- a line that is not empty takes a byte at least
          have hlt := hrest.2 hnil
          rw [List.isEmpty_eq_false_iff.mpr hnil]
          show _ + 1 + (lineOf (size - 1) t.stream).2.length ≤ _
          omega

/-- In every sequence of calls the bytes stored are the text of the stream up to what is left of it.
The next call, with a buffer of any size, stores a line and a terminator inside the buffer; it
returns 0 at the end of the stream, where the whole text has been read, and no more than
`stream.length` calls return anything else. -/
theorem get_line_reads_text (h : LinesRead u lines t) :
    lines.flatten ++ unixText t.stream = unixText u.stream ∧
      (lines.countP fun line => !line.isEmpty) ≤ u.stream.length ∧
      ∀ (buf : List UInt8) (size : Nat), 2 ≤ size → size ≤ buf.length →
        ∃ line v, LineStored buf size t line v ∧ LinesRead u (lines ++ [line]) v ∧
          (line = [] → lines.flatten = unixText u.stream) := by
  obtain ⟨htext, hcount⟩ := h.text
  refine ⟨htext, (Nat.le_add_right _ _).trans hcount, ?_⟩
  intro buf size hsize hbuf
  have hstored := lineStored hsize hbuf t
  refine ⟨_, _, hstored, ?_, ?_⟩
  · have hnext := h.call hsize hbuf hstored.run
    rwa [List.take_left] at hnext
  · intro hnil
    rw [hstored.atEnd.mp hnil, unixText, unixTextFrom, List.append_nil] at htext
    exact htext

/-- A line that ends in CRLF where the buffer is full, and a line that ends with the stream. -/
theorem get_line_reads_text_full :
    [[97, 10], [98]].flatten ++ unixText [] = unixText [97, 13, 10, 98] := by
  have hfull : (get_line [0, 0, 0] 3).run ⟨[97, 13, 10, 98], [], [], false⟩ =
      .ok (([97, 10, 0], 2), ⟨[98], [], [], false⟩) := rfl
  have hlast : (get_line [0, 0] 2).run ⟨[98], [], [], false⟩ =
      .ok (([98, 0], 1), ⟨[], [], [], false⟩) := rfl
  have hfirst := (LinesRead.none _).call (by decide) (by decide) hfull
  have hsecond := hfirst.call (by decide) (by decide) hlast
  exact (get_line_reads_text hsecond).1

end Text

end CLanguageLearning.Tinyhttpd
