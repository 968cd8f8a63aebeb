import CLanguageLearning.Http.LineScan

/-!
# The indices of the request parser

The places of the program between two calls, with the states that runs of the loop of `main` lead to
there, whatever bytes arrive and in whatever chunks. In all of them the line starts before the bytes
that are parsed, these come before the bytes received, and all are in the buffer. That a call
accesses a part of the buffer only is said by running it in a memory of this part alone.
-/

set_option autoImplicit false

namespace CLanguageLearning.Http

open CLanguageLearning.Foundation

/-- Where the program is: before `recv`, before a turn of the loop of `parse_line`, with a line that
starts at `szTemp`, behind `parse_content`, and behind the answer. -/
inductive Place where
  | main
  | scan
  | line (szTemp : Nat)
  | result (code : HttpCode)
  | closed
  deriving DecidableEq, Repr

/-- Behind `parse_requestline`. -/
def Place.afterRequestline (retcode : HttpCode) : Place :=
  if retcode = .bad_request then .result .bad_request else .scan

/-- Behind `parse_headers`. -/
def Place.afterHeaders (retcode : HttpCode) : Place :=
  if retcode = .bad_request then .result .bad_request
  else if retcode = .get_request then .result .get_request
  else .scan

/-- The states of the program, place by place. -/
inductive Reached : Place → ParseState → Prop where
  | start : Reached .main (ParseState.start [])
  | recv {s t : ParseState} {chunk : List UInt8} (h : Reached .main s) (hchunk : chunk ≠ [])
      (hroom : s.read_index + chunk.length ≤ BUFFER_SIZE)
      (hrun : (recv chunk).run s = .ok ((), t)) :
      Reached .scan t
  /-- A turn of the loop of `parse_line` that goes on. -/
  | pass {s : ParseState} {c : UInt8} (h : Reached .scan s) (hlt : s.checked_index < s.read_index)
      (hc : s.buffer[s.checked_index]? = some c) (hcr : c ≠ CR) (hlf : c ≠ LF) :
      Reached .scan { s with checked_index := s.checked_index + 1 }
  | line_ok {s t : ParseState} (h : Reached .scan s) (hrun : parse_line.run s = .ok (.line_ok, t)) :
      Reached (.line t.start_line) { t with start_line := t.checked_index }
  | line_open {s t : ParseState} (h : Reached .scan s)
      (hrun : parse_line.run s = .ok (.line_open, t)) : Reached (.result .no_request) t
  | line_bad {s t : ParseState} (h : Reached .scan s)
      (hrun : parse_line.run s = .ok (.line_bad, t)) : Reached (.result .bad_request) t
  | requestline {s t : ParseState} {szTemp : Nat} {retcode : HttpCode}
      (h : Reached (.line szTemp) s) (hstate : s.checkstate = .requestline)
      (hrun : (parse_requestline szTemp).run s = .ok (retcode, t)) :
      Reached (.afterRequestline retcode) t
  | headers {s t : ParseState} {szTemp : Nat} {retcode : HttpCode} (h : Reached (.line szTemp) s)
      (hstate : s.checkstate = .header) (hrun : (parse_headers szTemp).run s = .ok (retcode, t)) :
      Reached (.afterHeaders retcode) t
  | content {s : ParseState} {szTemp : Nat} (h : Reached (.line szTemp) s)
      (hstate : s.checkstate = .content) : Reached (.result .internal_error) s
  | go_on {s : ParseState} (h : Reached (.result .no_request) s) : Reached .main s
  | answer {s : ParseState} {code : HttpCode} (h : Reached (.result code) s)
      (hcode : code ≠ .no_request) : Reached .closed { s with sent := s.sent ++ [szret code] }

/-- The parser with the bytes from `i` to `j` of the buffer as all its memory. -/
def ParseState.window (s : ParseState) (i j : Nat) : ParseState :=
  { s with buffer := (s.buffer.take j).drop i }

/-- The code `x` returns and accesses the bytes from `i` to `j` of the buffer only: those outside
stay, and `y`, which is `x` with its pointers counted from `i`, does the same in a memory of the
bytes from `i` to `j` alone, where any other access has no meaning. -/
def AccessesWithin {α : Type} (i j : Nat) (x y : Exec ParseState α) (s : ParseState) : Prop :=
  ∃ a t, x.run s = .ok (a, t) ∧ y.run (s.window i j) = .ok (a, t.window i j) ∧
    t.buffer.length = s.buffer.length ∧ t.buffer.take i = s.buffer.take i ∧
    t.buffer.drop j = s.buffer.drop j

/-- The buffer of `t` is that of `s`, but for a CR and a LF that have been received and are
overwritten. -/
def OverwritesLineEnd (s t : ParseState) : Prop :=
  t.buffer = s.buffer ∨ ∃ k, k + 1 < s.read_index ∧ s.buffer[k]? = some CR ∧
    s.buffer[k + 1]? = some LF ∧ t.buffer = (s.buffer.set k 0).set (k + 1) 0

/-- The code that comes next at a place stays in its part of the buffer. -/
def Place.Safe (s : ParseState) : Place → Prop
  | main => ∀ chunk : List UInt8, s.read_index + chunk.length ≤ BUFFER_SIZE →
      ∃ t, (Http.recv chunk).run s = .ok ((), t)
  | scan => AccessesWithin 0 s.read_index parse_line parse_line s ∧
      ∀ status t, parse_line.run s = .ok (status, t) →
        t.start_line = s.start_line ∧ OverwritesLineEnd s t
  | line szTemp => s.start_line = s.checked_index ∧
      (∃ i, szTemp ≤ i ∧ i < s.checked_index ∧ s.buffer[i]? = some 0) ∧
      (s.checkstate = .requestline →
        AccessesWithin szTemp s.checked_index (parse_requestline szTemp) (parse_requestline 0) s) ∧
      (s.checkstate = .header →
        AccessesWithin szTemp s.checked_index (parse_headers szTemp) (parse_headers 0) s)
  | result _ => True
  | closed => True

/-! ## A call of `parse_line` -/

/-- The bytes before `checked_index` do not end in a CR. -/
def NotBehindCr (s : ParseState) : Prop := ∀ b ∈ (s.buffer.take s.checked_index).getLast?, b ≠ CR

section ParseLine

variable {s t : ParseState} {p rest : List UInt8} {status : LineStatus}

/-- A call keeps the start of the line and the size of the buffer, and moves on no farther than to
the end of the bytes received. -/
theorem Scanned.moves (hs : Unread s p rest) (h : Scanned s p rest status t) :
    t.start_line = s.start_line ∧ t.read_index = s.read_index ∧
      t.buffer.length = s.buffer.length ∧ s.checked_index ≤ t.checked_index ∧
      t.checked_index ≤ s.read_index := by
  have hchecked := hs.checked_index
  have hread := hs.read_index
  cases h with
  | line_ok =>
      refine ⟨rfl, rfl, ?_, ?_, ?_⟩
      · simp [hs.buffer]
      · simp only [List.length_append]
        omega
      · simp only [List.length_append, List.length_cons] at hread ⊢
        omega
  | _ =>
      refine ⟨rfl, rfl, rfl, ?_, ?_⟩
      · simp [hchecked]
      · simp [hread]

theorem Scanned.overwrites (hs : Unread s p rest) (h : Scanned s p rest status t)
    (z : List UInt8) : OverwritesLineEnd (s.extend z) (t.extend z) := by
  cases h with
  | @line_ok line rest hline =>
      have hbuf : s.buffer = (p ++ line) ++ CR :: LF :: rest := by rw [hs.buffer, List.append_assoc]
      have hread : (p ++ line).length + 1 < s.read_index := by
        rw [hs.read_index, List.length_append, List.length_append, List.length_cons]
        simp only [List.length_cons]
        omega
      generalize p ++ line = a at hbuf hread ⊢
      refine Or.inr ⟨a.length, hread, ?_, ?_, ?_⟩
      · simp [hbuf]
      · simp [hbuf]
      · simp [hbuf]
  | _ => exact Or.inl rfl

/-- An open line does not end in a CR before `checked_index`. -/
theorem Scanned.notBehindCr (hs : Unread s p rest) (h : Scanned s p rest .line_open t)
    (z : List UInt8) : NotBehindCr (t.extend z) := by
  cases h with
  | line_open hline =>
      rw [NotBehindCr, buffer_extend, hs.buffer, checked_index_extend, List.take_left]
      exact hline.last_append hs.last
  | @line_open_cr line hline =>
      have hbuf : s.buffer ++ z = (p ++ line) ++ CR :: z := by simp [hs.buffer]
      rw [NotBehindCr, buffer_extend, hbuf, checked_index_extend, List.take_left]
      exact hline.last_append hs.last

/-- The parser in the memory of the bytes received. -/
theorem unread_window (hi : s.checked_index ≤ s.read_index) (hlen : s.read_index ≤ s.buffer.length)
    (hcr : NotBehindCr s) :
    Unread (s.window 0 s.read_index) (s.buffer.take s.checked_index)
        ((s.buffer.take s.read_index).drop s.checked_index) ∧
      (s.window 0 s.read_index).extend (s.buffer.drop s.read_index) = s := by
  have hwindow : (s.window 0 s.read_index).buffer = s.buffer.take s.read_index := List.drop_zero
  have hfirst :
      s.buffer.take s.checked_index = (s.buffer.take s.read_index).take s.checked_index := by
    rw [List.take_take, min_eq_left hi]
  have hchecked : (s.buffer.take s.checked_index).length = s.checked_index :=
    List.length_take_of_le (hi.trans hlen)
  refine ⟨⟨?_, hchecked.symm, ?_, hcr⟩, ?_⟩
  · rw [hwindow, hfirst, List.take_append_drop]
  · rw [hchecked, List.length_drop, List.length_take_of_le hlen, Nat.add_sub_cancel' hi]
    rfl
  · rw [ParseState.extend, hwindow, List.take_append_drop]
    rfl

/-- What lies behind the bytes received is not accessed. -/
theorem parse_line_within (hi : s.checked_index ≤ s.read_index)
    (hlen : s.read_index ≤ s.buffer.length) (hcr : NotBehindCr s) :
    AccessesWithin 0 s.read_index parse_line parse_line s := by
  obtain ⟨hunread, hext⟩ := unread_window hi hlen hcr
  obtain ⟨status, t, hscan, hrun⟩ := hunread.parse_line_scans
  have hlen' : t.buffer.length = s.read_index := by
    rw [(hscan.moves hunread).2.2.1, ParseState.window, List.drop_zero, List.length_take_of_le hlen]
  have hfull := hrun (s.buffer.drop s.read_index)
  rw [hext] at hfull
  refine ⟨status, _, hfull, ?_, ?_, rfl, ?_⟩
  · have hback : (t.extend (s.buffer.drop s.read_index)).window 0 s.read_index = t.extend [] := by
      rw [ParseState.window, ParseState.extend, ParseState.extend, List.drop_zero,
        List.take_left' hlen', List.append_nil]
    rw [hback, ← hrun [], extend_nil]
  · rw [buffer_extend, List.length_append, hlen', List.length_drop]
    omega
  · rw [buffer_extend, List.drop_left' hlen']

end ParseLine

/-! ## A line -/

/-- The line from `szTemp` to `checked_index`, in the place where it is handed on: a string, its
NUL, and other bytes of which the last is a NUL. -/
def HasLine (szTemp : Nat) (s : ParseState) : Prop :=
  ∃ a text b z, s.buffer = a ++ (text ++ 0 :: (b ++ [0])) ++ z ∧ 0 ∉ text ∧ szTemp = a.length ∧
    s.checked_index = a.length + (text ++ 0 :: (b ++ [0])).length ∧ s.start_line = s.checked_index

section Line

variable {s t : ParseState} {szTemp : Nat}

theorem exists_text (line : List UInt8) :
    ∃ text b, line ++ [0, 0] = text ++ 0 :: (b ++ [0]) ∧ 0 ∉ text := by
  by_cases hzero : 0 ∈ line
  · obtain ⟨text, b, rfl, htext⟩ := List.eq_append_cons_of_mem hzero
    exact ⟨text, b ++ [0], by simp, htext⟩
  · exact ⟨line, [], rfl, hzero⟩

/-- A line that `parse_line` has ended. -/
theorem Scanned.hasLine {p rest : List UInt8} (hs : Unread s p rest)
    (h : Scanned s p rest .line_ok t) (hstart : s.start_line ≤ s.checked_index) (z : List UInt8) :
    HasLine t.start_line { t.extend z with start_line := t.checked_index } := by
  rw [hs.checked_index] at hstart
  cases h with
  | @line_ok line rest hline =>
      obtain ⟨text, b, hsplit, htext⟩ := exists_text (p.drop s.start_line ++ line)
      have hlen : (p.take s.start_line).length = s.start_line := List.length_take_of_le hstart
      refine ⟨p.take s.start_line, text, b, rest ++ z, ?_, htext, hlen.symm, ?_, rfl⟩
      · show p ++ line ++ 0 :: 0 :: rest ++ z = _
        rw [← hsplit, ← List.append_assoc (p.take s.start_line),
          ← List.append_assoc (p.take s.start_line), List.take_append_drop]
        simp
      · rw [← hsplit, hlen]
        simp
        omega

theorem window_eq {a w z : List UInt8} (hbuf : s.buffer = a ++ w ++ z) :
    s.window a.length (a.length + w.length) = { s with buffer := w } := by
  rw [ParseState.window, hbuf, ← List.length_append, List.take_left, List.drop_left]

/-- Code that replaces the string of a line by another one of the same length. -/
theorem within_of_run {α : Type} {x y : Exec ParseState α} {r : α} {a w v z : List UInt8}
    (hbuf : s.buffer = a ++ w ++ z) (hlen : v.length = w.length) (hx : x.run s = .ok (r, t))
    (ht : t.buffer = a ++ v ++ z)
    (hy : y.run { s with buffer := w } = .ok (r, { t with buffer := v })) :
    AccessesWithin a.length (a.length + w.length) x y s := by
  refine ⟨r, t, hx, ?_, ?_, ?_, ?_⟩
  · rw [window_eq hbuf, hy, ← hlen, window_eq ht]
  · rw [ht, hbuf]
    simp [hlen]
  · rw [ht, hbuf, List.append_assoc, List.take_left, List.append_assoc, List.take_left]
  · rw [ht, hbuf, ← List.length_append, List.drop_left, List.drop_left' (by simp [hlen])]

/-- The line behind a function on its string: the indices and the end of the line stay. -/
structure Passed (s t : ParseState) : Prop where
  start_line : t.start_line = s.start_line
  checked_index : t.checked_index = s.checked_index
  read_index : t.read_index = s.read_index
  buffer : t.buffer.length = s.buffer.length
  last : NotBehindCr t

theorem notBehindCr_of_line {a w z : List UInt8} (hbuf : s.buffer = a ++ (w ++ [0]) ++ z)
    (hi : s.checked_index = a.length + (w ++ [0]).length) : NotBehindCr s := by
  intro b hb
  rw [hi, hbuf, ← List.length_append, List.take_left, ← List.append_assoc, List.getLast?_concat,
    Option.mem_some_iff] at hb
  rw [← hb]
  decide

theorem HasLine.requestline (h : HasLine szTemp s) :
    AccessesWithin szTemp s.checked_index (parse_requestline szTemp) (parse_requestline 0) s ∧
      ∃ r t, (parse_requestline szTemp).run s = .ok (r, t) ∧ Passed s t := by
  obtain ⟨a, text, b, z, hbuf, htext, rfl, hi, -⟩ := h
  have hlen := requestlineResult_left_length text
  have hx := parse_requestline_run (s := s) (p := a) (q := b ++ [0] ++ z) (by simp [hbuf]) htext rfl
  constructor
  · rw [hi]
    refine within_of_run (v := (requestlineResult text).left ++ 0 :: (b ++ [0])) hbuf ?_ hx ?_ ?_
    · simp [hlen]
    · simp [LineResult.apply]
    · exact parse_requestline_run (p := []) (q := b ++ [0]) rfl htext rfl
  · refine ⟨_, _, hx, rfl, rfl, rfl, ?_, ?_⟩
    · rw [hbuf]
      simp [LineResult.apply, hlen]
    · apply notBehindCr_of_line (a := a) (w := (requestlineResult text).left ++ 0 :: b) (z := z)
      · simp [LineResult.apply]
      · rw [LineResult.apply, hi]
        simp [hlen]

theorem HasLine.headers (h : HasLine szTemp s) :
    AccessesWithin szTemp s.checked_index (parse_headers szTemp) (parse_headers 0) s ∧
      ∃ r t, (parse_headers szTemp).run s = .ok (r, t) ∧ Passed s t := by
  obtain ⟨a, text, b, z, hbuf, htext, rfl, hi, -⟩ := h
  have hx := parse_headers_run (s := s) (p := a) (q := b ++ [0] ++ z) (by simp [hbuf]) htext rfl
  constructor
  · rw [hi]
    apply within_of_run hbuf rfl hx hbuf
    exact parse_headers_run (p := []) (q := b ++ [0]) rfl htext rfl
  · refine ⟨_, _, hx, rfl, rfl, rfl, rfl, ?_⟩
    apply notBehindCr_of_line (a := a) (w := text ++ 0 :: b) (z := z)
    · simp [hbuf]
    · simpa using hi

end Line

/-! ## All places -/

/-- The order of the indices. -/
structure InBounds (s : ParseState) : Prop where
  start_line : s.start_line ≤ s.checked_index
  checked_index : s.checked_index ≤ s.read_index
  read_index : s.read_index ≤ BUFFER_SIZE
  buffer : s.buffer.length = BUFFER_SIZE

/-- What the code that comes next at a place relies on. -/
def Place.Ready (s : ParseState) : Place → Prop
  | main | scan | result .no_request => NotBehindCr s
  | line szTemp => HasLine szTemp s
  | result _ | closed => True

section Places

variable {s t : ParseState} {place : Place} {szTemp : Nat} {code : HttpCode}

theorem Passed.inBounds (h : Passed s t) (hs : InBounds s) : InBounds t where
  start_line := by rw [h.start_line, h.checked_index]; exact hs.start_line
  checked_index := by rw [h.checked_index, h.read_index]; exact hs.checked_index
  read_index := by rw [h.read_index]; exact hs.read_index
  buffer := h.buffer.trans hs.buffer

theorem InBounds.recv {chunk : List UInt8} (hs : InBounds s) (hcr : NotBehindCr s)
    (hroom : s.read_index + chunk.length ≤ BUFFER_SIZE) :
    ∃ t, (recv chunk).run s = .ok ((), t) ∧ InBounds t ∧ NotBehindCr t := by
  have hread : (s.buffer.take s.read_index).length = s.read_index := by
    rw [List.length_take_of_le (hs.buffer.symm ▸ hs.read_index)]
  refine ⟨_, recv_run_eq (hs.buffer.symm ▸ hroom), ⟨hs.start_line, ?_, hroom, ?_⟩, ?_⟩
  · exact Nat.le_add_right_of_le hs.checked_index
  · simp only [List.length_append, List.length_drop, hread, hs.buffer]
    omega
  · show ∀ b ∈ ((s.buffer.take s.read_index ++ chunk ++ _).take s.checked_index).getLast?, b ≠ CR
    rw [List.append_assoc, List.take_append_of_le_length (hread.symm ▸ hs.checked_index),
      List.take_take, min_eq_left hs.checked_index]
    exact hcr

/-- What a call of `parse_line` that returns has done. -/
theorem InBounds.scanned {status : LineStatus} (hs : InBounds s) (hcr : NotBehindCr s)
    (hrun : parse_line.run s = .ok (status, t)) :
    ∃ u p rest v z,
      Unread u p rest ∧ Scanned u p rest status v ∧ s = u.extend z ∧ t = v.extend z := by
  obtain ⟨hunread, hext⟩ :=
    unread_window hs.checked_index (hs.buffer.symm ▸ hs.read_index) hcr
  obtain ⟨status', v, hscan, hrun'⟩ := hunread.parse_line_scans
  have hfull := hrun' (s.buffer.drop s.read_index)
  rw [hext, hrun, Except.ok.injEq, Prod.mk.injEq] at hfull
  obtain ⟨rfl, ht⟩ := hfull
  exact ⟨_, _, _, v, _, hunread, hscan, hext.symm, ht⟩

theorem Scanned.inBounds {p rest z : List UInt8} {status : LineStatus} (hs : Unread s p rest)
    (h : Scanned s p rest status t) (hbounds : InBounds (s.extend z)) : InBounds (t.extend z) := by
  obtain ⟨hstart, hread, hlen, hle, hle'⟩ := h.moves hs
  have hsize := hbounds.buffer
  rw [buffer_extend, List.length_append] at hsize
  refine ⟨?_, ?_, ?_, ?_⟩
  · show t.start_line ≤ t.checked_index
    rw [hstart]
    exact hbounds.start_line.trans hle
  · show t.checked_index ≤ t.read_index
    rwa [hread]
  · show t.read_index ≤ BUFFER_SIZE
    rw [hread]
    exact hbounds.read_index
  · rw [buffer_extend, List.length_append, hlen, hsize]

/-- In every place the indices are in order, and the next code has what it relies on. -/
theorem Reached.inBounds (h : Reached place s) : InBounds s ∧ place.Ready s := by
  induction h with
  | start =>
      refine ⟨⟨le_rfl, le_rfl, Nat.zero_le _, List.length_replicate⟩, ?_⟩
      intro b hb
      cases hb
  | recv _ _ hroom hrun ih =>
      obtain ⟨t, hrun', ht⟩ := ih.1.recv ih.2 hroom
      cases hrun.symm.trans hrun'
      exact ht
  | @pass s c _ hlt hc hcr _ ih =>
      refine ⟨⟨Nat.le_add_right_of_le ih.1.start_line, hlt, ih.1.read_index, ih.1.buffer⟩, ?_⟩
      intro b hb
      rw [List.take_add_one, hc, Option.toList_some, List.getLast?_concat,
        Option.mem_some_iff] at hb
      exact hb ▸ hcr
  | line_ok _ hrun ih =>
      obtain ⟨u, p, rest, v, z, hu, hscan, rfl, rfl⟩ := ih.1.scanned ih.2 hrun
      have ht := hscan.inBounds hu ih.1
      exact ⟨⟨le_rfl, ht.checked_index, ht.read_index, ht.buffer⟩,
        hscan.hasLine hu ih.1.start_line z⟩
  | line_open _ hrun ih =>
      obtain ⟨u, p, rest, v, z, hu, hscan, rfl, rfl⟩ := ih.1.scanned ih.2 hrun
      exact ⟨hscan.inBounds hu ih.1, hscan.notBehindCr hu z⟩
  | line_bad _ hrun ih =>
      obtain ⟨u, p, rest, v, z, hu, hscan, rfl, rfl⟩ := ih.1.scanned ih.2 hrun
      exact ⟨hscan.inBounds hu ih.1, trivial⟩
  | @requestline s t szTemp retcode _ _ hrun ih =>
      obtain ⟨-, r, t', hrun', hpassed⟩ := ih.2.requestline
      cases hrun.symm.trans hrun'
      refine ⟨hpassed.inBounds ih.1, ?_⟩
      unfold Place.afterRequestline
      split_ifs
      · trivial
      · exact hpassed.last
  | @headers s t szTemp retcode _ _ hrun ih =>
      obtain ⟨-, r, t', hrun', hpassed⟩ := ih.2.headers
      cases hrun.symm.trans hrun'
      refine ⟨hpassed.inBounds ih.1, ?_⟩
      unfold Place.afterHeaders
      split_ifs
      · trivial
      · trivial
      · exact hpassed.last
  | content _ _ ih => exact ⟨ih.1, trivial⟩
  | go_on _ ih => exact ih
  | answer _ _ ih =>
      exact ⟨⟨ih.1.start_line, ih.1.checked_index, ih.1.read_index, ih.1.buffer⟩, trivial⟩

/-- A call of `parse_content` that returns goes from place to place. -/
theorem parse_content_reached {fuel : Nat} (h : Reached .scan s)
    (hrun : (parse_content fuel).run s = .ok (code, t)) : Reached (.result code) t := by
  induction fuel generalizing s with
  | zero => cases hrun
  | succ fuel ih =>
      obtain ⟨status, u, hline, hrest⟩ := run_bind_eq_ok hrun
      cases status with
      | line_ok =>
          have hu := Reached.line_ok h hline
          rw [run_bind_of_ok rfl, run_bind_of_ok rfl] at hrest
          rcases u with ⟨buffer, read_index, checked_index, start_line, checkstate, printed, sent⟩
          cases checkstate with
          | requestline =>
              obtain ⟨retcode, v, hv, hrest⟩ := run_bind_eq_ok hrest
              have hnext := Reached.requestline hu rfl hv
              rw [Place.afterRequestline] at hnext
              by_cases hbad : retcode = .bad_request
              · rw [if_pos hbad] at hrest hnext
                cases hrest
                exact hnext
              · rw [if_neg hbad] at hrest hnext
                exact ih hnext hrest
          | header =>
              obtain ⟨retcode, v, hv, hrest⟩ := run_bind_eq_ok hrest
              have hnext := Reached.headers hu rfl hv
              rw [Place.afterHeaders] at hnext
              by_cases hbad : retcode = .bad_request
              · rw [if_pos hbad] at hrest hnext
                cases hrest
                exact hnext
              · rw [if_neg hbad] at hrest hnext
                by_cases hget : retcode = .get_request
                · rw [if_pos hget] at hrest hnext
                  cases hrest
                  exact hnext
                · rw [if_neg hget] at hrest hnext
                  exact ih hnext hrest
          | content =>
              cases hrest
              exact .content hu rfl
      | line_open =>
          cases hrest
          exact .line_open h hline
      | line_bad =>
          cases hrest
          exact .line_bad h hline

/-- The loop of `main` goes from place to place: before the next `recv` or behind the answer. -/
theorem receive_reached {fuel : Nat} {chunks : List (List UInt8)} (h : Reached .main s)
    (hrun : (receive fuel chunks).run s = .ok (code, t)) : Reached .main t ∨ Reached .closed t := by
  induction chunks generalizing s with
  | nil =>
      cases hrun
      exact Or.inl h
  | cons chunk chunks ih =>
      obtain ⟨⟨⟩, u, hrecv, hrest⟩ := run_bind_eq_ok hrun
      obtain ⟨hs, -⟩ := h.inBounds
      have hroom : s.read_index + chunk.length ≤ BUFFER_SIZE := by
        by_contra hlong
        have herr : (recv chunk).run s = .error .undefined := by
          rw [recv, run_bind_of_ok rfl, if_neg (hs.buffer.symm ▸ hlong)]
          rfl
        cases herr.symm.trans hrecv
      by_cases hchunk : chunk = []
      · -- the connection is closed, and nothing is received
        subst hchunk
        rw [if_pos rfl] at hrest
        cases hrest
        rw [recv_run_eq (hs.buffer.symm ▸ hroom)] at hrecv
        cases hrecv
        rw [List.append_nil, List.length_nil, Nat.add_zero, List.take_append_drop]
        exact Or.inl h
      · rw [if_neg hchunk] at hrest
        have hu : Reached .scan u := .recv h hchunk hroom hrecv
        obtain ⟨result, v, hv, hrest⟩ := run_bind_eq_ok hrest
        have hresult := parse_content_reached hu hv
        by_cases hmore : result = .no_request
        · rw [if_pos hmore] at hrest
          exact ih (.go_on (hmore ▸ hresult)) hrest
        · rw [if_neg hmore] at hrest
          cases hrest
          exact Or.inr (.answer hresult hmore)

/-- In every place of every run of the loop of `main`, on any bytes in any chunks: the line starts
before the parsed bytes end, these end before the received ones, and those are in the buffer. A
chunk that is not too long is stored in the buffer; `parse_line` reads and writes below `read_index`
only, and writes only over a CR and a LF; a line starts where the last one ended, has a NUL before
`checked_index`, and is not left by the function that gets it. -/
theorem indices_in_bounds (h : Reached place s) :
    (s.start_line ≤ s.checked_index ∧ s.checked_index ≤ s.read_index ∧
      s.read_index ≤ BUFFER_SIZE ∧ s.buffer.length = BUFFER_SIZE) ∧ place.Safe s := by
  obtain ⟨hs, hready⟩ := h.inBounds
  refine ⟨⟨hs.start_line, hs.checked_index, hs.read_index, hs.buffer⟩, ?_⟩
  cases place with
  | main =>
      intro chunk hroom
      obtain ⟨t, hrun, -⟩ := hs.recv hready hroom
      exact ⟨t, hrun⟩
  | scan =>
      refine ⟨parse_line_within hs.checked_index (hs.buffer.symm ▸ hs.read_index) hready, ?_⟩
      intro status t hrun
      obtain ⟨u, p, rest, v, z, hu, hscan, rfl, rfl⟩ := hs.scanned hready hrun
      exact ⟨(hscan.moves hu).1, hscan.overwrites hu z⟩
  | line szTemp =>
      have hline : HasLine szTemp s := hready
      refine ⟨?_, ?_, fun _ => hline.requestline.1, fun _ => hline.headers.1⟩
      · obtain ⟨a, text, b, z, -, -, -, -, hstart⟩ := hline
        exact hstart
      · obtain ⟨a, text, b, z, hbuf, -, rfl, hi, -⟩ := hline
        refine ⟨a.length + text.length, Nat.le_add_right _ _, ?_, ?_⟩
        · rw [hi]
          simp
        · have hsplit : s.buffer = (a ++ text) ++ 0 :: (b ++ [0] ++ z) := by simp [hbuf]
          rw [hsplit, ← List.length_append, List.getElem?_append_right le_rfl, Nat.sub_self]
          rfl
  | result code => trivial
  | closed => trivial

/-- The first chunk has come, with a line and the CR of the next. -/
theorem indices_in_bounds_first_chunk :
    ∃ s, Reached .scan s ∧ s.read_index = 6 ∧ s.checked_index ≤ s.read_index ∧
      AccessesWithin 0 s.read_index parse_line parse_line s := by
  have hroom : (ParseState.start []).read_index + 6 ≤ (ParseState.start []).buffer.length := by
    rw [Reached.start.inBounds.1.buffer]
    decide
  have hfirst : Reached .scan _ := Reached.start.recv (by decide) (by decide)
    (recv_run_eq (show _ + [71, 69, 84, 13, 10, 13].length ≤ _ from hroom))
  obtain ⟨⟨-, hle, -⟩, hwithin, -⟩ := indices_in_bounds hfirst
  exact ⟨_, hfirst, rfl, hle, hwithin⟩

end Places

end CLanguageLearning.Http
