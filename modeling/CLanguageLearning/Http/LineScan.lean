import CLanguageLearning.Http.Lines

/-!
# A call of `parse_line`

`parse_line` passes the bytes of a line and stops at its end, behind the bytes received or at a
stray byte. What it does is told once, for a buffer that ends with the bytes received; it does the
same whatever lies behind them.
-/

set_option autoImplicit false

namespace CLanguageLearning.Http

open CLanguageLearning.Foundation

def CRLF : List UInt8 := [CR, LF]

/-- The bytes of a line without its end. -/
def IsLine (l : List UInt8) : Prop := ∀ b ∈ l, b ∉ CRLF

/-- The parser with more memory behind the buffer. -/
def ParseState.extend (s : ParseState) (z : List UInt8) : ParseState :=
  { s with buffer := s.buffer ++ z }

/-- The buffer holds the bytes `p`, which do not end in a CR, and the received bytes `rest` that
`parse_line` has not passed. -/
structure Unread (s : ParseState) (p rest : List UInt8) : Prop where
  buffer : s.buffer = p ++ rest
  checked_index : s.checked_index = p.length
  read_index : s.read_index = p.length + rest.length
  last : ∀ b ∈ p.getLast?, b ≠ CR

/-- The ends of a call of `parse_line`, by what it finds behind the bytes `p`. -/
inductive Scanned (s : ParseState) (p : List UInt8) :
    List UInt8 → LineStatus → ParseState → Prop where
  | line_open {line : List UInt8} (hline : IsLine line) :
      Scanned s p line .line_open { s with checked_index := (p ++ line).length }
  | line_open_cr {line : List UInt8} (hline : IsLine line) :
      Scanned s p (line ++ [CR]) .line_open { s with checked_index := (p ++ line).length }
  | line_ok {line rest : List UInt8} (hline : IsLine line) :
      Scanned s p (line ++ CR :: LF :: rest) .line_ok { s with
        buffer := p ++ line ++ 0 :: 0 :: rest
        checked_index := (p ++ line).length + 2 }
  | stray_cr {line rest : List UInt8} {c : UInt8} (hline : IsLine line) (hc : c ≠ LF) :
      Scanned s p (line ++ CR :: c :: rest) .line_bad { s with checked_index := (p ++ line).length }
  | stray_lf {line rest : List UInt8} (hline : IsLine line) :
      Scanned s p (line ++ LF :: rest) .line_bad { s with checked_index := (p ++ line).length }

variable {s t : ParseState} {p rest line : List UInt8} {status : LineStatus} {c : UInt8}

@[simp] theorem checked_index_extend (s : ParseState) (z : List UInt8) :
    (s.extend z).checked_index = s.checked_index := rfl

@[simp] theorem read_index_extend (s : ParseState) (z : List UInt8) :
    (s.extend z).read_index = s.read_index := rfl

@[simp] theorem buffer_extend (s : ParseState) (z : List UInt8) :
    (s.extend z).buffer = s.buffer ++ z := rfl

@[simp] theorem extend_nil (s : ParseState) : s.extend [] = s := by
  rw [ParseState.extend, List.append_nil]

theorem isLine_nil : IsLine [] := nofun

theorem notMem_CRLF (hcr : c ≠ CR) (hlf : c ≠ LF) : c ∉ CRLF := by
  rw [CRLF, List.mem_cons, List.mem_singleton]
  exact not_or.mpr ⟨hcr, hlf⟩

theorem IsLine.cons (hc : c ∉ CRLF) (hline : IsLine line) : IsLine (c :: line) :=
  List.forall_mem_cons.mpr ⟨hc, hline⟩

/-- Bytes that do not end in a CR do not with a line behind them. -/
theorem IsLine.last_append (hline : IsLine line) (hp : ∀ b ∈ p.getLast?, b ≠ CR) :
    ∀ b ∈ (p ++ line).getLast?, b ≠ CR := by
  rcases List.eq_nil_or_concat' line with rfl | ⟨u, c, rfl⟩
  · rwa [List.append_nil]
  · intro b hb
    rw [← List.append_assoc, List.getLast?_concat, Option.mem_some_iff] at hb
    rintro rfl
    exact hline c (by simp) (by simp [CRLF, hb])

/-- A byte of the line is passed. -/
theorem Scanned.cons (hc : c ∉ CRLF)
    (h : Scanned { s with checked_index := s.checked_index + 1 } (p ++ [c]) rest status t) :
    Scanned s p (c :: rest) status t := by
  cases h with
  | line_open hline =>
      rw [List.append_assoc]
      exact .line_open (hline.cons hc)
  | line_open_cr hline =>
      rw [List.append_assoc]
      exact .line_open_cr (hline.cons hc)
  | line_ok hline =>
      rw [List.append_assoc p]
      exact .line_ok (hline.cons hc)
  | stray_cr hline hd =>
      rw [List.append_assoc]
      exact .stray_cr (hline.cons hc) hd
  | stray_lf hline =>
      rw [List.append_assoc]
      exact .stray_lf (hline.cons hc)

namespace Unread

theorem pass (h : Unread s p (c :: rest)) (hc : c ≠ CR) :
    Unread { s with checked_index := s.checked_index + 1 } (p ++ [c]) rest where
  buffer := by simp [h.buffer]
  checked_index := by simp [h.checked_index]
  read_index := by
    show s.read_index = _
    rw [h.read_index, List.length_append, List.length_cons, List.length_singleton]
    omega
  last := by
    intro b hb
    rw [List.getLast?_concat, Option.mem_some_iff] at hb
    exact hb ▸ hc

/-- Nothing has been passed. -/
theorem state_eq (h : Unread s p rest) : { s with checked_index := (p ++ []).length } = s := by
  rw [List.append_nil, ← h.checked_index]

theorem load_run (h : Unread s p (c :: rest)) (z : List UInt8) :
    (load s.checked_index).run (s.extend z) = .ok (c, s.extend z) :=
  Http.load_run (q := rest ++ z) (by simp [h.buffer]) h.checked_index

/-- The loop at a CR: the line is open if nothing follows, complete before a LF, and bad before
anything else. -/
theorem loop_cr (h : Unread s p (CR :: rest)) :
    ∃ status t, Scanned s p (CR :: rest) status t ∧
      ∀ z, (parse_line_loop (rest.length + 1)).run (s.extend z) = .ok (status, t.extend z) := by
  have hread := h.read_index
  rw [← h.checked_index, List.length_cons] at hread
  cases rest with
  | nil =>
      have hend : s.checked_index + 1 = s.read_index := hread.symm
      refine ⟨_, _, @Scanned.line_open_cr s p [] isLine_nil, fun z => ?_⟩
      rw [h.state_eq, parse_line_loop, run_bind_of_ok rfl, checked_index_extend,
        run_bind_of_ok (h.load_run z), if_pos rfl, read_index_extend, if_pos hend]
      rfl
  | cons d rest =>
      rw [List.length_cons] at hread
      have hne : s.checked_index + 1 ≠ s.read_index := by omega
      have hi : s.checked_index + 1 = (p ++ [CR]).length := by
        rw [List.length_append, h.checked_index, List.length_singleton]
      have hnext : ∀ z, (load (s.checked_index + 1)).run (s.extend z) = .ok (d, s.extend z) :=
        fun z => Http.load_run (q := rest ++ z) (by simp [h.buffer]) hi
      by_cases hd : d = LF
      · -- both bytes of the line end are overwritten
        subst hd
        refine ⟨_, _, @Scanned.line_ok s p [] rest isLine_nil, fun z => ?_⟩
        have hfirst : (store s.checked_index 0).run (s.extend z) =
            .ok ((), { s with buffer := p ++ 0 :: LF :: (rest ++ z) }) :=
          store_run (b := CR) (by simp [h.buffer]) h.checked_index 0
        have hsecond : (store (s.checked_index + 1) 0).run
            { s with buffer := p ++ 0 :: LF :: (rest ++ z) } =
              .ok ((), { s with buffer := p ++ [0] ++ 0 :: (rest ++ z) }) :=
          store_run (b := LF) (by simp) (by simpa using hi) 0
        rw [parse_line_loop, run_bind_of_ok rfl, checked_index_extend,
          run_bind_of_ok (h.load_run z), if_pos rfl, read_index_extend, if_neg hne,
          run_bind_of_ok (hnext z), if_pos rfl, run_bind_of_ok hfirst, run_bind_of_ok hsecond,
          run_bind_of_ok rfl, ParseState.extend]
        simp [h.checked_index]
      · refine ⟨_, _, @Scanned.stray_cr s p [] rest d isLine_nil hd, fun z => ?_⟩
        rw [h.state_eq, parse_line_loop, run_bind_of_ok rfl, checked_index_extend,
          run_bind_of_ok (h.load_run z), if_pos rfl, read_index_extend, if_neg hne,
          run_bind_of_ok (hnext z), if_neg hd]
        rfl

/-- The loop at a LF: the byte before it is no CR, since the loop would have taken both together. -/
theorem loop_lf (h : Unread s p (LF :: rest)) (z : List UInt8) :
    (parse_line_loop (rest.length + 1)).run (s.extend z) = .ok (.line_bad, s.extend z) := by
  rw [parse_line_loop, run_bind_of_ok rfl, checked_index_extend, run_bind_of_ok (h.load_run z),
    if_neg (by decide), if_pos rfl]
  by_cases hpos : 1 < s.checked_index
  · rcases List.eq_nil_or_concat' p with rfl | ⟨a, d, rfl⟩
    · rw [h.checked_index] at hpos
      cases hpos
    · have hi : s.checked_index - 1 = a.length := by
        rw [h.checked_index, List.length_append, List.length_singleton, Nat.add_sub_cancel]
      have hd : d ≠ CR := h.last d (by rw [List.getLast?_concat]; rfl)
      have hprevious : (load (s.checked_index - 1)).run (s.extend z) = .ok (d, s.extend z) :=
        Http.load_run (q := LF :: rest ++ z) (by simp [h.buffer]) hi
      rw [if_pos hpos, run_bind_of_ok hprevious, if_neg hd]
      rfl
  · rw [if_neg hpos]
    rfl

theorem loop_scans (h : Unread s p rest) :
    ∃ status t, Scanned s p rest status t ∧
      ∀ z, (parse_line_loop rest.length).run (s.extend z) = .ok (status, t.extend z) := by
  induction rest generalizing s p with
  | nil =>
      refine ⟨_, _, .line_open isLine_nil, fun z => ?_⟩
      rw [h.state_eq]
      rfl
  | cons c rest ih =>
      by_cases hcr : c = CR
      · subst hcr
        exact h.loop_cr
      · by_cases hlf : c = LF
        · subst hlf
          refine ⟨_, _, @Scanned.stray_lf s p [] rest isLine_nil, fun z => ?_⟩
          rw [h.state_eq]
          exact h.loop_lf z
        · -- any other byte belongs to the line
          obtain ⟨status, t, hscan, hrun⟩ := ih (h.pass hcr)
          refine ⟨status, t, hscan.cons (notMem_CRLF hcr hlf), fun z => ?_⟩
          rw [List.length_cons, parse_line_loop, run_bind_of_ok rfl, checked_index_extend,
            run_bind_of_ok (h.load_run z), if_neg hcr, if_neg hlf, run_bind_of_ok rfl]
          exact hrun z

/-- A call of `parse_line` returns, and what lies behind the bytes received does not matter. -/
theorem parse_line_scans (h : Unread s p rest) :
    ∃ status t, Scanned s p rest status t ∧
      ∀ z, parse_line.run (s.extend z) = .ok (status, t.extend z) := by
  have hlen : s.read_index - s.checked_index = rest.length := by
    rw [h.read_index, h.checked_index, Nat.add_sub_cancel_left]
  obtain ⟨status, t, hscan, hrun⟩ := h.loop_scans
  refine ⟨status, t, hscan, fun z => ?_⟩
  rw [parse_line, run_bind_of_ok rfl, read_index_extend, checked_index_extend, hlen]
  exact hrun z

end Unread

end CLanguageLearning.Http
