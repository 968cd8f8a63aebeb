import CLanguageLearning.Http.LineEnds

/-!
# Lines from a socket that does not block

The sockets of epollhttpd do not block, so `recv` may return -1 between any two bytes. Its `get_line`
takes that for the end of the line, and behind a CR for a byte other than a line feed; `do_read` takes
it for the end of the headers. All lines are read as if the bytes had come at once exactly when each
such place that has bytes behind it is directly behind a CR and in front of no line feed.
-/

set_option autoImplicit false

namespace CLanguageLearning.Epollhttpd

open CLanguageLearning.Tinyhttpd

/-- What arrives on a socket: bytes, and between them `none` where a call finds no byte yet. Behind
the last one there is never a byte again. -/
abbrev Arrivals := List (Option UInt8)

/-- The bytes that arrive. -/
def Arrivals.bytes (s : Arrivals) : List UInt8 := s.reduceOption

/-- The same bytes without a pause. -/
def atOnce (l : List UInt8) : Arrivals := l.map some

/-- The size of `line` and of `buf`. -/
def LINE_SIZE : Nat := 1024

/-- `recv(sock, &c, 1, 0)` -/
def recv : Arrivals → Option UInt8 × Arrivals
  | [] => (none, [])
  | none :: s => (none, s)
  | some c :: s => (some c, s)

/-- `recv(sock, &c, 1, MSG_PEEK)` -/
def peek : Arrivals → Option UInt8 × Arrivals
  | [] => (none, [])
  | none :: s => (none, s)
  | some c :: s => (some c, some c :: s)

/-- The loop of `get_line` with room for so many more bytes, and what it stores. -/
def get_line_loop : Nat → Arrivals → List UInt8 × Arrivals
  | 0, s => ([], s)
  | n + 1, s =>
      match recv s with
      -- a pause ends the line like the end of the stream
      | (none, s) => ([], s)
      | (some c, s) =>
          if c = CR then
            match peek s with
            | (some d, s) => ([LF], if d = LF then (recv s).2 else s)
            | (none, s) => ([LF], s)
          else if c = LF then ([LF], s)
          else
            let (line, s) := get_line_loop n s
            (c :: line, s)

/-- A call of `get_line`; the length of what it stores is what it returns. -/
def get_line (size : Nat) (s : Arrivals) : List UInt8 × Arrivals := get_line_loop (size - 1) s

/-- `while (len) { len = get_line(cfd, buf, sizeof buf); }` in at most the given number of turns, and
the lines that are read. -/
def headerLoop : Nat → Nat → Arrivals → Option (List (List UInt8) × Arrivals)
  | 0, _, _ => none
  | fuel + 1, len, s =>
      if len = 0 then some ([], s)
      else
        let (line, s) := get_line LINE_SIZE s
        (headerLoop fuel line.length s).map fun (lines, s) => (line :: lines, s)

/-- The lines that `do_read` obtains. The loop ends with the first one that is empty. -/
def do_read (s : Arrivals) : Option (List (List UInt8) × Arrivals) :=
  let (line, s) := get_line LINE_SIZE s
  (headerLoop (s.length + 2) line.length s).map fun (lines, s) => (line :: lines, s)

/-- The lines are those of the bytes at once, and no byte is left unread. -/
def ReadsAtOnce (s : Arrivals) : Prop :=
  ∃ lines rest rest', do_read s = some (lines, rest) ∧ rest.bytes = [] ∧
    do_read (atOnce s.bytes) = some (lines, rest')

/-- Each pause that has bytes behind it is directly behind a CR, and directly in front of a byte
other than a line feed. -/
def PausesHarmless (s : Arrivals) : Prop :=
  ∀ before after, s = before ++ none :: after → Arrivals.bytes after ≠ [] →
    before.getLast? = some (some CR) ∧ ∃ c, c ≠ LF ∧ after.head? = some (some c)

section Pauses

variable {s : Arrivals} {c : UInt8}

@[simp] theorem bytes_nil : Arrivals.bytes [] = [] := rfl

@[simp] theorem bytes_none (s : Arrivals) : Arrivals.bytes (none :: s) = Arrivals.bytes s := rfl

@[simp] theorem bytes_some (c : UInt8) (s : Arrivals) :
    Arrivals.bytes (some c :: s) = c :: Arrivals.bytes s := rfl

theorem bytes_append (s t : Arrivals) :
    Arrivals.bytes (s ++ t) = Arrivals.bytes s ++ Arrivals.bytes t := List.filterMap_append

theorem harmless_of_bytes (h : s.bytes = []) : PausesHarmless s := by
  rintro before after rfl hne
  rw [bytes_append, bytes_none, List.append_eq_nil_iff] at h
  exact absurd h.2 hne

/-- A pause at the start is harmless only if no byte follows. -/
theorem harmless_none_iff : PausesHarmless (none :: s) ↔ s.bytes = [] := by
  constructor
  · intro h
    by_contra hne
    obtain ⟨hlast, -⟩ := h [] s rfl hne
    cases hlast
  · exact fun h => harmless_of_bytes h

theorem harmless_some (c : UInt8) (h : PausesHarmless s) : PausesHarmless (some c :: s) := by
  intro before after heq hne
  cases before with
  | nil => cases heq
  | cons d before =>
      rw [List.cons_append, List.cons.injEq] at heq
      obtain ⟨hlast, hhead⟩ := h before after heq.2 hne
      refine ⟨?_, hhead⟩
      have hnil : before ≠ [] := by
        rintro rfl
        cases hlast
      rw [List.getLast?_cons, hlast]
      rfl

/-- Behind a byte that no pause follows the rest decides. -/
theorem harmless_some_iff (h : c ≠ CR ∨ s.head? ≠ some none) :
    PausesHarmless (some c :: s) ↔ PausesHarmless s := by
  refine ⟨fun hall => ?_, harmless_some c⟩
  rintro before after rfl hne
  obtain ⟨hlast, hhead⟩ := hall (some c :: before) after rfl hne
  refine ⟨?_, hhead⟩
  cases before with
  | nil =>
      rcases h with hcr | hpause
      · cases hlast
        exact absurd rfl hcr
      · exact absurd rfl hpause
  | cons d before => rwa [List.getLast?_cons_cons] at hlast

/-- A pause behind a CR is harmless if another byte than a line feed follows. -/
theorem harmless_cr_none_iff :
    PausesHarmless (some CR :: none :: s) ↔ s.head? ≠ some (some LF) ∧ PausesHarmless s := by
  constructor
  · intro h
    constructor
    · intro hlf
      cases s with
      | nil => cases hlf
      | cons d s =>
          cases hlf
          obtain ⟨-, c, hc, heq⟩ := h [some CR] (some LF :: s) rfl (List.cons_ne_nil _ _)
          cases heq
          exact hc rfl
    · rintro before after rfl hne
      obtain ⟨hlast, hhead⟩ := h (some CR :: none :: before) after rfl hne
      refine ⟨?_, hhead⟩
      cases before with
      | nil => cases hlast
      | cons d before => rwa [List.getLast?_cons_cons, List.getLast?_cons_cons] at hlast
  · rintro ⟨hlf, h⟩ before after heq hne
    cases before with
    | nil => cases heq
    | cons d before =>
        cases before with
        | nil =>
            cases heq
            refine ⟨rfl, ?_⟩
            cases s with
            | nil => exact absurd rfl hne
            | cons d s =>
                cases d with
                | none => exact absurd (harmless_none_iff.mp h) hne
                | some c => exact ⟨c, fun hc => hlf (by rw [hc]; rfl), rfl⟩
        | cons e before =>
            cases heq
            obtain ⟨hlast, hhead⟩ := h before after rfl hne
            refine ⟨?_, hhead⟩
            rw [List.getLast?_cons, List.getLast?_cons, hlast]
            rfl

end Pauses

/-! ## One line -/

section Line

variable {s : Arrivals} {n : Nat}

theorem get_line_cr (n : Nat) (s : Arrivals) :
    get_line_loop (n + 1) (some CR :: s) =
      ([LF], match s with
        | [] => []
        | none :: s => s
        | some d :: s => if d = LF then s else some d :: s) := by
  cases s with
  | nil => rfl
  | cons d s =>
      cases d with
      | none => rfl
      | some d => rfl

theorem get_line_other {c : UInt8} (hcr : c ≠ CR) (hlf : c ≠ LF) (n : Nat) (s : Arrivals) :
    get_line_loop (n + 1) (some c :: s) =
      (c :: (get_line_loop n s).1, (get_line_loop n s).2) := by
  rw [get_line_loop, recv]
  dsimp only
  rw [if_neg hcr, if_neg hlf]

/-- Without a pause the lines are those of a socket that blocks. -/
theorem get_line_atOnce (n : Nat) (l : List UInt8) :
    get_line_loop n (atOnce l) = ((lineOf n l).1, atOnce (lineOf n l).2) := by
  induction n generalizing l with
  | zero => rfl
  | succ n ih =>
      cases l with
      | nil => rfl
      | cons c l =>
          by_cases hcr : c = CR
          · subst hcr
            rw [lineOf_cr]
            cases l with
            | nil => rfl
            | cons d l =>
                by_cases hd : d = LF
                · subst hd
                  rfl
                · have hhead : (d :: l).head? ≠ some LF := by simpa using hd
                  rw [if_neg hhead]
                  refine (get_line_cr n (some d :: atOnce l)).trans ?_
                  dsimp only
                  rw [if_neg hd]
                  rfl
          · by_cases hlf : c = LF
            · subst hlf
              rw [lineOf_lf]
              rfl
            · rw [lineOf_other hcr hlf]
              refine (get_line_other hcr hlf n (atOnce l)).trans ?_
              rw [ih]

/-- A line read with pauses beside the one read of the same bytes at once: they are in step, or the
line feed of a CRLF is left for the next line, or the line has been cut. -/
inductive Compared (s : Arrivals) (line : List UInt8) (rest : Arrivals) (whole : List UInt8)
    (left : List UInt8) : Prop where
  | inStep (hline : whole = line) (hleft : left = rest.bytes)
      (hpauses : PausesHarmless s ↔ PausesHarmless rest)
  | split (hline : whole = line) (hne : line ≠ []) (hleft : rest.bytes = LF :: left)
      (hpauses : ¬ PausesHarmless s)
  | cut (hline : whole ≠ line) (hpauses : ¬ PausesHarmless s)

/-- What is behind a pause that follows a CR. -/
theorem compared_cr_none (s : Arrivals) :
    Compared (some CR :: none :: s) [LF] s [LF]
      (if s.bytes.head? = some LF then s.bytes.tail else s.bytes) := by
  by_cases hhead : s.bytes.head? = some LF
  · -- `recv` with MSG_PEEK has not seen the line feed, so it stays behind
    rw [if_pos hhead]
    have hcons : s.bytes = LF :: s.bytes.tail := List.eq_cons_of_mem_head? hhead
    refine .split rfl (List.cons_ne_nil _ _) hcons ?_
    rw [harmless_cr_none_iff, not_and]
    intro hlf hharmless
    cases s with
    | nil => cases hhead
    | cons d s =>
        cases d with
        | none =>
            rw [bytes_none, harmless_none_iff.mp hharmless] at hhead
            cases hhead
        | some c =>
            rw [bytes_some, List.head?_cons] at hhead
            exact hlf (congrArg some hhead)
  · rw [if_neg hhead]
    refine .inStep rfl rfl (harmless_cr_none_iff.trans (and_iff_right ?_))
    intro hlf
    cases s with
    | nil => cases hlf
    | cons d s =>
        cases hlf
        exact hhead rfl

theorem get_line_compared_cr (n : Nat) (s : Arrivals) :
    Compared (some CR :: s) (get_line_loop (n + 1) (some CR :: s)).1
      (get_line_loop (n + 1) (some CR :: s)).2 (lineOf (n + 1) (Arrivals.bytes (some CR :: s))).1
      (lineOf (n + 1) (Arrivals.bytes (some CR :: s))).2 := by
  rw [get_line_cr, bytes_some, lineOf_cr]
  match s with
  | [] =>
      have hnil : PausesHarmless [] := harmless_of_bytes rfl
      exact .inStep rfl rfl (iff_of_true (harmless_some CR hnil) hnil)
  | none :: s => exact compared_cr_none s
  | some d :: s =>
      have hfirst : PausesHarmless (some CR :: some d :: s) ↔ PausesHarmless (some d :: s) :=
        harmless_some_iff (Or.inr (by simp))
      by_cases hd : d = LF
      · subst hd
        have hne : LF ≠ CR := by decide
        exact .inStep rfl rfl (hfirst.trans (harmless_some_iff (Or.inl hne)))
      · have hhead : (Arrivals.bytes (some d :: s)).head? ≠ some LF := by simpa using hd
        dsimp only
        rw [if_neg hd, if_neg hhead]
        exact .inStep rfl rfl hfirst

theorem get_line_compared (n : Nat) (s : Arrivals) :
    Compared s (get_line_loop n s).1 (get_line_loop n s).2 (lineOf n s.bytes).1
      (lineOf n s.bytes).2 := by
  induction n generalizing s with
  | zero => exact .inStep rfl rfl Iff.rfl
  | succ n ih =>
      match s with
      | [] => exact .inStep rfl rfl Iff.rfl
      | none :: s =>
          by_cases hnil : Arrivals.bytes s = []
          · rw [bytes_none, hnil]
            exact .inStep rfl hnil.symm
              (iff_of_true (harmless_none_iff.mpr hnil) (harmless_of_bytes hnil))
          · -- the bytes behind the pause belong to the line
            refine .cut ?_ (mt harmless_none_iff.mp hnil)
            exact mt (lineOf_eq_nil_iff n _).mp hnil
      | some c :: s =>
          by_cases hcr : c = CR
          · subst hcr
            exact get_line_compared_cr n s
          · have hpauses := harmless_some_iff (s := s) (Or.inl hcr)
            by_cases hlf : c = LF
            · subst hlf
              rw [bytes_some, lineOf_lf]
              exact .inStep rfl rfl hpauses
            · rw [get_line_other hcr hlf, bytes_some, lineOf_other hcr hlf]
              cases ih s with
              | inStep hline hleft hrest =>
                  exact .inStep (congrArg (c :: ·) hline) hleft (hpauses.trans hrest)
              | split hline hne hleft hrest =>
                  exact .split (congrArg (c :: ·) hline) (List.cons_ne_nil _ _) hleft
                    (mt hpauses.mp hrest)
              | cut hline hrest =>
                  exact .cut (fun heq => hline (List.cons.inj heq).2) (mt hpauses.mp hrest)

end Line

/-! ## The lines of `do_read` -/

/-- The lines that are read one after the other, up to an empty one, and what is left. -/
inductive LinesFrom : Arrivals → List (List UInt8) → Arrivals → Prop where
  | last {s rest : Arrivals} (h : get_line LINE_SIZE s = ([], rest)) : LinesFrom s [[]] rest
  | more {s s' rest : Arrivals} {line : List UInt8} {lines : List (List UInt8)}
      (h : get_line LINE_SIZE s = (line, s')) (hne : line ≠ []) (hmore : LinesFrom s' lines rest) :
      LinesFrom s (line :: lines) rest

/-- The text of the lines: a line feed for every CR, and none for the one that is there directly
behind it. -/
def arrivedText : Bool → Arrivals → List UInt8
  | _, [] => []
  | _, none :: s => arrivedText false s
  | behindCr, some c :: s =>
      if c = CR then LF :: arrivedText true s
      else if c = LF ∧ behindCr = true then arrivedText false s
      else c :: arrivedText false s

section Lines

variable {s rest rest' : Arrivals} {lines lines' : List (List UInt8)}

/-- A line that is not empty takes something from what arrives. -/
theorem length_get_line (n : Nat) (s : Arrivals) :
    (get_line_loop n s).2.length ≤ s.length ∧
      ((get_line_loop n s).1 ≠ [] → (get_line_loop n s).2.length < s.length) := by
  induction n generalizing s with
  | zero => exact ⟨Nat.le_refl _, fun h => absurd rfl h⟩
  | succ n ih =>
      match s with
      | [] => exact ⟨Nat.le_refl _, fun h => absurd rfl h⟩
      | none :: s => exact ⟨Nat.le_succ _, fun h => absurd rfl h⟩
      | some c :: s =>
          have hlt : (get_line_loop (n + 1) (some c :: s)).2.length < (some c :: s).length := by
            by_cases hcr : c = CR
            · subst hcr
              rw [get_line_cr]
              match s with
              | [] => simp
              | none :: s => simp
              | some d :: s => by_cases hd : d = LF <;> simp [hd]
            · by_cases hlf : c = LF
              · subst hlf
                exact Nat.lt_succ_self _
              · rw [get_line_other hcr hlf]
                exact Nat.lt_succ_of_le (ih s).1
          exact ⟨hlt.le, fun _ => hlt⟩

/-- A line, and those behind it if it is not empty. -/
theorem linesFrom_cons {line : List UInt8} {s' : Arrivals} (hline : get_line LINE_SIZE s = (line, s'))
    (h : if line.length = 0 then lines = [] ∧ rest = s' else LinesFrom s' lines rest) :
    LinesFrom s (line :: lines) rest := by
  split_ifs at h with hnil
  · obtain ⟨rfl, rfl⟩ := h
    rw [List.length_eq_zero_iff.mp hnil] at hline ⊢
    exact .last hline
  · exact .more hline (fun heq => hnil (by rw [heq]; rfl)) h

theorem headerLoop_run (fuel len : Nat) (s : Arrivals)
    (hfuel : len = 0 ∧ 0 < fuel ∨ s.length + 2 ≤ fuel) :
    ∃ lines rest, headerLoop fuel len s = some (lines, rest) ∧
      if len = 0 then lines = [] ∧ rest = s else LinesFrom s lines rest := by
  induction fuel generalizing len s with
  | zero => omega
  | succ fuel ih =>
      rw [headerLoop]
      by_cases hlen : len = 0
      · exact ⟨[], s, if_pos hlen, by rw [if_pos hlen]; exact ⟨rfl, rfl⟩⟩
      · -- an empty line takes nothing, and is the last one
        have hless := hfuel.resolve_left fun hzero => hlen hzero.1
        cases hline : get_line LINE_SIZE s with
        | mk line s' =>
            obtain ⟨hle, hlt⟩ := length_get_line (LINE_SIZE - 1) s
            rw [← get_line, hline] at hle hlt
            have hnext : line.length = 0 ∧ 0 < fuel ∨ s'.length + 2 ≤ fuel := by
              rcases eq_or_ne line [] with hnil | hne
              · exact Or.inl ⟨List.length_eq_zero_iff.mpr hnil, by omega⟩
              · have hshorter : s'.length < s.length := hlt hne
                exact Or.inr (by omega)
            obtain ⟨lines, rest, hrun, hlines⟩ := ih line.length s' hnext
            refine ⟨line :: lines, rest, ?_, ?_⟩
            · dsimp only
              rw [if_neg hlen, hrun]
              rfl
            · rw [if_neg hlen]
              exact linesFrom_cons hline hlines

/-- `do_read` ends, and obtains these lines. -/
theorem do_read_run (s : Arrivals) :
    ∃ lines rest, do_read s = some (lines, rest) ∧ LinesFrom s lines rest := by
  cases hline : get_line LINE_SIZE s with
  | mk line s' =>
      obtain ⟨lines, rest, hrun, hlines⟩ := headerLoop_run (s'.length + 2) line.length s'
        (Or.inr (Nat.le_refl _))
      refine ⟨line :: lines, rest, ?_, ?_⟩
      · rw [do_read, hline]
        dsimp only
        rw [hrun]
        rfl
      · exact linesFrom_cons hline hlines

/-- A line and what is behind it make up the text. -/
theorem get_line_text (n : Nat) (s : Arrivals) :
    (get_line_loop n s).1 ++ arrivedText false (get_line_loop n s).2 = arrivedText false s := by
  induction n generalizing s with
  | zero => rfl
  | succ n ih =>
      match s with
      | [] => rfl
      | none :: s => rfl
      | some c :: s =>
          by_cases hcr : c = CR
          · subst hcr
            rw [get_line_cr]
            match s with
            | [] => rfl
            | none :: s => rfl
            | some d :: s =>
                by_cases hd : d = LF
                · have hne : LF ≠ CR := by decide
                  simp [arrivedText, hd, hne]
                · simp [arrivedText, hd]
          · by_cases hlf : c = LF
            · subst hlf
              rfl
            · rw [get_line_other hcr hlf]
              simp [arrivedText, hcr, hlf, ih s]

theorem LinesFrom.text (h : LinesFrom s lines rest) :
    lines.flatten ++ arrivedText false rest = arrivedText false s := by
  induction h with
  | @last s rest h =>
      have htext := get_line_text (LINE_SIZE - 1) s
      rw [← get_line, h] at htext
      exact htext
  | @more s s' rest line lines h hne hmore ih =>
      have htext := get_line_text (LINE_SIZE - 1) s
      rw [← get_line, h] at htext
      rw [List.flatten_cons, List.append_assoc, ih]
      exact htext

theorem arrivedText_of_bytes (behindCr : Bool) (h : s.bytes = []) : arrivedText behindCr s = [] := by
  induction s generalizing behindCr with
  | nil => rfl
  | cons d s ih =>
      cases d with
      | none => exact ih false h
      | some c => cases h

/-- Without pauses the text is not longer. -/
theorem length_unixText_le (s : Arrivals) {behindCr behindCr' : Bool}
    (h : behindCr' = true → behindCr = true) :
    (unixTextFrom behindCr s.bytes).length ≤ (arrivedText behindCr' s).length := by
  induction s generalizing behindCr behindCr' with
  | nil => exact Nat.le_refl _
  | cons d s ih =>
      cases d with
      | none => exact ih nofun
      | some c =>
          rw [bytes_some, unixTextFrom, arrivedText]
          by_cases hcr : c = CR
          · rw [if_pos hcr, if_pos hcr]
            exact Nat.succ_le_succ (ih id)
          · rw [if_neg hcr, if_neg hcr]
            by_cases hskip : c = LF ∧ behindCr' = true
            · rw [if_pos hskip, if_pos ⟨hskip.1, h hskip.2⟩]
              exact ih id
            · rw [if_neg hskip]
              split
              · exact (ih id).trans (Nat.le_succ _)
              · exact Nat.succ_le_succ (ih id)

/-- The lines of the bytes at once make up their text. -/
theorem LinesFrom.unixText {l : List UInt8} (h : LinesFrom (atOnce l) lines rest) :
    lines.flatten = unixText l := by
  generalize hs : atOnce l = s at h
  induction h generalizing l with
  | @last s rest h =>
      rw [← hs, get_line, get_line_atOnce] at h
      have hnil := (lineOf_eq_nil_iff (LINE_SIZE - 2) l).mp (congrArg Prod.fst h)
      rw [hnil]
      rfl
  | @more s s' rest line lines h hne hmore ih =>
      rw [← hs, get_line, get_line_atOnce] at h
      have htext := lineOf_text (LINE_SIZE - 1) l
      rw [List.flatten_cons, ih (congrArg Prod.snd h), ← htext]
      exact congrArg (· ++ _) (congrArg Prod.fst h).symm

/-- The bytes at once are all read. -/
theorem linesFrom_atOnce (l : List UInt8) (h : LinesFrom (atOnce l) lines rest) :
    (lineOf (LINE_SIZE - 1) l).1 = [] ∧ lines = [[]] ∨ ∃ lines',
      (lineOf (LINE_SIZE - 1) l).1 ≠ [] ∧ lines = (lineOf (LINE_SIZE - 1) l).1 :: lines' ∧
        LinesFrom (atOnce (lineOf (LINE_SIZE - 1) l).2) lines' rest := by
  cases h with
  | last h =>
      rw [get_line, get_line_atOnce] at h
      exact Or.inl ⟨congrArg Prod.fst h, rfl⟩
  | @more _ s' _ line lines h hne hmore =>
      rw [get_line, get_line_atOnce] at h
      cases h
      exact Or.inr ⟨lines, hne, rfl, hmore⟩

/-- The lines are the same, and all bytes are read, exactly if the pauses are harmless. -/
theorem lines_same_iff (h : LinesFrom s lines rest) (h' : LinesFrom (atOnce s.bytes) lines' rest') :
    lines = lines' ∧ rest.bytes = [] ↔ PausesHarmless s := by
  induction h generalizing lines' with
  | @last s rest h =>
      have hcompared := get_line_compared (LINE_SIZE - 1) s
      rw [← get_line, h] at hcompared
      cases hcompared with
      | inStep hline hleft hpauses =>
          have hbytes := (lineOf_eq_nil_iff (LINE_SIZE - 2) s.bytes).mp hline
          rw [hbytes] at hleft
          refine iff_of_true ⟨?_, hleft.symm⟩ (harmless_of_bytes hbytes)
          rcases linesFrom_atOnce s.bytes h' with ⟨-, heq⟩ | ⟨lines', hne, -⟩
          · exact heq.symm
          · exact absurd hline hne
      | split hline hne hleft hpauses => exact absurd rfl hne
      | cut hline hpauses =>
          -- `do_read` has ended at a pause
          refine iff_of_false ?_ hpauses
          rintro ⟨rfl, -⟩
          rcases linesFrom_atOnce s.bytes h' with ⟨hnil, -⟩ | ⟨lines', -, heq, -⟩
          · exact hline hnil
          · exact hline (List.cons.inj heq).1.symm
  | @more s s' rest line lines h hne hmore ih =>
      have hcompared := get_line_compared (LINE_SIZE - 1) s
      rw [← get_line, h] at hcompared
      rcases linesFrom_atOnce s.bytes h' with ⟨hnil, rfl⟩ | ⟨lines', hne', rfl, hmore'⟩
      · -- with pauses there is a line where there is none at once
        cases hcompared with
        | inStep hline hleft hpauses => exact absurd (hline.symm.trans hnil) hne
        | split hline hne hleft hpauses => exact absurd (hline.symm.trans hnil) hne
        | cut hline hpauses =>
            refine iff_of_false ?_ hpauses
            rintro ⟨heq, -⟩
            exact hne (List.cons.inj heq).1
      · cases hcompared with
        | inStep hline hleft hpauses =>
            rw [hleft] at hmore'
            rw [hpauses, ← ih hmore', hline, List.cons.injEq, and_iff_right rfl]
        | split hline hne hleft hpauses =>
            refine iff_of_false ?_ hpauses
            rintro ⟨heq, hrest⟩
            -- the text has a line feed more
            have htext := hmore.text
            rw [arrivedText_of_bytes false hrest, List.append_nil, (List.cons.inj heq).2,
              hmore'.unixText] at htext
            have hle : (unixText s'.bytes).length ≤ (arrivedText false s').length :=
              length_unixText_le s' id
            rw [hleft, ← htext] at hle
            exact Nat.not_succ_le_self _ hle
        | cut hline hpauses =>
            refine iff_of_false ?_ hpauses
            rintro ⟨heq, -⟩
            exact hline (List.cons.inj heq).1.symm

/-- `do_read` obtains the lines of the bytes at once, and leaves none of them unread, exactly if each
pause that has bytes behind it comes directly behind a CR and in front of no line feed. -/
theorem readsAtOnce_iff (s : Arrivals) : ReadsAtOnce s ↔ PausesHarmless s := by
  obtain ⟨lines, rest, hrun, hlines⟩ := do_read_run s
  obtain ⟨lines', rest', hrun', hlines'⟩ := do_read_run (atOnce s.bytes)
  rw [← lines_same_iff hlines hlines', ReadsAtOnce, hrun, hrun']
  constructor
  · rintro ⟨_, _, _, heq, hrest, heq'⟩
    cases heq
    cases heq'
    exact ⟨rfl, hrest⟩
  · rintro ⟨rfl, hrest⟩
    exact ⟨lines, rest, rest', rfl, hrest, rfl⟩

theorem not_readsAtOnce
    (h : (do_read s).map Prod.fst ≠ (do_read (atOnce s.bytes)).map Prod.fst) : ¬ ReadsAtOnce s := by
  rintro ⟨lines, rest, rest', hrun, -, honce⟩
  rw [hrun, honce] at h
  exact h rfl

/-- A pause between CR and LF, one in a line, and one behind a line. -/
theorem pauses_change_lines :
    ¬ ReadsAtOnce [some 71, some CR, none, some LF] ∧ ¬ ReadsAtOnce [some 71, none, some LF] ∧
      ¬ ReadsAtOnce [some 71, some LF, none, some 72] :=
  ⟨not_readsAtOnce (by decide), not_readsAtOnce (by decide), not_readsAtOnce (by decide)⟩

end Lines

end CLanguageLearning.Epollhttpd
