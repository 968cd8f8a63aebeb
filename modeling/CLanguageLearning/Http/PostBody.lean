import CLanguageLearning.Foundation.Numerals
import CLanguageLearning.Http.LineEnds
import CLanguageLearning.Http.OneAnswer

/-!
# The body of a POST

`execute_cgi` looks for the header `Content-Length:` in the lines that `get_line` cuts the headers
into, reads the number from a fixed column, and then writes so many bytes to the program. A header
longer than the buffer is cut into several lines, the number is expected behind one blank, and at
the end of the stream the last byte is written again.
-/

set_option autoImplicit false

namespace CLanguageLearning.Tinyhttpd

open CLanguageLearning.Foundation

/-- `strcasecmp(name, "Content-Length:") == 0` -/
def isLengthName (name : List UInt8) : Bool := isMethod "Content-Length:" name

/-- The bytes of a header. -/
def IsText (h : List UInt8) : Prop := ∀ c ∈ h, c ≠ 0 ∧ c ≠ CR ∧ c ≠ LF

/-- Header lines and the blank line behind them. -/
def headerText (lines : List (List UInt8)) : List UInt8 :=
  lines.flatMap (· ++ [CR, LF]) ++ [CR, LF]

/-- The headers of a request that declares the length of its body, once. -/
structure LengthHeaders (before after : List (List UInt8)) (name blanks digits : List UInt8) :
    Prop where
  text : ∀ h ∈ before ++ after, h ≠ [] ∧ IsText h ∧ isLengthName (h.take 15) = false
  name : isLengthName name = true
  blanks : ∀ c ∈ blanks, c = 32 ∨ c = 9
  digits : digits ≠ [] ∧ ∀ c ∈ digits, isdigit c = true

/-- The lines that a header is cut into. -/
def pieces (h : List UInt8) : List (List UInt8) :=
  (List.range (h.length / (BUF_SIZE - 1) + 1)).map fun k =>
    ((h ++ [LF]).drop ((BUF_SIZE - 1) * k)).take (BUF_SIZE - 1)

/-- The number after a line, when it was `n` before. -/
def pieceNumber (n : Int) (piece : List UInt8) : Int :=
  if isLengthName (piece.take 15) then atoi (piece.drop 16) else n

/-- The number behind the name is the one that is taken: no line that a later header is cut into has
the name, and the number can be read, or the last one that has it has the same number. -/
def NumberRead (after : List (List UInt8)) (name blanks digits : List UInt8) : Prop :=
  match ((after.flatMap pieces).filter fun piece => isLengthName (piece.take 15)).getLast? with
  | some piece => atoi (piece.drop 16) = digitsValue digits
  | none => (blanks = [] → digits.head? = some 48) ∧ digitsValue digits ≤ INT_MAX ∧
      ((name ++ blanks ++ digits).length < BUF_SIZE - 1 ∨ digitsValue digits = 0)

/-- The code takes the number `n` from the headers and writes the first `n` bytes of the body to the
program, or all of them if there are fewer. -/
def ForwardsBody (env : Env) (vars : Locals) (path method query_string : List UInt8) (n : Nat)
    (body : List UInt8) (s : Conn) : Prop :=
  (readLength (afterLine vars.execute_cgi_buf.toList [65])).run s =
      .ok ((n : Int), { s with stream := body }) ∧
    ∃ t, (execute_cgi env vars path method query_string).run s = .ok ((), t) ∧
      t.cgiInput = s.cgiInput ++ body.take n

section Names

variable {h name : List UInt8} {n : Nat}

theorem length_of_isLengthName (h : isLengthName name = true) : name.length = 15 := by
  have hlen := congrArg List.length (of_decide_eq_true h)
  rw [List.length_map, List.length_map] at hlen
  exact hlen

theorem isText_of_isLengthName (h : isLengthName name = true) : IsText name := by
  intro c hc
  have hmem : tolower c ∈ (bytes "Content-Length:").map tolower := by
    rw [← of_decide_eq_true h]
    exact List.mem_map_of_mem hc
  refine ⟨?_, ?_, ?_⟩ <;> rintro rfl <;> revert hmem <;> decide

theorem notMem_isText (h : IsText name) {c : UInt8} (hc : c = 0 ∨ c = CR ∨ c = LF) : c ∉ name := by
  intro hmem
  obtain ⟨h0, hcr, hlf⟩ := h c hmem
  rcases hc with rfl | rfl | rfl
  · exact h0 rfl
  · exact hcr rfl
  · exact hlf rfl

theorem isText_append {a b : List UInt8} (ha : IsText a) (hb : IsText b) : IsText (a ++ b) :=
  fun c hc => (List.mem_append.mp hc).elim (ha c) (hb c)

/-- The beginning of the line, as the code compares it. -/
theorem isLengthName_afterLine {line : List UInt8} (hnul : 0 ∉ line) (buf : List UInt8) :
    isLengthName (upToNul ((afterLine buf line).take 15)) = isLengthName (line.take 15) := by
  rcases Nat.lt_or_ge line.length 15 with hlt | hge
  · -- the terminator is among the 15 bytes
    have hsplit : (afterLine buf line).take 15 =
        line ++ 0 :: (buf.drop (line.length + 1)).take (14 - line.length) := by
      rw [afterLine, List.take_append, List.take_of_length_le hlt.le,
        show 15 - line.length = 14 - line.length + 1 by omega, List.take_succ_cons]
    rw [hsplit, upToNul_append_nul, upToNul_eq_self hnul, List.take_of_length_le hlt.le]
  · rw [afterLine, List.take_append_of_le_length hge, upToNul_eq_self]
    exact fun hmem => hnul (List.mem_of_mem_take hmem)

end Names

/-! ## Reading the headers -/

section Headers

variable {h rest buf : List UInt8} {fuel : Nat} {n : Int} {t : Conn}

/-- A header that fits is read with its line feed. -/
theorem lineOf_text_short (hh : IsText h) (rest : List UInt8) {n : Nat} (hn : h.length < n) :
    lineOf n (h ++ CR :: LF :: rest) = (h ++ [LF], rest) := by
  induction h generalizing n with
  | nil =>
      obtain ⟨n, rfl⟩ := Nat.exists_eq_add_one.mpr hn
      simp [lineOf]
  | cons c h ih =>
      obtain ⟨n, rfl⟩ := Nat.exists_eq_add_one.mpr (Nat.zero_lt_of_lt hn)
      obtain ⟨-, hcr, hlf⟩ := hh c List.mem_cons_self
      have hrest := ih (fun d hd => hh d (List.mem_cons_of_mem c hd)) (Nat.lt_of_succ_lt_succ hn)
      simp [lineOf, hcr, hlf, hrest]

/-- Of any other one the buffer is filled. -/
theorem lineOf_text_long (hh : IsText h) (rest : List UInt8) {n : Nat} (hn : n ≤ h.length) :
    lineOf n (h ++ rest) = (h.take n, h.drop n ++ rest) := by
  induction h generalizing n with
  | nil =>
      rw [Nat.le_zero.mp hn]
      rfl
  | cons c h ih =>
      cases n with
      | zero => rfl
      | succ n =>
          obtain ⟨-, hcr, hlf⟩ := hh c List.mem_cons_self
          have hrest := ih (fun d hd => hh d (List.mem_cons_of_mem c hd))
            (Nat.le_of_succ_le_succ hn)
          simp [lineOf, hcr, hlf, hrest]

/-- The loop has turns enough for the stream. -/
def Enough (fuel : Nat) (stream : List UInt8) : Prop :=
  (lineOf (BUF_SIZE - 1) stream).2.length + 2 ≤ fuel

/-- With a turn less there are enough for what is behind a line that has been read. -/
theorem Enough.next {line rest stream : List UInt8} (h : Enough fuel stream)
    (hline : lineOf (BUF_SIZE - 1) stream = (line, rest)) (hrest : rest ≠ []) :
    ∃ fuel', fuel = fuel' + 1 ∧ Enough fuel' rest := by
  obtain ⟨hle, hlt⟩ := length_lineOf_rest (BUF_SIZE - 1) rest
  have hsize : BUF_SIZE - 1 = BUF_SIZE - 2 + 1 := rfl
  have hne : (lineOf (BUF_SIZE - 1) rest).1 ≠ [] := by
    rw [hsize, Ne, lineOf_eq_nil_iff]
    exact hrest
  have hless := hlt hne
  rw [Enough, hline] at h
  refine ⟨fuel - 1, by omega, ?_⟩
  rw [Enough]
  dsimp only at h
  omega

/-- A line that is not blank is compared, and the next one is read. -/
theorem lengthFrom_turn (fuel : Nat) {line : List UInt8} (hsize : buf.length = BUF_SIZE)
    (hline : lineOf (BUF_SIZE - 1) t.stream = (line, rest)) (hnul : 0 ∉ line) (hne : line ≠ [])
    (hblank : line ≠ [LF]) (hlong : isLengthName (line.take 15) = true → 16 ≤ line.length) :
    ∃ buf', buf'.length = BUF_SIZE ∧ ∀ n, (lengthFrom (fuel + 1) buf n).run t =
      (lengthFrom fuel buf' (pieceNumber n line)).run { t with stream := rest } := by
  have hholding := Holding.afterLine hsize t.stream
  rw [hline] at hholding
  have hblank' : upToNul line ≠ [LF] := by rwa [upToNul_eq_self hnul]
  refine ⟨(afterLine buf line).set 15 0, ?_, ?_⟩
  · rw [List.length_set]
    exact hholding.size
  · intro n
    have hstart : (lengthFrom (fuel + 1) buf n).run t =
        (lengthLoop (fuel + 1) (afterLine buf line) line.length n).run
          { t with stream := rest } := by
      rw [lengthFrom_run hsize, hline]
    rw [hstart, lengthLoop_turn hholding hne hblank', pieceNumber,
      ← isLengthName_afterLine hnul buf]
    by_cases hname : isLengthName (upToNul ((afterLine buf line).take 15)) = true
    · have hnumber : cstring ((afterLine buf line).drop 16) = some (line.drop 16) := by
        rw [isLengthName_afterLine hnul] at hname
        rw [afterLine, List.drop_append_of_le_length (hlong hname), cstring_append_zero]
        exact fun hmem => hnul (List.mem_of_mem_drop hmem)
      refine (if_pos hname).trans ?_
      rw [hnumber, if_pos hname]
    · refine (if_neg hname).trans ?_
      rw [if_neg hname]

/-- The part of a header that fills the buffer. -/
theorem lengthFrom_full (hh : IsText h) (hlong : BUF_SIZE - 1 ≤ h.length)
    (hsize : buf.length = BUF_SIZE) (hstream : t.stream = h ++ CR :: LF :: rest)
    (hfuel : Enough fuel t.stream) :
    ∃ fuel' buf', buf'.length = BUF_SIZE ∧
      Enough fuel' (h.drop (BUF_SIZE - 1) ++ CR :: LF :: rest) ∧ ∀ n,
        (lengthFrom fuel buf n).run t =
          (lengthFrom fuel' buf' (pieceNumber n (h.take (BUF_SIZE - 1)))).run
            { t with stream := h.drop (BUF_SIZE - 1) ++ CR :: LF :: rest } := by
  have hline := lineOf_text_long hh (CR :: LF :: rest) hlong
  rw [← hstream] at hline
  have hfirst : IsText (h.take (BUF_SIZE - 1)) := fun c hc => hh c (List.mem_of_mem_take hc)
  have hfull : (h.take (BUF_SIZE - 1)).length = BUF_SIZE - 1 := List.length_take_of_le hlong
  have hne : h.take (BUF_SIZE - 1) ≠ [] := List.ne_nil_of_length_pos (by rw [hfull]; decide)
  have hblank : h.take (BUF_SIZE - 1) ≠ [LF] := by
    intro heq
    rw [heq] at hfull
    cases hfull
  have hroom : 16 ≤ (h.take (BUF_SIZE - 1)).length := by rw [hfull]; decide
  obtain ⟨fuel, rfl, hnext⟩ := hfuel.next hline (by simp)
  obtain ⟨buf', hbuf', hrun⟩ := lengthFrom_turn fuel hsize hline
    (notMem_isText hfirst (Or.inl rfl)) hne hblank fun _ => hroom
  exact ⟨fuel, buf', hbuf', hnext, hrun⟩

/-- The last part of a header, with the line feed. -/
theorem lengthFrom_last (hh : IsText h) (hne : h ≠ []) (hshort : h.length < BUF_SIZE - 1)
    (hsize : buf.length = BUF_SIZE) (hstream : t.stream = h ++ CR :: LF :: rest) (hrest : rest ≠ [])
    (hfuel : Enough fuel t.stream) :
    ∃ fuel' buf', buf'.length = BUF_SIZE ∧ Enough fuel' rest ∧ ∀ n,
      (lengthFrom fuel buf n).run t =
        (lengthFrom fuel' buf' (pieceNumber n (h ++ [LF]))).run { t with stream := rest } := by
  have hline := lineOf_text_short hh rest hshort
  rw [← hstream] at hline
  have hnul : 0 ∉ h ++ [LF] := by
    rw [List.mem_append, not_or]
    exact ⟨notMem_isText hh (Or.inl rfl), by decide⟩
  have hblank : h ++ [LF] ≠ [LF] := by simpa using hne
  have hlong : isLengthName ((h ++ [LF]).take 15) = true → 16 ≤ (h ++ [LF]).length := by
    intro hname
    have hlen := length_of_isLengthName hname
    have hlf := notMem_isText (isText_of_isLengthName hname) (Or.inr (Or.inr rfl))
    by_contra hlt
    rw [List.take_of_length_le (by omega)] at hlf
    exact hlf (by simp)
  obtain ⟨fuel, rfl, hnext⟩ := hfuel.next hline hrest
  obtain ⟨buf', hbuf', hrun⟩ :=
    lengthFrom_turn fuel hsize hline hnul (by simp) hblank hlong
  exact ⟨fuel, buf', hbuf', hnext, hrun⟩

/-- The blank line ends the loop. -/
theorem lengthFrom_blank (hsize : buf.length = BUF_SIZE) (hstream : t.stream = CR :: LF :: rest)
    (hfuel : 0 < fuel) (n : Int) :
    (lengthFrom fuel buf n).run t = .ok (n, { t with stream := rest }) := by
  obtain ⟨fuel, rfl⟩ := Nat.exists_eq_add_one.mpr hfuel
  have hline : lineOf (BUF_SIZE - 1) t.stream = ([LF], rest) := by
    rw [hstream]
    exact lineOf_text_short (h := []) nofun rest (by decide)
  have hholding := Holding.afterLine hsize t.stream
  rw [hline] at hholding
  have hblank : (upToNul [LF] == [LF]) = true := rfl
  rw [lengthFrom_run hsize, hline, lengthLoop]
  dsimp only
  rw [if_pos (by decide), run_bind_of_ok hholding.blankLine_run, if_pos hblank]
  rfl

theorem Enough.pos {stream : List UInt8} (h : Enough fuel stream) : 0 < fuel :=
  Nat.zero_lt_of_lt h

theorem pieces_short (hshort : h.length < BUF_SIZE - 1) : pieces h = [h ++ [LF]] := by
  rw [pieces, Nat.div_eq_of_lt hshort]
  have hall : (h ++ [LF]).length ≤ BUF_SIZE - 1 := by simpa using hshort
  simp [List.range_succ, List.take_of_length_le hall]

theorem pieces_long (hlong : BUF_SIZE - 1 ≤ h.length) :
    pieces h = h.take (BUF_SIZE - 1) :: pieces (h.drop (BUF_SIZE - 1)) := by
  have hpos : 0 < BUF_SIZE - 1 := by decide
  have hdiv : h.length / (BUF_SIZE - 1) = (h.drop (BUF_SIZE - 1)).length / (BUF_SIZE - 1) + 1 := by
    rw [List.length_drop, Nat.div_eq_sub_div hpos hlong]
  rw [pieces, hdiv, List.range_succ_eq_map, List.map_cons, List.map_map, pieces, Nat.mul_zero,
    List.drop_zero, List.take_append_of_le_length hlong]
  refine congrArg (_ :: ·) (List.map_congr_left fun k _ => ?_)
  rw [Function.comp_apply, ← List.drop_append_of_le_length hlong, List.drop_drop, Nat.mul_succ,
    Nat.add_comm]

theorem mem_pieces {piece : List UInt8} (hpiece : piece ∈ pieces h) {c : UInt8} (hc : c ∈ piece) :
    c ∈ h ∨ c = LF := by
  obtain ⟨k, -, rfl⟩ := List.mem_map.mp hpiece
  have hmem := List.mem_of_mem_drop (List.mem_of_mem_take hc)
  exact (List.mem_append.mp hmem).imp_right List.mem_singleton.mp

/-- A header is read in its pieces. When it fills the last of them, the code finds a blank line
behind it. -/
theorem lengthFrom_header (hh : IsText h) (hsize : buf.length = BUF_SIZE)
    (hstream : t.stream = h ++ CR :: LF :: rest) (hrest : rest ≠ [])
    (hfuel : Enough fuel t.stream) :
    (h.length % (BUF_SIZE - 1) ≠ 0 → ∃ fuel' buf', buf'.length = BUF_SIZE ∧ Enough fuel' rest ∧ ∀ n,
      (lengthFrom fuel buf n).run t =
        (lengthFrom fuel' buf' ((pieces h).foldl pieceNumber n)).run { t with stream := rest }) ∧
    (h.length % (BUF_SIZE - 1) = 0 → ∀ n, ∃ m,
      (lengthFrom fuel buf n).run t = .ok (m, { t with stream := rest })) := by
  -- each full buffer leaves a shorter header, and less than one is the last line
  induction hlen : h.length using Nat.strong_induction_on generalizing h buf fuel t with
  | _ len ih =>
      subst hlen
      rcases Nat.lt_or_ge h.length (BUF_SIZE - 1) with hshort | hlong
      · rw [Nat.mod_eq_of_lt hshort, pieces_short hshort]
        constructor
        · intro hne
          exact lengthFrom_last hh (fun hnil => hne (by rw [hnil]; rfl)) hshort hsize hstream hrest
            hfuel
        · intro hnil n
          rw [List.length_eq_zero_iff.mp hnil] at hstream
          exact ⟨n, lengthFrom_blank hsize hstream hfuel.pos n⟩
      · obtain ⟨fuel', buf', hbuf', hfuel', hrun⟩ := lengthFrom_full hh hlong hsize hstream hfuel
        have hdrop : IsText (h.drop (BUF_SIZE - 1)) := fun c hc => hh c (List.mem_of_mem_drop hc)
        have hless : (h.drop (BUF_SIZE - 1)).length < h.length := by
          have hpos : 0 < BUF_SIZE - 1 := by decide
          rw [List.length_drop]
          omega
        obtain ⟨hpass, hstop⟩ := ih _ hless hdrop hbuf'
          (t := { t with stream := h.drop (BUF_SIZE - 1) ++ CR :: LF :: rest }) rfl hfuel' rfl
        rw [Nat.mod_eq_sub_mod hlong, ← List.length_drop, pieces_long hlong]
        constructor
        · intro hne
          obtain ⟨fuel'', buf'', hbuf'', hfuel'', hrun'⟩ := hpass hne
          exact ⟨fuel'', buf'', hbuf'', hfuel'', fun n => (hrun n).trans (hrun' _)⟩
        · intro hzero n
          obtain ⟨m, hm⟩ := hstop hzero (pieceNumber n (h.take (BUF_SIZE - 1)))
          exact ⟨m, (hrun n).trans hm⟩

/-- The headers are read up to the blank line, or to the first one that looks blank. -/
theorem lengthFrom_headers {lines : List (List UInt8)} {body : List UInt8}
    (hlines : ∀ h ∈ lines, IsText h) (hsize : buf.length = BUF_SIZE)
    (hstream : t.stream = headerText lines ++ body) (hfuel : Enough fuel t.stream) (n : Int) :
    ((∀ h ∈ lines, h.length % (BUF_SIZE - 1) ≠ 0) →
      (lengthFrom fuel buf n).run t =
        .ok ((lines.flatMap pieces).foldl pieceNumber n, { t with stream := body })) ∧
    (¬ (∀ h ∈ lines, h.length % (BUF_SIZE - 1) ≠ 0) → ∃ m rest, body.length < rest.length ∧
      (lengthFrom fuel buf n).run t = .ok (m, { t with stream := rest })) := by
  induction lines generalizing buf fuel t n with
  | nil => exact ⟨fun _ => lengthFrom_blank hsize hstream hfuel.pos n, fun hno => absurd nofun hno⟩
  | cons h lines ih =>
      obtain ⟨hh, hmore⟩ := List.forall_mem_cons.mp hlines
      have hstream' : t.stream = h ++ CR :: LF :: (headerText lines ++ body) := by
        rw [hstream]
        simp [headerText]
      have hne : headerText lines ++ body ≠ [] := by simp [headerText]
      obtain ⟨hpass, hstop⟩ := lengthFrom_header hh hsize hstream' hne hfuel
      rw [List.forall_mem_cons, List.flatMap_cons, List.foldl_append]
      by_cases hmod : h.length % (BUF_SIZE - 1) = 0
      · -- the loop stops here, in front of the other headers
        refine ⟨fun hall => absurd hmod hall.1, fun _ => ?_⟩
        obtain ⟨m, hm⟩ := hstop hmod n
        refine ⟨m, headerText lines ++ body, ?_, hm⟩
        simp only [headerText, List.length_append, List.length_cons]
        omega
      · obtain ⟨fuel', buf', hbuf', hfuel', hrun⟩ := hpass hmod
        have hrest := ih hmore hbuf' (t := { t with stream := headerText lines ++ body }) rfl hfuel'
          ((pieces h).foldl pieceNumber n)
        rw [and_iff_right hmod, hrun]
        exact hrest

/-- The loop starts with the first header. -/
theorem readLength_eq (hsize : buf.length = BUF_SIZE) (t : Conn) :
    (readLength buf).run t =
      (lengthFrom ((lineOf (BUF_SIZE - 1) t.stream).2.length + 2) buf (-1)).run t := by
  rw [lengthFrom_run hsize, readLength, run_bind_of_ok (get_line_run (by decide) hsize.ge t)]
  dsimp only
  rw [run_bind_of_ok (run_get _)]

end Headers

/-! ## The number -/

section Number

variable {before after : List (List UInt8)} {name blanks digits : List UInt8}

theorem digitsValue_bmod {n : Nat} (hn : n ≤ INT_MAX) :
    (min (2 ^ 63 - 1) (n : Int)).bmod (2 ^ 32) = n := by
  have hmax : INT_MAX = 2 ^ 31 - 1 := rfl
  rw [min_eq_right (by omega), Int.bmod_eq_of_le (by omega) (by omega)]

/-- A number that is zero has a leading zero. -/
theorem head_of_digitsValue_zero (hne : digits ≠ []) (hdigits : ∀ c ∈ digits, isdigit c = true)
    (hzero : digitsValue digits = 0) : digits.head? = some 48 := by
  cases digits with
  | nil => exact absurd rfl hne
  | cons d digits =>
      have hle : digitsValue digits ≤ digitsValue (d :: digits) := by
        rw [← List.singleton_append, digitsValue_append_list]
        exact Nat.le_add_left _ _
      have hrest : digitsValue digits = digitsValue (d :: digits) :=
        (Nat.le_zero.mp (hzero ▸ hle)).trans hzero.symm
      rw [List.head?_cons, (digitsValue_cons_iff (hdigits d List.mem_cons_self) _).mp hrest]

/-- Behind the byte that is skipped all digits are read, but for the first one if it is that
byte. -/
theorem atoi_behind_name {part tail : List UInt8} (hblanks : ∀ c ∈ blanks, c = 32 ∨ c = 9)
    (hpart : ∀ c ∈ part, isdigit c = true) (htail : tail = [] ∨ tail = [LF]) :
    ∃ front read, part = front ++ read ∧ front = (if blanks = [] then part.take 1 else []) ∧
      atoi ((blanks ++ part).drop 1 ++ tail) =
        (min (2 ^ 63 - 1) (digitsValue read : Int)).bmod (2 ^ 32) := by
  cases blanks with
  | nil =>
      refine ⟨part.take 1, part.drop 1, (List.take_append_drop 1 part).symm, (if_pos rfl).symm, ?_⟩
      have hnil : ∀ c ∈ ([] : List UInt8), isspace c = true := nofun
      have hrest : ∀ c ∈ part.drop 1, isdigit c = true := fun c hc =>
        hpart c (List.mem_of_mem_drop hc)
      have hread := atoi_digits hnil hrest htail
      rwa [List.nil_append] at hread ⊢
  | cons b blanks =>
      have hspaces : ∀ c ∈ blanks, isspace c = true := by
        intro c hc
        rcases hblanks c (List.mem_cons_of_mem b hc) with rfl | rfl <;> rfl
      exact ⟨[], part, rfl, (if_neg (List.cons_ne_nil b blanks)).symm,
        atoi_digits hspaces hpart htail⟩

/-- Of a number that is not cut off the value is read, if a blank or a leading zero has been
skipped. -/
theorem digitsValue_read_iff {front read : List UInt8} (hne : digits ≠ [])
    (hdigits : ∀ c ∈ digits, isdigit c = true) (hall : digits = front ++ read)
    (hfront : front = if blanks = [] then digits.take 1 else []) :
    digitsValue read = digitsValue digits ↔ (blanks = [] → digits.head? = some 48) := by
  cases blanks with
  | cons b blanks =>
      rw [if_neg (List.cons_ne_nil b blanks)] at hfront
      rw [hall, hfront]
      simp
  | nil =>
      cases digits with
      | nil => exact absurd rfl hne
      | cons d digits =>
          have hread : digits = read := by
            rw [hfront, if_pos rfl] at hall
            simpa using hall
          rw [← hread, digitsValue_cons_iff (hdigits d List.mem_cons_self), List.head?_cons,
            Option.some.injEq, forall_prop_of_true rfl]

/-- The code skips one byte behind the name and reads the digits that are in the line. That is the
number if a blank or a leading zero has been skipped, the number is an `int`, and no digit is cut
off, or all of them are zero. -/
theorem number_iff {part cut tail : List UInt8} (hblanks : ∀ c ∈ blanks, c = 32 ∨ c = 9)
    (hne : digits ≠ []) (hdigits : ∀ c ∈ digits, isdigit c = true) (hcut : digits = part ++ cut)
    (htail : tail = [] ∨ tail = [LF]) :
    atoi ((blanks ++ part).drop 1 ++ tail) = (digitsValue digits : Nat) ↔
      (blanks = [] → digits.head? = some 48) ∧ digitsValue digits ≤ INT_MAX ∧
        (cut = [] ∨ digitsValue digits = 0) := by
  by_cases hmax : digitsValue digits ≤ INT_MAX
  · have hpart : ∀ c ∈ part, isdigit c = true := fun c hc =>
      hdigits c (by rw [hcut]; exact List.mem_append_left _ hc)
    obtain ⟨front, read, rfl, hfront, hatoi⟩ := atoi_behind_name hblanks hpart htail
    have hle : digitsValue read ≤ digitsValue digits := by
      rw [hcut]
      exact digitsValue_part_le front read cut
    rw [and_iff_right hmax, hatoi, digitsValue_bmod (hle.trans hmax), Nat.cast_inj]
    by_cases hnil : cut = []
    · rw [hnil, List.append_nil] at hcut
      rw [← hcut] at hfront
      rw [and_iff_left (Or.inl hnil), digitsValue_read_iff hne hdigits hcut hfront]
    · have hzero := head_of_digitsValue_zero hne hdigits
      rw [or_iff_right hnil, hcut, digitsValue_part front read hnil, ← hcut]
      exact ⟨fun h0 => ⟨fun _ => hzero h0, h0⟩, And.right⟩
  · -- what `atoi` gives is an `int`
    refine iff_of_false ?_ fun hboth => hmax hboth.2.1
    intro heq
    have hle := atoi_le ((blanks ++ part).drop 1 ++ tail)
    rw [heq, Int.ofNat_le] at hle
    exact hmax hle

/-- The last line that has the name decides. -/
theorem foldl_pieceNumber (lines : List (List UInt8)) (n : Int) :
    lines.foldl pieceNumber n =
      match (lines.filter fun piece => isLengthName (piece.take 15)).getLast? with
      | some piece => atoi (piece.drop 16)
      | none => n := by
  induction lines using List.reverseRecOn with
  | nil => rfl
  | append_singleton lines piece ih =>
      rw [List.foldl_append, List.foldl_cons, List.foldl_nil, pieceNumber, List.filter_append]
      by_cases hname : isLengthName (piece.take 15) = true
      · simp [hname]
      · simp [hname, ih]

/-- Blanks and digits are no name. -/
theorem isLengthName_numeral {l : List UInt8}
    (hl : ∀ c ∈ l, c = 32 ∨ c = 9 ∨ isdigit c = true ∨ c = LF) : isLengthName l = false := by
  refine Bool.eq_false_of_not_eq_true fun hname => ?_
  have hmem : tolower 58 ∈ l.map tolower := by
    rw [show l.map tolower = (bytes "Content-Length:").map tolower from of_decide_eq_true hname]
    decide
  obtain ⟨c, hc, hcolon⟩ := List.mem_map.mp hmem
  rcases hl c hc with rfl | rfl | hdigit | rfl
  · cases hcolon
  · cases hcolon
  · -- a digit is no letter, and not the colon
    obtain ⟨hlow, hhigh⟩ := of_decide_eq_true hdigit
    have hcolon' : tolower c = 58 := hcolon
    have hletter : ¬ (65 ≤ c ∧ c ≤ 90) := fun hle =>
      absurd (UInt8.le_trans hle.1 hhigh) (by decide)
    rw [tolower, if_neg hletter] at hcolon'
    subst hcolon'
    exact absurd hhigh (by decide)
  · cases hcolon

/-- What the code takes for the name of a line, and what for the number. -/
theorem LengthHeaders.columns (h : LengthHeaders before after name blanks digits) (l : List UInt8) :
    (name ++ l).take 15 = name ∧ (name ++ l).drop 16 = l.drop 1 := by
  have hlen := length_of_isLengthName h.name
  exact ⟨by rw [← hlen, List.take_left], by simp [List.drop_append, hlen]⟩

/-- The first piece of a line that fills the buffer. -/
theorem LengthHeaders.take_line (h : LengthHeaders before after name blanks digits) :
    (name ++ blanks ++ digits).take (BUF_SIZE - 1) =
      name ++ (blanks.take 1008 ++ digits.take (1008 - blanks.length)) := by
  have hlen := length_of_isLengthName h.name
  rw [List.append_assoc, List.take_append, List.take_of_length_le (by rw [hlen]; decide), hlen,
    ← List.take_append]
  rfl

/-- A digit is cut off, or the line would look like two. -/
theorem LengthHeaders.digits_cut (h : LengthHeaders before after name blanks digits)
    (hmod : (name ++ blanks ++ digits).length % (BUF_SIZE - 1) ≠ 0)
    (hlong : BUF_SIZE - 1 ≤ (name ++ blanks ++ digits).length) :
    digits.drop (1008 - blanks.length) ≠ [] := by
  have hlen := length_of_isLengthName h.name
  have hfull : (name ++ blanks ++ digits).length ≠ BUF_SIZE - 1 := fun heq =>
    hmod (by rw [heq, Nat.mod_self])
  have hpos := List.length_pos_iff.mpr h.digits.1
  have hsize : BUF_SIZE - 1 = 1023 := rfl
  rw [hsize] at hfull hlong
  rw [List.length_append, List.length_append] at hfull hlong
  rw [Ne, List.drop_eq_nil_iff]
  omega

/-- No piece behind the first one has the name. -/
theorem LengthHeaders.no_name_behind (h : LengthHeaders before after name blanks digits) :
    (pieces ((name ++ blanks ++ digits).drop (BUF_SIZE - 1))).filter
      (fun piece => isLengthName (piece.take 15)) = [] := by
  have hlen := length_of_isLengthName h.name
  have hbehind : (name ++ blanks ++ digits).drop (BUF_SIZE - 1) = (blanks ++ digits).drop 1008 := by
    rw [List.append_assoc, List.drop_append, List.drop_of_length_le (by rw [hlen]; decide), hlen]
    rfl
  rw [List.filter_eq_nil_iff, hbehind]
  intro piece hpiece
  rw [isLengthName_numeral]
  · exact Bool.false_ne_true
  · intro c hc
    rcases mem_pieces hpiece (List.mem_of_mem_take hc) with hmem | rfl
    · rcases List.mem_append.mp (List.mem_of_mem_drop hmem) with hblank | hdigit
      · rcases h.blanks c hblank with rfl | rfl <;> simp
      · exact Or.inr (Or.inr (Or.inl (h.digits.2 c hdigit)))
    · simp

/-- The line that declares the length is the only one of its pieces with the name. -/
theorem LengthHeaders.number_iff (h : LengthHeaders before after name blanks digits)
    (hmod : (name ++ blanks ++ digits).length % (BUF_SIZE - 1) ≠ 0) (n : Int) :
    (pieces (name ++ blanks ++ digits)).foldl pieceNumber n = (digitsValue digits : Nat) ↔
      (blanks = [] → digits.head? = some 48) ∧ digitsValue digits ≤ INT_MAX ∧
        ((name ++ blanks ++ digits).length < BUF_SIZE - 1 ∨ digitsValue digits = 0) := by
  rcases Nat.lt_or_ge (name ++ blanks ++ digits).length (BUF_SIZE - 1) with hshort | hlong
  · -- one piece, which ends in the line feed
    have hdrop : (blanks ++ digits ++ [LF]).drop 1 = (blanks ++ digits).drop 1 ++ [LF] := by
      refine List.drop_append_of_le_length ?_
      have := List.length_pos_iff.mpr h.digits.1
      rw [List.length_append]
      omega
    have hnone : digits = digits ++ [] := (List.append_nil digits).symm
    obtain ⟨htake, hbehind⟩ := h.columns (blanks ++ digits ++ [LF])
    have hwhole : (name ++ blanks ++ digits).length < BUF_SIZE - 1 ∨ digitsValue digits = 0 ↔
        True := iff_true_intro (Or.inl hshort)
    rw [hwhole, pieces_short hshort, List.foldl_cons, List.foldl_nil, pieceNumber,
      List.append_assoc name, List.append_assoc name, htake, if_pos h.name, hbehind, hdrop,
      Tinyhttpd.number_iff h.blanks h.digits.1 h.digits.2 hnone (Or.inr rfl)]
    simp
  · -- the first piece has the name and a part of the number
    obtain ⟨htake, hbehind⟩ := h.columns (blanks.take 1008 ++ digits.take (1008 - blanks.length))
    have hcut := h.digits_cut hmod hlong
    have hnil : blanks.take 1008 = [] ↔ blanks = [] := by simp
    rw [pieces_long hlong, List.foldl_cons, foldl_pieceNumber, h.no_name_behind, pieceNumber,
      h.take_line, htake, if_pos h.name, hbehind, ← List.append_nil (List.drop 1 _)]
    dsimp only [List.getLast?_nil]
    rw [Tinyhttpd.number_iff (fun c hc => h.blanks c (List.mem_of_mem_take hc)) h.digits.1
        h.digits.2 (List.take_append_drop _ digits).symm (Or.inl rfl), hnil, or_iff_right hcut,
      or_iff_right hlong.not_gt]

theorem LengthHeaders.isText (h : LengthHeaders before after name blanks digits) :
    IsText (name ++ blanks ++ digits) := by
  refine isText_append (isText_append (isText_of_isLengthName h.name) ?_) ?_
  · intro c hc
    rcases h.blanks c hc with rfl | rfl <;> decide
  · intro c hc
    have hdigit := h.digits.2 c hc
    refine ⟨?_, ?_, ?_⟩ <;> rintro rfl <;> revert hdigit <;> decide

/-- What is left of the numbers after all headers. -/
theorem LengthHeaders.foldl_iff (h : LengthHeaders before after name blanks digits)
    (hmod : (name ++ blanks ++ digits).length % (BUF_SIZE - 1) ≠ 0) (n : Int) :
    ((before ++ (name ++ blanks ++ digits) :: after).flatMap pieces).foldl pieceNumber n =
      (digitsValue digits : Nat) ↔ NumberRead after name blanks digits := by
  rw [List.flatMap_append, List.flatMap_cons, List.foldl_append, List.foldl_append, NumberRead,
    foldl_pieceNumber (after.flatMap pieces)]
  cases ((after.flatMap pieces).filter fun piece => isLengthName (piece.take 15)).getLast? with
  | some piece => exact Iff.rfl
  | none => exact h.number_iff hmod _

end Number

/-! ## The body -/

section Body

variable {env : Env} {vars : Locals} {path method query_string body : List UInt8} {n : Nat}
  {s : Conn} {before after : List (List UInt8)} {name blanks digits : List UInt8}

theorem isMethod_get_of_post (h : isMethod "POST" method = true) :
    isMethod "GET" method = false := by
  refine Bool.eq_false_of_not_eq_true fun hget => ?_
  have hpost : method.map tolower = (bytes "POST").map tolower := of_decide_eq_true h
  have hget' : method.map tolower = (bytes "GET").map tolower := of_decide_eq_true hget
  rw [hpost] at hget'
  revert hget'
  decide

theorem output_run (output : List UInt8) (s : Conn) :
    (output.forM fun c => send (.content [c])).run s =
      .ok ((), { s with sent := s.sent ++ output.map fun c => .content [c] }) := by
  induction output generalizing s with
  | nil => simp
  | cons c output ih =>
      have hturn : ((c :: output).forM fun c => send (.content [c])).run s =
          (output.forM fun c => send (.content [c])).run
            { s with sent := s.sent ++ [.content [c]] } := rfl
      rw [hturn, ih]
      simp

/-- A program that can be started gets the bytes of the body. -/
theorem execute_cgi_post (hpost : isMethod "POST" method = true) (hstarts : env.starts = true)
    (hread : (readLength (afterLine vars.execute_cgi_buf.toList [65])).run s =
      .ok ((n : Int), { s with stream := body })) (path query_string : List UInt8) :
    ∃ t junk, (execute_cgi env vars path method query_string).run s = .ok ((), t) ∧
      t.cgiInput = s.cgiInput ++ (body.take n ++ junk) ∧ junk.length = n - body.length := by
  have hget : ¬ isMethod "GET" method = true := by simp [isMethod_get_of_post hpost]
  have hdeclared : ¬ (n : Int) = -1 := by omega
  rw [Env.starts, Bool.and_eq_true, Bool.and_eq_true] at hstarts
  obtain ⟨⟨houtput, hinput⟩, hfork⟩ := hstarts
  rw [execute_cgi, run_bind_of_ok (startBuf_run vars.execute_cgi_buf s), if_neg hget,
    run_bind_of_ok hread, if_neg hdeclared, runProgram, run_bind_of_ok (sendTexts_run _ _), houtput,
    hinput, hfork, hpost]
  obtain ⟨junk, hlen, hrun⟩ := forwardBody_run n vars.execute_cgi_c { s with
    stream := body, sent := s.sent ++ ["HTTP/1.0 200 OK\r\n"].map fun text => .text (bytes text) }
  refine ⟨_, junk, (run_bind_of_ok hrun _).trans (output_run _ _), rfl, hlen⟩

/-- The number is taken from the headers exactly if none of them looks like the blank line to the
code, and it can be read. -/
theorem readLength_iff (h : LengthHeaders before after name blanks digits)
    (vars : Locals)
    (hstream : s.stream = headerText (before ++ (name ++ blanks ++ digits) :: after) ++ body) :
    (readLength (afterLine vars.execute_cgi_buf.toList [65])).run s =
        .ok ((digitsValue digits : Int), { s with stream := body }) ↔
      (∀ line ∈ before ++ (name ++ blanks ++ digits) :: after, line.length % (BUF_SIZE - 1) ≠ 0) ∧
        NumberRead after name blanks digits := by
  have hsize := (holding_start vars.execute_cgi_buf).size
  have htext : ∀ line ∈ before ++ (name ++ blanks ++ digits) :: after, IsText line := by
    intro line hline
    rcases List.mem_append.mp hline with hbefore | hafter
    · exact (h.text line (List.mem_append_left _ hbefore)).2.1
    · rcases List.mem_cons.mp hafter with rfl | hafter
      · exact h.isText
      · exact (h.text line (List.mem_append_right _ hafter)).2.1
  obtain ⟨hpass, hstop⟩ := lengthFrom_headers htext hsize hstream (Nat.le_refl _) (-1)
  rw [readLength_eq hsize]
  by_cases hall : ∀ line ∈ before ++ (name ++ blanks ++ digits) :: after,
      line.length % (BUF_SIZE - 1) ≠ 0
  · rw [hpass hall, and_iff_right hall, ← h.foldl_iff (hall _ (by simp)) (-1)]
    simp
  · -- a part of the headers is still unread
    refine iff_of_false ?_ fun hboth => hall hboth.1
    obtain ⟨m, rest, hless, hm⟩ := hstop hall
    rw [hm]
    intro heq
    cases heq
    exact Nat.lt_irrefl _ hless

/-- Once the number is known, the program gets the body if that many bytes arrive, and bytes that
are not the client's otherwise. -/
theorem forwardsBody_iff (hpost : isMethod "POST" method = true) (hstarts : env.starts = true) :
    ForwardsBody env vars path method query_string n body s ↔
      (readLength (afterLine vars.execute_cgi_buf.toList [65])).run s =
        .ok ((n : Int), { s with stream := body }) ∧ n ≤ body.length := by
  refine and_congr_right fun hread => ?_
  obtain ⟨t, junk, hrun, hinput, hjunk⟩ := execute_cgi_post hpost hstarts hread path query_string
  rw [hrun, ← Nat.sub_eq_zero_iff_le, ← hjunk, List.length_eq_zero_iff]
  constructor
  · rintro ⟨t', hrun', hinput'⟩
    cases hrun'
    rwa [hinput, ← List.append_assoc, List.append_right_eq_self] at hinput'
  · rintro rfl
    exact ⟨t, rfl, by rw [hinput, List.append_nil]⟩

/-- The body is forwarded exactly if no header looks like the blank line to the code, the number is
read, and so many bytes arrive. -/
theorem body_forwarded_iff (h : LengthHeaders before after name blanks digits)
    (hpost : isMethod "POST" method = true) (hstarts : env.starts = true)
    (hstream : s.stream = headerText (before ++ (name ++ blanks ++ digits) :: after) ++ body) :
    ForwardsBody env vars path method query_string (digitsValue digits) body s ↔
      (∀ line ∈ before ++ (name ++ blanks ++ digits) :: after, line.length % (BUF_SIZE - 1) ≠ 0) ∧
        NumberRead after name blanks digits ∧ digitsValue digits ≤ body.length := by
  rw [forwardsBody_iff hpost hstarts, readLength_iff h vars hstream, and_assoc]

section Cases

/-- A request that declares the length 2 and nothing else. -/
def shortHeaders (blanks : List UInt8) : List UInt8 :=
  headerText ([] ++ (bytes "Content-Length:" ++ blanks ++ [50]) :: [])

theorem lengthHeaders_two {blanks : List UInt8} (h : ∀ c ∈ blanks, c = 32 ∨ c = 9) :
    LengthHeaders [] [] (bytes "Content-Length:") blanks [50] :=
  ⟨nofun, by decide, h, List.cons_ne_nil _ _, by simp [isdigit]⟩

def startsAll : Env where
  stat _ := none
  fopen _ := none
  pipeOutput := true
  pipeInput := true
  fork := true
  cgi _ _ _ := []

/-- Two bytes are forwarded behind a blank. -/
theorem body_forwarded_iff_two :
    ForwardsBody startsAll .zeroed [] (bytes "POST") [] 2 [97, 98]
      ⟨shortHeaders [32] ++ [97, 98], [], [], false⟩ :=
  (body_forwarded_iff (lengthHeaders_two (by simp)) (by decide) rfl rfl).mpr (by
    refine ⟨by decide, ?_, by decide⟩
    exact ⟨by decide, by decide, Or.inl (by decide)⟩)

/-- Without a blank the number is not read, and of a body that ends early the last byte is written
again. -/
theorem body_not_forwarded :
    LengthHeaders [] [] (bytes "Content-Length:") [] [50] ∧
    LengthHeaders [] [] (bytes "Content-Length:") [32] [50] ∧
    ¬ ForwardsBody startsAll .zeroed [] (bytes "POST") [] 2 [97, 98]
      ⟨shortHeaders [] ++ [97, 98], [], [], false⟩ ∧
    ¬ ForwardsBody startsAll .zeroed [] (bytes "POST") [] 2 [97]
      ⟨shortHeaders [32] ++ [97], [], [], false⟩ := by
  refine ⟨lengthHeaders_two nofun, lengthHeaders_two (by simp), ?_, ?_⟩
  · rw [forwardsBody_iff (by decide) rfl]
    rintro ⟨hread, -⟩
    have hnumber := (readLength_iff (lengthHeaders_two (by simp)) .zeroed rfl).mp hread
    exact absurd (hnumber.2.1 rfl) (by decide)
  · rw [forwardsBody_iff (by decide) rfl]
    rintro ⟨-, hle⟩
    exact absurd hle (by decide)

end Cases

end Body

end CLanguageLearning.Tinyhttpd
