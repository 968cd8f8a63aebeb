import CLanguageLearning.Http.Tinyhttpd

/-!
# What the small server reads

`get_line` takes the next line of the stream (`lineOf`) and leaves it in the array with a terminator
(`afterLine`). The loops over the headers come to an end with the stream, and the words of the first
line are copied if some byte of the array stops the scan.
-/

set_option autoImplicit false

namespace CLanguageLearning.Tinyhttpd

open CLanguageLearning.Foundation

/-! ## One line -/

/-- The line of at most `n` bytes at the start of the stream, its end as a single line feed, and
what is behind it. -/
def lineOf : Nat → List UInt8 → List UInt8 × List UInt8
  | 0, s => ([], s)
  | _ + 1, [] => ([], [])
  | n + 1, c :: s =>
      if c = CR then ([LF], if s.head? = some LF then s.tail else s)
      else if c = LF then ([LF], s)
      else (c :: (lineOf n s).1, (lineOf n s).2)

/-- The array after `get_line`. -/
def afterLine (buf line : List UInt8) : List UInt8 := line ++ 0 :: buf.drop (line.length + 1)

section Line

variable {buf pre junk s : List UInt8} {n i size : Nat} {t : Conn} {c d : UInt8}

theorem length_lineOf_le (n : Nat) (s : List UInt8) : (lineOf n s).1.length ≤ n := by
  induction n generalizing s with
  | zero => simp [lineOf]
  | succ n ih =>
      cases s with
      | nil => simp [lineOf]
      | cons c s =>
          rw [lineOf]
          split
          · simp
          · split
            · simp
            · simpa using ih s

/-- A line that is not empty takes something from the stream. -/
theorem length_lineOf_rest (n : Nat) (s : List UInt8) :
    (lineOf n s).2.length ≤ s.length ∧
      ((lineOf n s).1 ≠ [] → (lineOf n s).2.length < s.length) := by
  induction n generalizing s with
  | zero => simp [lineOf]
  | succ n ih =>
      cases s with
      | nil => simp [lineOf]
      | cons c s =>
          have hrest := (ih s).1
          rw [lineOf]
          split
          · have htail : (if s.head? = some LF then s.tail else s).length ≤ s.length := by
              split
              · simp
              · exact Nat.le_refl _
            simp only [List.length_cons]
            omega
          · split
            · simp
            · simp only [List.length_cons]
              omega

/-- A line that is not empty leaves a turn less for a loop over the lines. -/
theorem turns_lineOf {fuel : Nat} (n : Nat) (h : s.length + 2 ≤ fuel + 1) :
    (lineOf n s).1 = [] ∧ 0 < fuel ∨ (lineOf n s).2.length + 2 ≤ fuel := by
  obtain ⟨hle, hlt⟩ := length_lineOf_rest n s
  rcases eq_or_ne (lineOf n s).1 [] with hnil | hne
  · exact Or.inl ⟨hnil, by omega⟩
  · have := hlt hne
    exact Or.inr (by omega)

theorem store_run (hi : pre.length = i) (c d : UInt8) (junk : List UInt8) :
    (store (pre ++ c :: junk) i d).run t = .ok (pre ++ d :: junk, t) := by
  subst hi
  simp [store]

/-- The loop writes the line behind what is there. -/
theorem get_line_loop_run (n : Nat) :
    ∀ {pre junk : List UInt8} {i : Nat} {t : Conn}, pre.length = i → n ≤ junk.length →
      (get_line_loop n (pre ++ junk) i).run t =
        .ok ((pre ++ ((lineOf n t.stream).1 ++ junk.drop (lineOf n t.stream).1.length),
          i + (lineOf n t.stream).1.length), { t with stream := (lineOf n t.stream).2 }) := by
  induction n with
  | zero =>
      intro pre junk i t _ _
      simp [get_line_loop, lineOf]
  | succ n ih =>
      rintro pre junk i ⟨stream, sent, cgiInput, closed⟩ hi hn
      obtain ⟨x, junk, rfl⟩ := List.exists_cons_of_length_pos (Nat.zero_lt_of_lt hn)
      cases stream with
      | nil => simp [get_line_loop, recv, lineOf]
      | cons c stream =>
          have hst := fun (d : UInt8) (t : Conn) => store_run (t := t) hi x d junk
          -- the three kinds of line end, then a byte inside the line
          by_cases hCR : c = CR
          · by_cases hpeek : stream.head? = some LF
            · obtain ⟨rest, rfl⟩ : ∃ rest, stream = LF :: rest := by
                cases stream with
                | nil => cases hpeek
                | cons d rest => exact ⟨rest, by rw [Option.some.inj hpeek]⟩
              simp [get_line_loop, recv, peek, lineOf, hCR, hst]
            · simp [get_line_loop, recv, peek, lineOf, hCR, hpeek, hst]
          · by_cases hLF : c = LF
            · have hne : LF ≠ CR := by decide
              simp [get_line_loop, recv, lineOf, hLF, hne, hst]
            · have hpre : (pre ++ [c]).length = i + 1 := by simp [hi]
              have hrest := ih (t := ⟨stream, sent, cgiInput, closed⟩) hpre
                (Nat.le_of_succ_le_succ hn)
              simp only [List.append_assoc, List.singleton_append] at hrest
              simp [get_line_loop, recv, lineOf, hCR, hLF, hst, hrest, Nat.add_assoc,
                Nat.add_comm 1]

theorem get_line_run (hsize : 0 < size) (hbuf : size ≤ buf.length) (t : Conn) :
    (get_line buf size).run t = .ok ((afterLine buf (lineOf (size - 1) t.stream).1,
      (lineOf (size - 1) t.stream).1.length),
      { t with stream := (lineOf (size - 1) t.stream).2 }) := by
  have hle := length_lineOf_le (size - 1) t.stream
  have hroom : size - 1 ≤ buf.length := by omega
  have hnil : ([] : List UInt8).length = 0 := rfl
  have hloop := get_line_loop_run (size - 1) (t := t) hnil hroom
  simp only [List.nil_append, Nat.zero_add] at hloop
  generalize (lineOf (size - 1) t.stream).1 = line at *
  rw [get_line, run_bind_of_ok hloop]
  have hlt : line.length < buf.length := by omega
  rw [List.drop_eq_getElem_cons hlt]
  exact run_bind_of_ok (store_run rfl _ 0 _) _

theorem length_afterLine {line : List UInt8} (h : line.length < buf.length) :
    (afterLine buf line).length = buf.length := by
  rw [afterLine, List.length_append, List.length_cons, List.length_drop]
  omega

theorem cstring_afterLine (buf line : List UInt8) :
    cstring (afterLine buf line) = some (upToNul line) :=
  cstring_append_nul line _

end Line

/-! ## Headers -/

/-- An array with a string in it. -/
structure Holding (buf s : List UInt8) : Prop where
  size : buf.length = BUF_SIZE
  text : cstring buf = some s

section Headers

variable {buf s : List UInt8} {t : Conn}

theorem Holding.afterLine (h : buf.length = BUF_SIZE) (stream : List UInt8) :
    Holding (afterLine buf (lineOf (BUF_SIZE - 1) stream).1)
      (upToNul (lineOf (BUF_SIZE - 1) stream).1) := by
  have hlt : (lineOf (BUF_SIZE - 1) stream).1.length < buf.length := by
    rw [h]
    exact Nat.lt_of_le_of_lt (length_lineOf_le _ stream) (by decide)
  exact ⟨(length_afterLine hlt).trans h, cstring_afterLine ..⟩

theorem stringAt_run (h : cstring buf = some s) (t : Conn) :
    (stringAt buf 0).run t = .ok (s, t) := by
  rw [stringAt, List.drop_zero, h]
  rfl

theorem Holding.blankLine_run (h : Holding buf s) :
    (blankLine buf).run t = .ok (s == [LF], t) :=
  run_bind_of_ok (stringAt_run h.text t) _

theorem startBuf_run (buf : Vector UInt8 BUF_SIZE) (t : Conn) :
    (startBuf buf).run t = .ok (Tinyhttpd.afterLine buf.toList [65], t) := by
  have hlen : buf.toList.length = BUF_SIZE := buf.length_toList
  rw [startBuf]
  generalize buf.toList = l at *
  match l, hlen with
  | a :: b :: rest, _ => simp [store, Tinyhttpd.afterLine]

theorem holding_start (buf : Vector UInt8 BUF_SIZE) :
    Holding (Tinyhttpd.afterLine buf.toList [65]) [65] where
  size := (length_afterLine (by rw [buf.length_toList]; decide)).trans buf.length_toList
  text := cstring_afterLine ..

/-- The rest of the headers is read, up to a blank line or the end of the stream. -/
theorem discardLoop_run (fuel : Nat) :
    ∀ {buf s : List UInt8} {numchars : Nat} {t : Conn}, Holding buf s →
      (numchars = 0 ∧ 0 < fuel ∨ t.stream.length + 2 ≤ fuel) →
      ∃ rest, (discardLoop fuel buf numchars).run t = .ok ((), { t with stream := rest }) := by
  induction fuel with
  | zero =>
      intro buf s numchars t _ hfuel
      omega
  | succ fuel ih =>
      intro buf s numchars t h hfuel
      rw [discardLoop]
      by_cases hpos : 0 < numchars
      · rw [if_pos hpos, run_bind_of_ok h.blankLine_run]
        by_cases hblank : (s == [LF]) = true
        · exact ⟨t.stream, by rw [if_pos hblank]; rfl⟩
        · have hline := get_line_run (by decide) h.size.ge t
          -- an empty line is the last one
          have hnext := turns_lineOf (BUF_SIZE - 1) (hfuel.resolve_left fun hzero => by omega)
          rw [← List.length_eq_zero_iff] at hnext
          obtain ⟨rest, hrest⟩ := ih (Holding.afterLine h.size t.stream) hnext
            (t := { t with stream := (lineOf (BUF_SIZE - 1) t.stream).2 })
          refine ⟨rest, ?_⟩
          rw [if_neg hblank]
          exact (run_bind_of_ok hline _).trans hrest
      · exact ⟨t.stream, by rw [if_neg hpos]; rfl⟩

theorem discardHeaders_run (h : Holding buf s) (numchars : Nat) (t : Conn) :
    ∃ rest, (discardHeaders buf numchars).run t = .ok ((), { t with stream := rest }) :=
  discardLoop_run (t.stream.length + 2) h (Or.inr (Nat.le_refl _))

/-- The number behind the last `Content-Length:` of the headers in a stream that follow the array's
line, `content_length` if there is none: `none` where no string stands behind the colon. -/
def lengthIn : Nat → List UInt8 → List UInt8 → List UInt8 → Int → Option Int
  | 0, _, _, _, content_length => some content_length
  | fuel + 1, buf, line, stream, content_length =>
      if line = [] ∨ upToNul line = [LF] then some content_length
      else
        let next := lineOf (BUF_SIZE - 1) stream
        if isMethod "Content-Length:" (upToNul (buf.take 15)) then
          (cstring (buf.drop 16)).bind fun number =>
            lengthIn fuel (afterLine (buf.set 15 0) next.1) next.1 next.2 (atoi number)
        else lengthIn fuel (afterLine (buf.set 15 0) next.1) next.1 next.2 content_length

/-- The number that the headers at the start of a stream declare. -/
def declaredLength (buf stream : List UInt8) : Option Int :=
  let first := lineOf (BUF_SIZE - 1) stream
  lengthIn (first.2.length + 2) (afterLine buf first.1) first.1 first.2 (-1)

/-- A run that reads from the stream and returns a number, or has no meaning. -/
def Reads (r : Except Halt (Int × Conn)) (t : Conn) : Option Int → Prop
  | none => r = .error .undefined
  | some n => ∃ rest, r = .ok (n, { t with stream := rest })

theorem Reads.later {r : Except Halt (Int × Conn)} {stream : List UInt8} {o : Option Int}
    (h : Reads r { t with stream } o) : Reads r t o := by
  cases o with
  | none => exact h
  | some n => exact h

/-- The loop over the headers, from where the next line is read. -/
def lengthFrom (fuel : Nat) (buf : List UInt8) (content_length : Int) : Exec Conn Int := do
  let (buf, numchars) ← get_line buf BUF_SIZE
  lengthLoop fuel buf numchars content_length

theorem lengthFrom_run (hsize : buf.length = BUF_SIZE) (fuel : Nat) (n : Int) (t : Conn) :
    (lengthFrom fuel buf n).run t =
      (lengthLoop fuel (afterLine buf (lineOf (BUF_SIZE - 1) t.stream).1)
        (lineOf (BUF_SIZE - 1) t.stream).1.length n).run
          { t with stream := (lineOf (BUF_SIZE - 1) t.stream).2 } :=
  run_bind_of_ok (get_line_run (by decide) hsize.ge t) _

/-- A turn of the loop: the number is taken if the line has the right name, and the next line is
read. -/
theorem lengthLoop_turn {line : List UInt8} (h : Holding buf (upToNul line)) (hne : line ≠ [])
    (hblank : upToNul line ≠ [LF]) (fuel : Nat) (n : Int) (t : Conn) :
    (lengthLoop (fuel + 1) buf line.length n).run t =
      if isMethod "Content-Length:" (upToNul (buf.take 15)) then
        match cstring (buf.drop 16) with
        | none => .error .undefined
        | some number => (lengthFrom fuel (buf.set 15 0) (atoi number)).run t
      else (lengthFrom fuel (buf.set 15 0) n).run t := by
  have hbeq : ¬ (upToNul line == [LF]) = true := fun heq => hblank (beq_iff_eq.mp heq)
  have hin : 15 < buf.length := by rw [h.size]; decide
  -- the line is cut behind its first 15 bytes
  have hset : buf.set 15 0 = buf.take 15 ++ 0 :: buf.drop 16 :=
    List.set_eq_take_append_cons_drop.trans (if_pos hin)
  have hstore : (store buf 15 0).run t = .ok (buf.set 15 0, t) := by
    rw [store, if_pos hin]
    rfl
  have hname : cstring (buf.set 15 0) = some (upToNul (buf.take 15)) := by
    rw [hset, cstring_append_nul]
  rw [lengthLoop, if_pos (List.length_pos_iff.mpr hne), run_bind_of_ok h.blankLine_run,
    if_neg hbeq, run_bind_of_ok hstore, run_bind_of_ok (stringAt_run hname t)]
  by_cases hmatch : isMethod "Content-Length:" (upToNul (buf.take 15)) = true
  · have hdrop : (buf.set 15 0).drop 16 = buf.drop 16 := by
      rw [List.drop_set]
      simp
    rw [if_pos hmatch, if_pos hmatch, stringAt, hdrop]
    cases cstring (buf.drop 16) with
    | none => rfl
    | some number => rfl
  · rw [if_neg hmatch, if_neg hmatch]
    rfl

/-- The loop over the headers finds it. -/
theorem lengthLoop_run (fuel : Nat) :
    ∀ {buf line : List UInt8} {t : Conn} {n : Int}, Holding buf (upToNul line) →
      (line = [] ∧ 0 < fuel ∨ t.stream.length + 2 ≤ fuel) →
      Reads ((lengthLoop fuel buf line.length n).run t) t
        (lengthIn fuel buf line t.stream n) := by
  induction fuel with
  | zero =>
      intro buf line t n _ hfuel
      omega
  | succ fuel ih =>
      intro buf line t n h hfuel
      rw [lengthIn]
      rcases eq_or_ne line [] with rfl | hne
      · rw [if_pos (Or.inl rfl)]
        exact ⟨t.stream, rfl⟩
      by_cases hblank : upToNul line = [LF]
      · rw [if_pos (Or.inr hblank), lengthLoop, if_pos (List.length_pos_iff.mpr hne),
          run_bind_of_ok h.blankLine_run, if_pos (beq_iff_eq.mpr hblank)]
        exact ⟨t.stream, rfl⟩
      have hsize : (buf.set 15 0).length = BUF_SIZE := by rw [List.length_set, h.size]
      have hnext := turns_lineOf (BUF_SIZE - 1) (hfuel.resolve_left fun hnil => hne hnil.1)
      have hrest := fun m => (ih (Holding.afterLine hsize t.stream) hnext
        (t := { t with stream := (lineOf (BUF_SIZE - 1) t.stream).2 }) (n := m)).later
      rw [if_neg (not_or.mpr ⟨hne, hblank⟩), lengthLoop_turn h hne hblank]
      by_cases hmatch : isMethod "Content-Length:" (upToNul (buf.take 15)) = true
      · rw [if_pos hmatch, if_pos hmatch]
        cases hnum : cstring (buf.drop 16) with
        | none => exact rfl
        | some number =>
            dsimp only
            rw [lengthFrom_run hsize]
            exact hrest (atoi number)
      · rw [if_neg hmatch, if_neg hmatch, lengthFrom_run hsize]
        exact hrest n

theorem readLength_run (hsize : buf.length = BUF_SIZE) (t : Conn) :
    Reads ((readLength buf).run t) t (declaredLength buf t.stream) := by
  have hrest := (lengthLoop_run ((lineOf (BUF_SIZE - 1) t.stream).2.length + 2)
    (Holding.afterLine hsize t.stream) (Or.inr (Nat.le_refl _))
    (t := { t with stream := (lineOf (BUF_SIZE - 1) t.stream).2 }) (n := -1)).later
  rw [readLength, run_bind_of_ok (get_line_run (by decide) hsize.ge t)]
  dsimp only
  rw [run_bind_of_ok (run_get _), declaredLength]
  exact hrest

end Headers

/-! ## Words -/

/-- The word of at most `n` bytes at the start of `l`. -/
def wordOf (n : Nat) (l : List UInt8) : List UInt8 := (l.take n).takeWhile fun c => !isspace c

section Words

variable {buf l : List UInt8} {n j : Nat} {t : Conn}

theorem length_wordOf_le (n : Nat) (l : List UInt8) : (wordOf n l).length ≤ n :=
  (List.takeWhile_prefix _).length_le.trans (List.length_take_le n l)

theorem load_run {c : UInt8} (h : buf.drop j = c :: l) : (load buf j).run t = .ok (c, t) := by
  have hj : buf[j]? = some c := by
    rw [← Nat.add_zero j, ← List.getElem?_drop, h]
    rfl
  rw [load, hj]
  rfl

theorem load_run_outside (h : buf.drop j = []) : (load buf j).run t = .error .undefined := by
  rw [load, List.getElem?_eq_none (List.drop_eq_nil_iff.mp h)]
  rfl

theorem drop_succ_of_cons {c : UInt8} (h : buf.drop j = c :: l) : buf.drop (j + 1) = l := by
  rw [← List.drop_drop, h]
  rfl

/-- A word is copied if some byte of the array stops the scan. -/
theorem copyWord_run {inside : Nat → Bool} (hin : ∀ k, k < buf.length → inside k = true) (n : Nat) :
    ∀ {j : Nat} {l : List UInt8}, buf.drop j = l →
      (copyWord inside buf n j).run t =
        if (wordOf n l).length < l.length then .ok ((wordOf n l, j + (wordOf n l).length), t)
        else .error .undefined := by
  induction n with
  | zero =>
      intro j l h
      cases l with
      | nil =>
          rw [copyWord, run_bind_of_error (load_run_outside h)]
          rfl
      | cons c l =>
          have hword : wordOf 0 (c :: l) = [] := rfl
          rw [copyWord, run_bind_of_ok (load_run h), hword]
          by_cases hc : isspace c = true
          · rw [if_pos hc]
            exact (if_pos (Nat.zero_lt_succ _)).symm
          · rw [if_neg hc]
            exact (if_pos (Nat.zero_lt_succ _)).symm
  | succ n ih =>
      intro j l h
      cases l with
      | nil =>
          rw [copyWord, run_bind_of_error (load_run_outside h)]
          rfl
      | cons c l =>
          rw [copyWord, run_bind_of_ok (load_run h)]
          by_cases hc : isspace c = true
          · have hword : wordOf (n + 1) (c :: l) = [] := by simp [wordOf, hc]
            rw [if_pos hc, hword]
            exact (if_pos (Nat.zero_lt_succ _)).symm
          · have hword : wordOf (n + 1) (c :: l) = c :: wordOf n l := by simp [wordOf, hc]
            -- there is a byte at `j`
            have hj : j < buf.length := by
              by_contra hge
              rw [List.drop_eq_nil_of_le (not_lt.mp hge)] at h
              cases h
            have hrest := ih (drop_succ_of_cons h)
            rw [if_neg hc, hword]
            dsimp only
            rw [if_pos (hin j hj)]
            simp only [List.length_cons, Nat.add_lt_add_iff_right]
            by_cases hlt : (wordOf n l).length < l.length
            · rw [if_pos hlt] at hrest
              rw [if_pos hlt, run_bind_of_ok hrest, Nat.add_assoc, Nat.add_comm 1]
              rfl
            · rw [if_neg hlt] at hrest
              rw [if_neg hlt, run_bind_of_error hrest]

/-- The spaces are skipped if something else follows in the array. -/
theorem skipSpaces_run (hsize : buf.length = BUF_SIZE) (fuel : Nat) :
    ∀ {j : Nat} {l : List UInt8}, buf.drop j = l → l.length < fuel →
      (skipSpaces buf fuel j).run t =
        if l.dropWhile isspace = [] then .error .undefined
        else .ok (j + (l.takeWhile isspace).length, t) := by
  induction fuel with
  | zero =>
      intro j l _ hfuel
      exact absurd hfuel (Nat.not_lt_zero _)
  | succ fuel ih =>
      intro j l h hfuel
      cases l with
      | nil =>
          rw [skipSpaces, run_bind_of_error (load_run_outside h)]
          rfl
      | cons c l =>
          rw [skipSpaces, run_bind_of_ok (load_run h)]
          by_cases hc : isspace c = true
          · have hj : j < BUF_SIZE := by
              by_contra hge
              rw [List.drop_eq_nil_of_le (by rw [hsize]; exact not_lt.mp hge)] at h
              cases h
            have hrest := ih (drop_succ_of_cons h) (Nat.lt_of_succ_lt_succ hfuel)
            rw [if_pos ⟨hc, hj⟩, hrest, List.dropWhile_cons_of_pos hc, List.takeWhile_cons_of_pos hc,
              List.length_cons, Nat.add_assoc, Nat.add_comm 1]
          · rw [if_neg fun hand => hc hand.1, List.dropWhile_cons_of_neg hc,
              List.takeWhile_cons_of_neg hc, if_neg (List.cons_ne_nil _ _)]
            rfl

end Words

end CLanguageLearning.Tinyhttpd
