import CLanguageLearning.Sds.Runs

/-!
# Quoting and splitting

`sdscatrepr` and `sdssplitargs` on the level of contents: a string is the list of its bytes, to
which `sdscatlen` appends (`catPieces_reachable` says so for the first of the two). A pointer into
the line is the rest of the line from there on, and reading at or behind its end gives the
terminator. `isprint` and `isspace` are those of the C locale. The functions come in the order of
the source.
-/

set_option autoImplicit false

namespace CLanguageLearning.Sds

open CLanguageLearning.Foundation

/-! ## Characters -/

/-- A character constant. -/
def chr (c : Char) : UInt8 := c.toUInt8

/-- The backslash. -/
def backslash : UInt8 := 92

/-- The double quote. -/
def dquote : UInt8 := 34

/-- The single quote. -/
def squote : UInt8 := 39

/-- The blank. -/
def space : UInt8 := 32

/-- `'\n'`. -/
def newline : UInt8 := 10

/-- `'\r'`. -/
def carriageReturn : UInt8 := 13

/-- `'\t'`. -/
def tabulator : UInt8 := 9

/-- `'\a'`. -/
def alert : UInt8 := 7

/-- `'\b'`. -/
def backspace : UInt8 := 8

/-- `'\v'`. -/
def verticalTab : UInt8 := 11

/-- `'\f'`. -/
def formFeed : UInt8 := 12

/-- `isprint` of the C locale. -/
def isprint (c : UInt8) : Bool := decide (32 ≤ c) && decide (c ≤ 126)

/-- `isspace` of the C locale. -/
def isspace (c : UInt8) : Bool :=
  c == space || c == tabulator || c == newline || c == verticalTab || c == formFeed ||
    c == carriageReturn

/-! ## Rendering -/

/-- The digit `%x` writes for `d < 16`. -/
def hexChar (d : Nat) : UInt8 :=
  if d < 10 then chr '0' + UInt8.ofNat d else chr 'a' + UInt8.ofNat (d - 10)

/-- The bytes appended for one byte of the string: the body of the loop of `sdscatrepr`. -/
def reprByte (c : UInt8) : List UInt8 :=
  if c = backslash ∨ c = dquote then [backslash, c]
  else if c = newline then [backslash, chr 'n']
  else if c = carriageReturn then [backslash, chr 'r']
  else if c = tabulator then [backslash, chr 't']
  else if c = alert then [backslash, chr 'a']
  else if c = backspace then [backslash, chr 'b']
  else if isprint c then [c]
  else [backslash, chr 'x', hexChar (c.toNat / 16), hexChar (c.toNat % 16)]

/-- The pieces `sdscatrepr` appends, one for each call. -/
def reprPieces (p : List UInt8) : List (List UInt8) := [dquote] :: (p.map reprByte ++ [[dquote]])

/-- The string `s` with the rendering of `p` in double quotes behind it. -/
def sdscatrepr (s p : List UInt8) : List UInt8 := s ++ (reprPieces p).flatten

/-! ## Splitting -/

/-- A digit or a letter from `a` to `f`, in either case. -/
def is_hex_digit (c : UInt8) : Bool :=
  (decide (chr '0' ≤ c) && decide (c ≤ chr '9')) || (decide (chr 'a' ≤ c) && decide (c ≤ chr 'f')) ||
    (decide (chr 'A' ≤ c) && decide (c ≤ chr 'F'))

/-- The value of a hexadecimal digit, and 0 for any other character. -/
def hex_digit_to_int (c : UInt8) : Nat :=
  if c = chr '0' then 0
  else if c = chr '1' then 1
  else if c = chr '2' then 2
  else if c = chr '3' then 3
  else if c = chr '4' then 4
  else if c = chr '5' then 5
  else if c = chr '6' then 6
  else if c = chr '7' then 7
  else if c = chr '8' then 8
  else if c = chr '9' then 9
  else if c = chr 'a' ∨ c = chr 'A' then 10
  else if c = chr 'b' ∨ c = chr 'B' then 11
  else if c = chr 'c' ∨ c = chr 'C' then 12
  else if c = chr 'd' ∨ c = chr 'D' then 13
  else if c = chr 'e' ∨ c = chr 'E' then 14
  else if c = chr 'f' ∨ c = chr 'F' then 15
  else 0

/-- `*(p + k)`. -/
def charAt (p : List UInt8) (k : Nat) : UInt8 := p.getD k 0

/-- `if (*p) p++`. -/
def advance (p : List UInt8) : List UInt8 := if charAt p 0 ≠ 0 then p.drop 1 else p

/-- The inner `switch` on the character behind a backslash. -/
def unescape (c : UInt8) : UInt8 :=
  if c = chr 'n' then newline
  else if c = chr 'r' then carriageReturn
  else if c = chr 't' then tabulator
  else if c = chr 'b' then backspace
  else if c = chr 'a' then alert
  else c

/-- A token being read: inside double quotes, inside single quotes, what has been read and where the
reading is. -/
structure Token where
  inq : Bool
  insq : Bool
  current : List UInt8
  p : List UInt8
  deriving DecidableEq, Repr

/-- What one turn of the loop `while (!done)` does. -/
inductive TokenStep where
  | next (t : Token)
  | done (current p : List UInt8)
  | err
  deriving DecidableEq, Repr

/-- A quote that closes a token must be followed by a blank or by nothing. -/
def closeQuote (current p : List UInt8) : TokenStep :=
  if charAt p 1 ≠ 0 ∧ ¬ isspace (charAt p 1) then .err else .done current (advance p)

/-- A turn inside double quotes. -/
def quotedStep (current p : List UInt8) : TokenStep :=
  if charAt p 0 = backslash ∧ charAt p 1 = chr 'x' ∧ is_hex_digit (charAt p 2) ∧
      is_hex_digit (charAt p 3) then
    .next ⟨true, false, current ++
      [UInt8.ofNat (hex_digit_to_int (charAt p 2) * 16 + hex_digit_to_int (charAt p 3))],
      advance (p.drop 3)⟩
  else if charAt p 0 = backslash ∧ charAt p 1 ≠ 0 then
    .next ⟨true, false, current ++ [unescape (charAt p 1)], advance (p.drop 1)⟩
  else if charAt p 0 = dquote then closeQuote current p
  else if charAt p 0 = 0 then .err
  else .next ⟨true, false, current ++ [charAt p 0], advance p⟩

/-- A turn inside single quotes. -/
def singleQuotedStep (current p : List UInt8) : TokenStep :=
  if charAt p 0 = backslash ∧ charAt p 1 = squote then
    .next ⟨false, true, current ++ [squote], advance (p.drop 1)⟩
  else if charAt p 0 = squote then closeQuote current p
  else if charAt p 0 = 0 then .err
  else .next ⟨false, true, current ++ [charAt p 0], advance p⟩

/-- A turn outside quotes. -/
def plainStep (current p : List UInt8) : TokenStep :=
  if charAt p 0 = space ∨ charAt p 0 = newline ∨ charAt p 0 = carriageReturn ∨
      charAt p 0 = tabulator ∨ charAt p 0 = 0 then .done current (advance p)
  else if charAt p 0 = dquote then .next ⟨true, false, current, advance p⟩
  else if charAt p 0 = squote then .next ⟨false, true, current, advance p⟩
  else .next ⟨false, false, current ++ [charAt p 0], advance p⟩

/-- One turn of `while (!done)`, by the quotes that are open. -/
def tokenStep (t : Token) : TokenStep :=
  if t.inq then quotedStep t.current t.p
  else if t.insq then singleQuotedStep t.current t.p
  else plainStep t.current t.p

/-- `while (!done)`, in at most the given number of turns: the token and the rest of the line, or
nothing for `goto err`. -/
def readToken : Nat → Token → Except Halt (Option (List UInt8 × List UInt8))
  | 0, _ => throw .diverged
  | fuel + 1, t =>
      match tokenStep t with
      | .next t' => readToken fuel t'
      | .done current p => return some (current, p)
      | .err => return none

/-- `while (*p && isspace(*p)) p++`. -/
def skipBlanks : List UInt8 → List UInt8
  | [] => []
  | c :: p => if c ≠ 0 ∧ isspace c then skipBlanks p else c :: p

/-- The bytes asked for to add a token to the vector: `((*argc) + 1) * sizeof(char *)`, the sum an
`int` that is converted to `size_t`. -/
def vectorSize (argc : Nat) : Nat :=
  (((argc + 1 : Nat) : Int).bmod (2 ^ 32) * 8 % (SIZE_COUNT : Int)).toNat

/-- No object is larger than `PTRDIFF_MAX` bytes. -/
def PTRDIFF_MAX : Nat := 2 ^ 63 - 1

/-- The outer loop, in at most the given number of turns, for the rest `p` of the line with the
`argc` tokens of `vector` read. -/
def splitLoop : Nat → List UInt8 → Nat → List (List UInt8) →
    Except Halt (Option (Nat × List (List UInt8)))
  | 0, _, _, _ => throw .diverged
  | fuel + 1, p, argc, vector => do
      let p := skipBlanks p
      if charAt p 0 ≠ 0 then
        match ← readToken (p.length + 1) ⟨false, false, [], p⟩ with
        | some (current, p') =>
            if vectorSize argc ≤ PTRDIFF_MAX then splitLoop fuel p' (argc + 1) (vector ++ [current])
            else throw .outOfMemory
        | none => return none
      else return some (argc, vector)

/-- The result `NULL` is `none`; otherwise the value of `*argc` and the vector. -/
def sdssplitargs (line : List UInt8) : Except Halt (Option (Nat × List (List UInt8))) :=
  splitLoop (line.length + 1) line 0 []

/-! ## One quoted token -/

@[simp] theorem charAt_cons_zero (c : UInt8) (p : List UInt8) : charAt (c :: p) 0 = c := rfl

@[simp] theorem charAt_cons_one (c : UInt8) (p : List UInt8) : charAt (c :: p) 1 = charAt p 0 := rfl

theorem advance_cons {c : UInt8} (h : c ≠ 0) (p : List UInt8) : advance (c :: p) = p := if_pos h

theorem is_hex_digit_hexChar : ∀ d, d < 16 → is_hex_digit (hexChar d) = true := by decide

theorem hex_digit_to_int_hexChar : ∀ d, d < 16 → hex_digit_to_int (hexChar d) = d := by decide

theorem hexChar_ne_zero : ∀ d, d < 16 → hexChar d ≠ 0 := by decide

section Quoted

variable {acc tail : List UInt8} {c d : UInt8}

/-- A character that stands for itself. -/
theorem quotedStep_plain (hb : c ≠ backslash) (hq : c ≠ dquote) (h0 : c ≠ 0) :
    quotedStep acc (c :: tail) = .next ⟨true, false, acc ++ [c], tail⟩ := by
  rw [quotedStep, if_neg fun h => hb h.1, if_neg fun h => hb h.1, charAt_cons_zero, if_neg hq,
    if_neg h0, advance_cons h0]

/-- A backslash and a letter other than `x`. -/
theorem quotedStep_letter (hx : d ≠ chr 'x') (h0 : d ≠ 0) (hu : unescape d = c) :
    quotedStep acc (backslash :: d :: tail) = .next ⟨true, false, acc ++ [c], tail⟩ := by
  rw [quotedStep, if_neg fun h => hx h.2.1, if_pos ⟨rfl, h0⟩]
  show TokenStep.next ⟨true, false, acc ++ [unescape d], advance (d :: tail)⟩ = _
  rw [hu, advance_cons h0]

/-- A byte in hexadecimal. -/
theorem quotedStep_hex {a b : Nat} (ha : a < 16) (hb : b < 16) :
    quotedStep acc (backslash :: chr 'x' :: hexChar a :: hexChar b :: tail) =
      .next ⟨true, false, acc ++ [UInt8.ofNat (a * 16 + b)], tail⟩ := by
  rw [quotedStep, if_pos ⟨rfl, rfl, is_hex_digit_hexChar a ha, is_hex_digit_hexChar b hb⟩]
  show TokenStep.next ⟨true, false, acc ++ [UInt8.ofNat (hex_digit_to_int (hexChar a) * 16 +
    hex_digit_to_int (hexChar b))], advance (hexChar b :: tail)⟩ = _
  rw [hex_digit_to_int_hexChar a ha, hex_digit_to_int_hexChar b hb,
    advance_cons (hexChar_ne_zero b hb)]

/-- The three ways a byte is written: a backslash and a letter, itself, or in hexadecimal. -/
theorem reprByte_cases (c : UInt8) :
    (∃ d, reprByte c = [backslash, d] ∧ d ≠ chr 'x' ∧ d ≠ 0 ∧ unescape d = c) ∨
    (reprByte c = [c] ∧ c ≠ backslash ∧ c ≠ dquote ∧ c ≠ 0) ∨
    reprByte c = [backslash, chr 'x', hexChar (c.toNat / 16), hexChar (c.toNat % 16)] := by
  unfold reprByte
  split_ifs with hq hn hr ht ha hb hp
  · rcases hq with rfl | rfl
    · exact Or.inl ⟨_, rfl, by decide, by decide, by decide⟩
    · exact Or.inl ⟨_, rfl, by decide, by decide, by decide⟩
  · exact Or.inl ⟨_, rfl, by decide, by decide, by rw [hn]; decide⟩
  · exact Or.inl ⟨_, rfl, by decide, by decide, by rw [hr]; decide⟩
  · exact Or.inl ⟨_, rfl, by decide, by decide, by rw [ht]; decide⟩
  · exact Or.inl ⟨_, rfl, by decide, by decide, by rw [ha]; decide⟩
  · exact Or.inl ⟨_, rfl, by decide, by decide, by rw [hb]; decide⟩
  · refine Or.inr (Or.inl ⟨rfl, fun h => hq (Or.inl h), fun h => hq (Or.inr h), ?_⟩)
    rintro rfl
    exact absurd hp (by decide)
  · exact Or.inr (Or.inr rfl)

/-- A turn reads back exactly what was written for one byte. -/
theorem quotedStep_reprByte (c : UInt8) :
    quotedStep acc (reprByte c ++ tail) = .next ⟨true, false, acc ++ [c], tail⟩ := by
  rcases reprByte_cases c with ⟨d, he, hx, h0, hu⟩ | ⟨he, hb, hq, h0⟩ | he
  · rw [he]
    exact quotedStep_letter hx h0 hu
  · rw [he]
    exact quotedStep_plain hb hq h0
  · have hlt := c.toNat_lt
    have hback : UInt8.ofNat (c.toNat / 16 * 16 + c.toNat % 16) = c := by
      rw [Nat.div_add_mod', UInt8.ofNat_toNat]
    have h := @quotedStep_hex acc tail (c.toNat / 16) (c.toNat % 16) (by omega) (by omega)
    rw [hback] at h
    rw [he]
    exact h

/-- The end of a token: the line is over or goes on with a blank. -/
def TokenEnd (rest : List UInt8) : Prop := charAt rest 0 = 0 ∨ isspace (charAt rest 0) = true

theorem quotedStep_close {rest : List UInt8} (h : TokenEnd rest) :
    quotedStep acc (dquote :: rest) = .done acc rest := by
  have hclose : ¬ (charAt rest 0 ≠ 0 ∧ ¬ isspace (charAt rest 0) = true) := by
    rintro ⟨h0, hs⟩
    rcases h with h | h
    · exact h0 h
    · exact hs h
  rw [quotedStep, if_neg fun h => absurd h.1 (by decide : dquote ≠ backslash),
    if_neg fun h => absurd h.1 (by decide : dquote ≠ backslash), if_pos (charAt_cons_zero _ _),
    closeQuote, charAt_cons_one, if_neg hclose, advance_cons (by decide)]

end Quoted

/-- Inside the quotes of a rendering the loop reads the rest of the string and stops behind the
closing quote. -/
theorem readToken_quoted {rest : List UInt8} (hrest : TokenEnd rest) (s : List UInt8) :
    ∀ (fuel : Nat) (acc : List UInt8), s.length < fuel →
      readToken fuel ⟨true, false, acc, (s.map reprByte).flatten ++ dquote :: rest⟩ =
        .ok (some (acc ++ s, rest)) := by
  induction s with
  | nil =>
      intro fuel acc hfuel
      obtain ⟨n, rfl⟩ := Nat.exists_eq_add_of_lt hfuel
      have hstep : tokenStep ⟨true, false, acc, dquote :: rest⟩ = .done acc rest :=
        quotedStep_close hrest
      show readToken (_ + 1) ⟨true, false, acc, dquote :: rest⟩ = _
      rw [readToken, hstep, List.append_nil]
      rfl
  | cons c s ih =>
      intro fuel acc hfuel
      obtain ⟨n, rfl⟩ := Nat.exists_eq_add_of_lt hfuel
      have hline : ((c :: s).map reprByte).flatten ++ dquote :: rest =
          reprByte c ++ ((s.map reprByte).flatten ++ dquote :: rest) := by
        rw [List.map_cons, List.flatten_cons, List.append_assoc]
      have hstep : tokenStep ⟨true, false, acc,
          reprByte c ++ ((s.map reprByte).flatten ++ dquote :: rest)⟩ =
            .next ⟨true, false, acc ++ [c], (s.map reprByte).flatten ++ dquote :: rest⟩ :=
        quotedStep_reprByte c
      rw [hline, readToken, hstep]
      have hih := ih ((c :: s).length + n) (acc ++ [c]) (by rw [List.length_cons]; omega)
      rw [List.append_assoc] at hih
      exact hih

/-- A rendering is read as one token. -/
theorem readToken_repr {rest : List UInt8} (hrest : TokenEnd rest) (s : List UInt8) (fuel : Nat)
    (hfuel : s.length + 1 < fuel) :
    readToken fuel ⟨false, false, [], sdscatrepr [] s ++ rest⟩ = .ok (some (s, rest)) := by
  obtain ⟨n, rfl⟩ := Nat.exists_eq_add_of_lt hfuel
  have hline : sdscatrepr [] s ++ rest =
      dquote :: ((s.map reprByte).flatten ++ dquote :: rest) := by
    simp [sdscatrepr, reprPieces]
  have hstep : tokenStep ⟨false, false, [], dquote :: ((s.map reprByte).flatten ++ dquote :: rest)⟩ =
      .next ⟨true, false, [], (s.map reprByte).flatten ++ dquote :: rest⟩ := rfl
  rw [hline, readToken, hstep]
  have h := readToken_quoted hrest s (s.length + 1 + n) [] (by omega)
  exact h

/-! ## A line of renderings -/

/-- The blanks that separate renderings: space, tab, CR and LF. -/
def Blank (c : UInt8) : Prop := c = space ∨ c = tabulator ∨ c = carriageReturn ∨ c = newline

/-- The lines that consist of the renderings of the given strings, separated by blanks. -/
inductive Joined : List (List UInt8) → List UInt8 → Prop where
  | nil : Joined [] []
  | one (s : List UInt8) : Joined [s] (sdscatrepr [] s)
  | cons {ss : List (List UInt8)} {line : List UInt8} (s sep : List UInt8) (hsep : sep ≠ [])
      (hblank : ∀ c, c ∈ sep → Blank c) (hss : ss ≠ []) (h : Joined ss line) :
      Joined (s :: ss) (sdscatrepr [] s ++ sep ++ line)

theorem Blank.isspace {c : UInt8} (h : Blank c) : isspace c = true := by
  rcases h with rfl | rfl | rfl | rfl <;> decide

theorem ne_zero_of_isspace {c : UInt8} (h : isspace c = true) : c ≠ 0 := by
  rintro rfl
  exact absurd h (by decide)

theorem skipBlanks_append {sep : List UInt8} (h : ∀ c, c ∈ sep → isspace c = true)
    (p : List UInt8) : skipBlanks (sep ++ p) = skipBlanks p := by
  induction sep with
  | nil => rfl
  | cons c sep ih =>
      have hc := h c (List.mem_cons_self ..)
      rw [List.cons_append, skipBlanks, if_pos ⟨ne_zero_of_isspace hc, hc⟩]
      exact ih fun d hd => h d (List.mem_cons_of_mem _ hd)

theorem skipBlanks_dquote (p : List UInt8) : skipBlanks (dquote :: p) = dquote :: p :=
  if_neg fun h => absurd h.2 (by decide)

/-- A rendering starts with a quote. -/
theorem sdscatrepr_eq_cons (s : List UInt8) : ∃ p, sdscatrepr [] s = dquote :: p := ⟨_, rfl⟩

theorem length_lt_sdscatrepr (s : List UInt8) : s.length + 1 < (sdscatrepr [] s).length := by
  have hbody : s.length ≤ ((s.map reprByte).flatten).length := by
    induction s with
    | nil => exact Nat.le_refl _
    | cons c s ih =>
        have hc : 1 ≤ (reprByte c).length := by
          rcases reprByte_cases c with ⟨d, he, -⟩ | ⟨he, -⟩ | he <;> rw [he] <;> simp
        rw [List.map_cons, List.flatten_cons, List.length_append, List.length_cons]
        omega
  simp [sdscatrepr, reprPieces] at hbody ⊢
  omega

/-- While the vector has fewer than `INT_MAX` entries its size fits in a request. -/
theorem vectorSize_le {argc : Nat} (h : argc < INT_MAX) : vectorSize argc ≤ PTRDIFF_MAX := by
  unfold INT_MAX at h
  have hmod : ((argc + 1 : Nat) : Int).bmod (2 ^ 32) = ((argc + 1 : Nat) : Int) :=
    Int.bmod_eq_of_le_mul_two (by omega) (by omega)
  have hnat : ((argc + 1 : Nat) : Int) * 8 % (SIZE_COUNT : Int) =
      (((argc + 1) * 8 % SIZE_COUNT : Nat) : Int) := by
    push_cast
    rfl
  have hlt : (argc + 1) * 8 % SIZE_COUNT = (argc + 1) * 8 := by
    apply Nat.mod_eq_of_lt
    unfold SIZE_COUNT
    omega
  have hsize : vectorSize argc = (argc + 1) * 8 := by
    unfold vectorSize
    rw [hmod, hnat, Int.toNat_natCast]
    exact hlt
  rw [hsize]
  unfold PTRDIFF_MAX
  omega

/-- With `INT_MAX` entries the sum is negative as an `int` and too large as a `size_t`. -/
theorem vectorSize_gt : ¬ vectorSize INT_MAX ≤ PTRDIFF_MAX := by decide

/-- A turn of the outer loop on blanks and a rendering. -/
theorem splitLoop_repr {sep rest : List UInt8} (hsep : ∀ c, c ∈ sep → isspace c = true)
    (hrest : TokenEnd rest) (s : List UInt8) (fuel argc : Nat) (vector : List (List UInt8)) :
    splitLoop (fuel + 1) (sep ++ (sdscatrepr [] s ++ rest)) argc vector =
      if vectorSize argc ≤ PTRDIFF_MAX then splitLoop fuel rest (argc + 1) (vector ++ [s])
      else .error .outOfMemory := by
  obtain ⟨p, hp⟩ := sdscatrepr_eq_cons s
  have hlen := length_lt_sdscatrepr s
  have hskip : skipBlanks (sep ++ (sdscatrepr [] s ++ rest)) = sdscatrepr [] s ++ rest := by
    rw [skipBlanks_append hsep, hp]
    exact skipBlanks_dquote (p ++ rest)
  have hchar : charAt (sdscatrepr [] s ++ rest) 0 ≠ 0 := by
    rw [hp]
    show dquote ≠ 0
    decide
  have hread := readToken_repr hrest s ((sdscatrepr [] s ++ rest).length + 1)
    (by rw [List.length_append]; omega)
  rw [splitLoop, hskip, if_pos hchar, hread, ok_bind]
  by_cases hsize : vectorSize argc ≤ PTRDIFF_MAX
  · rw [if_pos hsize]
    exact if_pos hsize
  · rw [if_neg hsize]
    exact if_neg hsize

theorem splitLoop_nil (fuel argc : Nat) (vector : List (List UInt8)) {sep : List UInt8}
    (hsep : ∀ c, c ∈ sep → isspace c = true) :
    splitLoop (fuel + 1) sep argc vector = .ok (some (argc, vector)) := by
  have hskip : skipBlanks sep = [] := by
    have h := skipBlanks_append hsep []
    rwa [List.append_nil] at h
  rw [splitLoop, hskip]
  rfl

theorem tokenEnd_of_blank {sep : List UInt8} (rest : List UInt8) (hsep : sep ≠ [])
    (h : ∀ c, c ∈ sep → Blank c) : TokenEnd (sep ++ rest) := by
  cases sep with
  | nil => exact absurd rfl hsep
  | cons c sep => exact Or.inr (h c (List.mem_cons_self ..)).isspace

/-- The outer loop on a line of renderings, possibly behind further blanks: every token is added, as
long as the vector can be enlarged. -/
theorem splitLoop_joined {ss : List (List UInt8)} {line : List UInt8} (h : Joined ss line) :
    ∀ (sep : List UInt8) (fuel argc : Nat) (vector : List (List UInt8)),
      (∀ c, c ∈ sep → Blank c) → ss.length < fuel → argc ≤ INT_MAX →
      splitLoop fuel (sep ++ line) argc vector =
        if argc + ss.length ≤ INT_MAX then .ok (some (argc + ss.length, vector ++ ss))
        else .error .outOfMemory := by
  induction h with
  | nil =>
      intro sep fuel argc vector hsep hfuel hargc
      obtain ⟨n, rfl⟩ := Nat.exists_eq_add_of_lt hfuel
      rw [List.append_nil, List.append_nil, if_pos (by simpa using hargc)]
      exact splitLoop_nil _ argc vector fun c hc => (hsep c hc).isspace
  | one s =>
      intro sep fuel argc vector hsep hfuel hargc
      obtain ⟨n, rfl⟩ := Nat.exists_eq_add_of_lt hfuel
      have hend : TokenEnd [] := Or.inl rfl
      have hturn := splitLoop_repr (fun c hc => (hsep c hc).isspace) hend s ([s].length + n) argc vector
      rw [List.append_nil] at hturn
      rw [hturn, List.length_singleton, Nat.add_comm 1 n]
      by_cases hlt : argc < INT_MAX
      · -- the token fits in the vector, and the next turn finds the end of the line
        rw [if_pos (vectorSize_le hlt), if_pos (show argc + 1 ≤ INT_MAX from hlt)]
        exact splitLoop_nil n (argc + 1) (vector ++ [s]) fun c hc => by cases hc
      · have hmax : argc = INT_MAX := by omega
        -- the vector cannot be enlarged
        rw [hmax, if_neg vectorSize_gt, if_neg (Nat.not_succ_le_self INT_MAX)]
  | @cons ss line s sep' hne hblank hss hjoin ih =>
      intro sep fuel argc vector hsep hfuel hargc
      obtain ⟨n, rfl⟩ := Nat.exists_eq_add_of_lt hfuel
      have hturn := splitLoop_repr (fun c hc => (hsep c hc).isspace)
        (tokenEnd_of_blank line hne hblank) s ((s :: ss).length + n) argc vector
      have hsum : argc + 1 + ss.length = argc + (s :: ss).length := by
        rw [List.length_cons]
        omega
      rw [List.append_assoc, hturn]
      by_cases hlt : argc < INT_MAX
      · -- the rest of the line, in a vector of one token more
        have hrest := ih sep' ((s :: ss).length + n) (argc + 1) (vector ++ [s]) hblank
          (by rw [List.length_cons]; omega) hlt
        rw [if_pos (vectorSize_le hlt), hrest, hsum, List.append_assoc, List.singleton_append]
      · have hmax : argc = INT_MAX := by omega
        rw [if_neg (by rw [hmax]; exact vectorSize_gt), if_neg (by rw [← hsum]; omega)]

theorem Joined.length_le {ss : List (List UInt8)} {line : List UInt8} (h : Joined ss line) :
    ss.length ≤ line.length := by
  induction h with
  | nil => exact Nat.le_refl _
  | one s =>
      have := length_lt_sdscatrepr s
      rw [List.length_singleton]
      omega
  | cons s sep _ _ _ _ ih =>
      have := length_lt_sdscatrepr s
      rw [List.length_cons, List.length_append, List.length_append]
      omega

/-- Splitting undoes quoting: while memory for the vector can be had, and that is as long as the
number of strings is an `int`, the tokens of a line of renderings are the strings, byte for byte and
in order. -/
theorem sdssplitargs_joined (ss : List (List UInt8)) (line : List UInt8) (h : Joined ss line) :
    (sdssplitargs line ≠ .error .outOfMemory →
      sdssplitargs line = .ok (some (ss.length, ss))) ∧
    (ss.length ≤ INT_MAX → sdssplitargs line ≠ .error .outOfMemory) := by
  have hloop := splitLoop_joined h [] (line.length + 1) 0 [] (fun c hc => by cases hc)
    (Nat.lt_succ_of_le h.length_le) (Nat.zero_le _)
  rw [List.nil_append, Nat.zero_add, List.nil_append] at hloop
  have hsplit : sdssplitargs line = _ := hloop
  rw [hsplit]
  by_cases hlt : ss.length ≤ INT_MAX
  · rw [if_pos hlt]
    exact ⟨fun _ => rfl, fun _ he => by cases he⟩
  · rw [if_neg hlt]
    exact ⟨fun hmem => absurd rfl hmem, fun hlt' => absurd hlt' hlt⟩

/-- Two strings, one of them the text of an escape, with a tab and a line feed between. -/
theorem sdssplitargs_joined_two :
    Joined [[92, 120, 52, 49], []] (sdscatrepr [] [92, 120, 52, 49] ++ [9, 10] ++ sdscatrepr [] []) ∧
      sdssplitargs (sdscatrepr [] [92, 120, 52, 49] ++ [9, 10] ++ sdscatrepr [] []) =
        .ok (some (2, [[92, 120, 52, 49], []])) := by
  have h : Joined [[92, 120, 52, 49], []]
      (sdscatrepr [] [92, 120, 52, 49] ++ [9, 10] ++ sdscatrepr [] []) := by
    refine .cons _ [9, 10] (by decide) ?_ (by decide) (.one [])
    intro c hc
    rcases List.mem_cons.mp hc with rfl | hc
    · exact Or.inr (Or.inl rfl)
    · exact Or.inr (Or.inr (Or.inr (List.mem_singleton.mp hc)))
  have hsplit := sdssplitargs_joined _ _ h
  exact ⟨h, hsplit.1 (hsplit.2 (by decide))⟩

/-! ## Every line is split or refused -/

theorem length_advance (p : List UInt8) (k : Nat) :
    (advance (p.drop k)).length ≤ p.length - k := by
  unfold advance
  split
  · rw [List.length_drop, List.length_drop]
    omega
  · rw [List.length_drop]

theorem length_pos_of_charAt {p : List UInt8} (h : charAt p 0 ≠ 0) : 0 < p.length := by
  cases p with
  | nil => exact absurd rfl h
  | cons c p => exact Nat.succ_pos _

theorem length_advance_lt {p : List UInt8} (h : charAt p 0 ≠ 0) :
    (advance p).length < p.length := by
  have hpos := length_pos_of_charAt h
  rw [advance, if_pos h, List.length_drop]
  omega

theorem length_advance_drop_lt {p : List UInt8} {k : Nat} (hk : 0 < k) (h : charAt p 0 ≠ 0) :
    (advance (p.drop k)).length < p.length := by
  have hpos := length_pos_of_charAt h
  have hle := length_advance p k
  omega

theorem closeQuote_ne_next (current p : List UInt8) (t : Token) :
    closeQuote current p ≠ .next t := by
  unfold closeQuote
  split <;> exact TokenStep.noConfusion

theorem quotedStep_next {current p : List UInt8} {t : Token} (h : quotedStep current p = .next t) :
    t.p.length < p.length := by
  unfold quotedStep at h
  split_ifs at h with hx hb hq h0
  · cases h
    exact length_advance_drop_lt (by decide) (by rw [hx.1]; decide)
  · cases h
    exact length_advance_drop_lt (by decide) (by rw [hb.1]; decide)
  · exact absurd h (closeQuote_ne_next current p t)
  · cases h
    exact length_advance_lt h0

theorem singleQuotedStep_next {current p : List UInt8} {t : Token}
    (h : singleQuotedStep current p = .next t) : t.p.length < p.length := by
  unfold singleQuotedStep at h
  split_ifs at h with hb hq h0
  · cases h
    exact length_advance_drop_lt (by decide) (by rw [hb.1]; decide)
  · exact absurd h (closeQuote_ne_next current p t)
  · cases h
    exact length_advance_lt h0

theorem plainStep_next {current p : List UInt8} {t : Token} (h : plainStep current p = .next t) :
    t.p.length < p.length := by
  unfold plainStep at h
  split_ifs at h with hb hd hs
  · cases h
    exact length_advance_lt (by rw [hd]; decide)
  · cases h
    exact length_advance_lt (by rw [hs]; decide)
  · cases h
    exact length_advance_lt fun h0 => hb (Or.inr (Or.inr (Or.inr (Or.inr h0))))

/-- A turn that does not end the token moves on in the line. -/
theorem tokenStep_next {t t' : Token} (h : tokenStep t = .next t') :
    t'.p.length < t.p.length := by
  unfold tokenStep at h
  split_ifs at h
  · exact quotedStep_next h
  · exact singleQuotedStep_next h
  · exact plainStep_next h

theorem tokenStep_done {t : Token} {c p : List UInt8} (h : tokenStep t = .done c p) :
    p.length ≤ t.p.length := by
  have hle := length_advance t.p 0
  unfold tokenStep quotedStep singleQuotedStep plainStep closeQuote at h
  split_ifs at h <;> cases h <;> exact hle

/-- Reading a token ends, with a rest that is not longer. -/
theorem readToken_ends :
    ∀ (fuel : Nat) (t : Token), t.p.length < fuel →
      readToken fuel t = .ok none ∨
        ∃ c p, readToken fuel t = .ok (some (c, p)) ∧ p.length ≤ t.p.length := by
  intro fuel
  induction fuel with
  | zero =>
      intro t h
      exact absurd h (Nat.not_lt_zero _)
  | succ fuel ih =>
      intro t h
      rw [readToken]
      cases hstep : tokenStep t with
      | next t' =>
          have hlt := tokenStep_next hstep
          rcases ih t' (by omega) with hnone | ⟨c, p, hsome, hle⟩
          · exact Or.inl hnone
          · exact Or.inr ⟨c, p, hsome, by omega⟩
      | done c p => exact Or.inr ⟨c, p, rfl, tokenStep_done hstep⟩
      | err => exact Or.inl rfl

theorem length_skipBlanks (p : List UInt8) : (skipBlanks p).length ≤ p.length := by
  induction p with
  | nil => exact Nat.le_refl _
  | cons c p ih =>
      rw [skipBlanks]
      split
      · exact Nat.le_succ_of_le ih
      · exact Nat.le_refl _

theorem not_isspace_skipBlanks (p : List UInt8) (h0 : charAt (skipBlanks p) 0 ≠ 0) :
    ¬ isspace (charAt (skipBlanks p) 0) = true := by
  induction p with
  | nil => exact absurd rfl h0
  | cons c p ih =>
      rw [skipBlanks] at h0 ⊢
      split
      · rename_i h
        rw [if_pos h] at h0
        exact ih h0
      · rename_i h
        rw [if_neg h, charAt_cons_zero] at h0
        intro hs
        exact h ⟨h0, hs⟩

/-- Outside quotes a character that is no blank does not end the token. -/
theorem tokenStep_start {p : List UInt8} (h0 : charAt p 0 ≠ 0)
    (hs : ¬ isspace (charAt p 0) = true) : ∃ t, tokenStep ⟨false, false, [], p⟩ = .next t := by
  have hblank : ¬ (charAt p 0 = space ∨ charAt p 0 = newline ∨ charAt p 0 = carriageReturn ∨
      charAt p 0 = tabulator ∨ charAt p 0 = 0) := by
    rintro (h | h | h | h | h)
    · exact hs (by rw [h]; decide)
    · exact hs (by rw [h]; decide)
    · exact hs (by rw [h]; decide)
    · exact hs (by rw [h]; decide)
    · exact h0 h
  show ∃ t, plainStep [] p = .next t
  rw [plainStep, if_neg hblank]
  split
  · exact ⟨_, rfl⟩
  · split <;> exact ⟨_, rfl⟩

theorem splitLoop_ends :
    ∀ (fuel : Nat) (p : List UInt8) (argc : Nat) (vector : List (List UInt8)), p.length < fuel →
      splitLoop fuel p argc vector ≠ .error .diverged := by
  intro fuel
  induction fuel with
  | zero =>
      intro p _ _ h
      exact absurd h (Nat.not_lt_zero _)
  | succ fuel ih =>
      intro p argc vector h
      have hskip := length_skipBlanks p
      rw [splitLoop]
      by_cases h0 : charAt (skipBlanks p) 0 ≠ 0
      · -- a token takes at least one byte, so the rest is shorter
        obtain ⟨t, ht⟩ := tokenStep_start h0 (not_isspace_skipBlanks p h0)
        have hlt := tokenStep_next ht
        have hpos := length_pos_of_charAt h0
        have hread : readToken ((skipBlanks p).length + 1) ⟨false, false, [], skipBlanks p⟩ =
            readToken (skipBlanks p).length t := by
          rw [readToken, ht]
        rw [if_pos h0, hread]
        rcases readToken_ends (skipBlanks p).length t hlt with hnone | ⟨c, p', hsome, hle⟩
        · -- unbalanced quotes
          rw [hnone, ok_bind]
          intro he
          cases he
        · rw [hsome, ok_bind]
          change t.p.length < (skipBlanks p).length at hlt
          by_cases hsize : vectorSize argc ≤ PTRDIFF_MAX
          · have hrest := ih p' (argc + 1) (vector ++ [c]) (by omega)
            exact ne_of_eq_of_ne (if_pos hsize) hrest
          · apply ne_of_eq_of_ne (if_neg hsize)
            intro he
            cases he
      · -- the end of the line
        rw [if_neg h0]
        intro he
        cases he

/-- Splitting any line ends: with the tokens, with `NULL`, or without memory for the vector. -/
theorem sdssplitargs_ends (line : List UInt8) : sdssplitargs line ≠ .error .diverged :=
  splitLoop_ends _ line 0 [] (Nat.lt_succ_self _)

/-! ## Rendering into a string in memory -/

/-- The calls `s = sdscatlen(s, …)` for the given pieces, as `sdscatrepr` makes them. -/
def catPieces (al : Allocator) : Ptr → List (List UInt8) → Exec Mem Ptr
  | s, [] => return s
  | s, l :: ls => do
      let s' ← sdscatlen al s (.bytes l) l.length
      catPieces al s' ls

/-- Appending pieces to a string of a run appends their concatenation to its content. With the
pieces of `sdscatrepr` the content becomes what that function is defined to give. -/
theorem catPieces_reachable {al : Allocator} (hal : ∀ k, al k ≠ none) (ls : List (List UInt8)) :
    ∀ (m : Mem) (s : Ptr) (v : Value), Reachable al m s v →
      v.content.length + ls.flatten.length < 2 ^ 62 →
      ∃ s' m' v', (catPieces al s ls).run m = .ok (s', m') ∧ Reachable al m' s' v' ∧
        v'.content = v.content ++ ls.flatten := by
  induction ls with
  | nil =>
      intro m s v h _
      exact ⟨s, m, v, rfl, h, (List.append_nil _).symm⟩
  | cons l ls ih =>
      intro m s v h hfit
      rw [List.flatten_cons, List.length_append] at hfit
      obtain ⟨i, rfl, hv⟩ := h.at hal
      -- one call, then the others on the string it returned
      have hop : (Op.catlen (.bytes l) l).Valid m i v :=
        ⟨List.prefix_rfl, trivial, Value.roomFits_of_lt (by omega)⟩
      obtain ⟨j, m', hrun, -, -⟩ := Op.exec_correct (hal _) hv _ hop
      have hnext : Reachable al m' _ (Op.apply v (.catlen (.bytes l) l)) := .step _ h rfl hop hrun
      obtain ⟨s'', m'', v'', hrun', h', hc⟩ := ih m' _ _ hnext (by
        rw [Op.apply_content, Op.onContent, List.length_append]
        omega)
      refine ⟨s'', m'', v'', ?_, h', ?_⟩
      · rw [catPieces]
        exact (run_bind_of_ok hrun _).trans hrun'
      · rw [hc, Op.apply_content, Op.onContent, List.flatten_cons, List.append_assoc]

end CLanguageLearning.Sds
