import CLanguageLearning.Http.Parser

/-!
# The effect of a line

What `parse_requestline` and `parse_headers` do with a line depends on its string only: the result,
what is printed and the bytes that are left in the place of the string. Nothing outside the string
is read, except for the NUL behind it, or written.
-/

set_option autoImplicit false

namespace CLanguageLearning.Http

open CLanguageLearning.Foundation

/-- A result, the bytes left in the place of the string, and what is printed. -/
structure LineResult where
  code : HttpCode
  left : List UInt8
  messages : List Message
  deriving DecidableEq, Repr

/-- The path of a URL. -/
def urlPath (url : List UInt8) : Option (List UInt8) :=
  if strncasecmp url httpScheme 7 = true then
    (strchr (url.drop 7) slash).map fun i => url.drop (7 + i)
  else if url.head? = some slash then some url
  else none

/-- The effect of `parse_version` on the part of the line behind the method. -/
def versionResult (rest : List UInt8) : LineResult :=
  let blank := rest.take (strspn rest blanks)
  let target := rest.drop (strspn rest blanks)
  match strpbrk target blanks with
  | none => ⟨.bad_request, rest, []⟩
  | some i =>
      let url := target.take i
      let version := target.drop (i + 1)
      let left := blank ++ url ++ 0 :: version
      if strcasecmp (version.drop (strspn version blanks)) HTTP_1_1 = true then
        match urlPath url with
        | none => ⟨.bad_request, left, []⟩
        | some path => ⟨.no_request, left, [.url path]⟩
      else ⟨.bad_request, left, []⟩

/-- The effect of `parse_requestline`. -/
def requestlineResult (line : List UInt8) : LineResult :=
  match strpbrk line blanks with
  | none => ⟨.bad_request, line, []⟩
  | some i =>
      let method := line.take i
      let rest := line.drop (i + 1)
      if strcasecmp method GET = true then
        let r := versionResult rest
        ⟨r.code, method ++ 0 :: r.left, .method :: r.messages⟩
      else ⟨.bad_request, method ++ 0 :: rest, []⟩

/-- The effect of `parse_headers`. -/
def headerResult (line : List UInt8) : LineResult :=
  if line = [] then ⟨.get_request, line, []⟩
  else if strncasecmp line Host 5 = true then
    let rest := line.drop 5
    ⟨.no_request, line, [.host (rest.drop (strspn rest blanks))]⟩
  else ⟨.no_request, line, [.unhandled]⟩

variable {s : ParseState} {p q t line : List UInt8} {b c : UInt8} {i : Nat}

/-! ## Accesses -/

theorem load_run (hbuf : s.buffer = p ++ c :: q) (hi : i = p.length) :
    (load i).run s = .ok (c, s) := by
  have hget : s.buffer[i]? = some c := by
    rw [hbuf, hi, List.getElem?_append_right (Nat.le_refl _), Nat.sub_self, List.getElem?_cons_zero]
  simp [load, hget]

theorem store_run (hbuf : s.buffer = p ++ b :: q) (hi : i = p.length) (c : UInt8) :
    (store i c).run s = .ok ((), { s with buffer := p ++ c :: q }) := by
  have hlt : i < s.buffer.length := by
    rw [hbuf, hi, List.length_append, List.length_cons]
    omega
  have hset : s.buffer.set i c = p ++ c :: q := by
    rw [hbuf, hi, List.set_append_right _ _ (Nat.le_refl _), Nat.sub_self, List.set_cons_zero]
  simp [store, hlt, hset]

theorem str_run (hbuf : s.buffer = p ++ t ++ 0 :: q) (ht : 0 ∉ t) (hi : i = p.length) :
    (str i).run s = .ok (t, s) := by
  have hstring : cstring (s.buffer.drop i) = some t := by
    rw [hbuf, hi, List.append_assoc, List.drop_left, cstring_append_zero ht]
  simp [str, hstring]

@[simp] theorem print_run (m : Message) (s : ParseState) :
    (print m).run s = .ok ((), { s with printed := s.printed ++ [m] }) := rfl

/-- The received bytes fit behind those received before. -/
theorem recv_run_eq {chunk : List UInt8} (hfit : s.read_index + chunk.length ≤ s.buffer.length) :
    (recv chunk).run s = .ok ((), { s with
      buffer := s.buffer.take s.read_index ++ chunk ++ s.buffer.drop (s.read_index + chunk.length)
      read_index := s.read_index + chunk.length }) := by
  rw [recv, run_bind_of_ok rfl, if_pos hfit]
  rfl

/-! ## The functions -/

/-- The state after a request line with the effect `r` on the string between `p` and `q`. -/
def LineResult.apply (r : LineResult) (s : ParseState) (p q : List UInt8) : ParseState :=
  { s with
    buffer := p ++ r.left ++ 0 :: q
    printed := s.printed ++ r.messages
    checkstate := if r.code = .no_request then .header else s.checkstate }

/-- A request line that is refused before anything is printed. -/
theorem apply_bad (left : List UInt8) (s : ParseState) (p q : List UInt8) :
    LineResult.apply ⟨.bad_request, left, []⟩ s p q =
      { s with buffer := p ++ left ++ 0 :: q } := by
  rw [LineResult.apply, if_neg (by simp), List.append_nil]

theorem parse_url_run {url : List UInt8} (hbuf : s.buffer = p ++ url ++ 0 :: q)
    (hurl : 0 ∉ url) (hi : i = p.length) :
    (parse_url i).run s = .ok (match urlPath url with
      | none => (.bad_request, s)
      | some path =>
          (.no_request, { s with printed := s.printed ++ [.url path], checkstate := .header })) := by
  rw [parse_url, run_bind_of_ok (str_run hbuf hurl hi), urlPath]
  by_cases hscheme : strncasecmp url httpScheme 7 = true
  · rw [if_pos hscheme, if_pos hscheme]
    -- the path starts at the first slash behind the scheme
    have hlen : 7 ≤ url.length := strncasecmp_eq_true hscheme rfl
    cases hfind : strchr (url.drop 7) slash with
    | none => rfl
    | some k =>
        obtain ⟨w, v, rfl, hw⟩ := strchr_drop_eq_some hlen hfind
        have hbuf' : s.buffer = (p ++ w) ++ (slash :: v) ++ 0 :: q := by
          rw [hbuf, ← List.append_assoc p]
        have hv : 0 ∉ slash :: v := fun hmem => hurl (List.mem_append_right _ hmem)
        have hj : i + 7 + k = (p ++ w).length := by
          rw [List.length_append, hw, hi, Nat.add_assoc]
        have hpath : (w ++ slash :: v).drop (7 + k) = slash :: v := List.drop_left' hw
        simp only [Option.map_some, hpath]
        rw [run_bind_of_ok (load_run (c := slash) (q := v ++ 0 :: q) (by simpa using hbuf') hj),
          if_neg (by simp), run_bind_of_ok (str_run hbuf' hv hj), run_bind_of_ok (print_run _ _)]
        rfl
  · rw [if_neg hscheme, if_neg hscheme]
    cases url with
    | nil =>
        -- an empty URL: its first byte is the terminator
        dsimp only
        rw [run_bind_of_ok (load_run (c := 0) (q := q) (by simpa using hbuf) hi),
          if_pos (by decide)]
        rfl
    | cons a url =>
        dsimp only
        rw [run_bind_of_ok (load_run (c := a) (q := url ++ 0 :: q) (by simpa using hbuf) hi)]
        by_cases ha : a = slash
        · subst ha
          rw [if_neg (by simp), run_bind_of_ok (str_run hbuf hurl hi),
            run_bind_of_ok (print_run _ _)]
          rfl
        · rw [if_pos ha, List.head?_cons, if_neg (by simpa using ha)]
          rfl

/-- The effect of `parse_version` on a string that is cut at the blanks. -/
theorem versionResult_cut {blank url version : List UInt8} (hblank : ∀ b ∈ blank, b ∈ blanks)
    (hurl : ∀ b ∈ url, b ∉ blanks) (hhead : ∀ b ∈ (url ++ c :: version).head?, b ∉ blanks)
    (hc : c ∈ blanks) :
    versionResult (blank ++ (url ++ c :: version)) =
      if strcasecmp (version.drop (strspn version blanks)) HTTP_1_1 = true then
        match urlPath url with
        | none => ⟨.bad_request, blank ++ url ++ 0 :: version, []⟩
        | some path => ⟨.no_request, blank ++ url ++ 0 :: version, [.url path]⟩
      else ⟨.bad_request, blank ++ url ++ 0 :: version, []⟩ := by
  rw [versionResult, strspn_append hblank hhead, List.take_left, List.drop_left]
  simp only [strpbrk_cut hurl hc, List.take_left, ← List.drop_drop, List.drop_left, List.drop_one,
    List.tail_cons]

theorem versionResult_code (rest : List UInt8) :
    (versionResult rest).code = .bad_request ∨ (versionResult rest).code = .no_request := by
  unfold versionResult
  dsimp only
  split
  · exact Or.inl rfl
  · split_ifs
    · split
      · exact Or.inl rfl
      · exact Or.inr rfl
    · exact Or.inl rfl

/-- The bytes left in the place of the string are as many. -/
theorem versionResult_left_length (rest : List UInt8) :
    (versionResult rest).left.length = rest.length := by
  obtain ⟨blank, target, rfl, hblank, hhead⟩ := exists_span rest blanks
  by_cases hnone : ∀ b ∈ target, b ∉ blanks
  · rw [versionResult, strspn_append hblank hhead, List.drop_left, strpbrk_eq_none hnone]
  · obtain ⟨url, c, version, rfl, hurl, hc⟩ := exists_cut hnone
    rw [versionResult_cut hblank hurl hhead hc]
    split_ifs
    · split <;> simp
    · simp

theorem parse_version_run {rest : List UInt8} (hbuf : s.buffer = p ++ rest ++ 0 :: q)
    (hrest : 0 ∉ rest) (hi : i = p.length) :
    (parse_version i).run s =
      .ok ((versionResult rest).code, (versionResult rest).apply s p q) := by
  rw [parse_version, run_bind_of_ok (str_run hbuf hrest hi)]
  obtain ⟨blank, target, rfl, hblank, hhead⟩ := exists_span rest blanks
  simp only [strspn_append hblank hhead]
  have htarget : 0 ∉ target := fun hmem => hrest (List.mem_append_right _ hmem)
  have hbuf₁ : s.buffer = (p ++ blank) ++ target ++ 0 :: q := by
    rw [hbuf, ← List.append_assoc p]
  have hi₁ : i + blank.length = (p ++ blank).length := by rw [List.length_append, hi]
  rw [run_bind_of_ok (str_run hbuf₁ htarget hi₁)]
  by_cases hnone : ∀ b ∈ target, b ∉ blanks
  · rw [versionResult, strspn_append hblank hhead, List.drop_left, strpbrk_eq_none hnone]
    dsimp only
    rw [apply_bad, ← hbuf]
    rfl
  · obtain ⟨url, c, version, rfl, hurl, hc⟩ := exists_cut hnone
    rw [versionResult_cut hblank hurl hhead hc, strpbrk_cut hurl hc]
    dsimp only
    have hurl₀ : 0 ∉ url := fun hmem => htarget (List.mem_append_left _ hmem)
    have hversion₀ : 0 ∉ version := by
      exact fun hmem => htarget (List.mem_append_right _ (List.mem_cons_of_mem _ hmem))
    -- the blank behind the URL becomes a NUL
    have hi₂ : i + blank.length + url.length = (p ++ blank ++ url).length := by
      rw [List.length_append, hi₁]
    rw [run_bind_of_ok (store_run (b := c) (q := version ++ 0 :: q) (by simpa using hbuf₁)
      hi₂ 0)]
    set s₁ : ParseState := { s with
      buffer := p ++ blank ++ url ++ 0 :: (version ++ 0 :: q) } with hs₁
    have hi₃ : i + blank.length + url.length + 1 = (p ++ blank ++ url ++ [0]).length := by
      simp only [List.length_append, List.length_singleton, hi]
    rw [run_bind_of_ok (str_run (s := s₁) (q := q) (by simp [hs₁]) hversion₀ hi₃)]
    -- the version is what follows the blanks behind the URL
    obtain ⟨blank', v, rfl, hblank', hhead'⟩ := exists_span version blanks
    have hv₀ : 0 ∉ v := fun hmem => hversion₀ (List.mem_append_right _ hmem)
    have hi₄ : i + blank.length + url.length + 1 + blank'.length =
        (p ++ blank ++ url ++ [0] ++ blank').length := by
      simp only [List.length_append, List.length_singleton, hi]
    simp only [strspn_append hblank' hhead', List.drop_left]
    rw [run_bind_of_ok (str_run (s := s₁) (q := q) (by simp [hs₁]) hv₀ hi₄)]
    by_cases hversion : strcasecmp v HTTP_1_1 = true
    · rw [if_pos hversion, if_pos hversion, parse_url_run (s := s₁) rfl hurl₀ hi₁]
      cases urlPath url with
      | none => simp [apply_bad, hs₁]
      | some path => simp [LineResult.apply, hs₁]
    · rw [if_neg hversion, if_neg hversion]
      simp [apply_bad, hs₁]

theorem requestlineResult_cut {method rest : List UInt8} (hmethod : ∀ b ∈ method, b ∉ blanks)
    (hc : c ∈ blanks) :
    requestlineResult (method ++ c :: rest) =
      if strcasecmp method GET = true then
        ⟨(versionResult rest).code, method ++ 0 :: (versionResult rest).left,
          .method :: (versionResult rest).messages⟩
      else ⟨.bad_request, method ++ 0 :: rest, []⟩ := by
  rw [requestlineResult, strpbrk_cut hmethod hc]
  simp only [List.take_left, ← List.drop_drop, List.drop_left, List.drop_one, List.tail_cons]

theorem requestlineResult_code (line : List UInt8) :
    (requestlineResult line).code = .bad_request ∨ (requestlineResult line).code = .no_request := by
  unfold requestlineResult
  dsimp only
  split
  · exact Or.inl rfl
  · split_ifs
    · exact versionResult_code _
    · exact Or.inl rfl

theorem requestlineResult_left_length (line : List UInt8) :
    (requestlineResult line).left.length = line.length := by
  by_cases hnone : ∀ b ∈ line, b ∉ blanks
  · rw [requestlineResult, strpbrk_eq_none hnone]
  · obtain ⟨method, c, rest, rfl, hmethod, hc⟩ := exists_cut hnone
    rw [requestlineResult_cut hmethod hc]
    split_ifs
    · simp [versionResult_left_length]
    · simp

theorem parse_requestline_run (hbuf : s.buffer = p ++ line ++ 0 :: q) (hline : 0 ∉ line)
    (hi : i = p.length) :
    (parse_requestline i).run s =
      .ok ((requestlineResult line).code, (requestlineResult line).apply s p q) := by
  rw [parse_requestline, run_bind_of_ok (str_run hbuf hline hi)]
  by_cases hnone : ∀ b ∈ line, b ∉ blanks
  · rw [requestlineResult, strpbrk_eq_none hnone]
    dsimp only
    rw [apply_bad, ← hbuf]
    rfl
  · obtain ⟨method, c, rest, rfl, hmethod, hc⟩ := exists_cut hnone
    rw [requestlineResult_cut hmethod hc, strpbrk_cut hmethod hc]
    dsimp only
    have hmethod₀ : 0 ∉ method := fun hmem => hline (List.mem_append_left _ hmem)
    have hrest₀ : 0 ∉ rest := by
      exact fun hmem => hline (List.mem_append_right _ (List.mem_cons_of_mem _ hmem))
    -- the blank behind the method becomes a NUL
    have hi₁ : i + method.length = (p ++ method).length := by rw [List.length_append, hi]
    rw [run_bind_of_ok (store_run (b := c) (q := rest ++ 0 :: q) (by simpa using hbuf) hi₁ 0)]
    set s₁ : ParseState := { s with buffer := p ++ method ++ 0 :: (rest ++ 0 :: q) } with hs₁
    rw [run_bind_of_ok (str_run (s := s₁) rfl hmethod₀ hi)]
    by_cases hget : strcasecmp method GET = true
    · have hi₂ : i + method.length + 1 = (p ++ method ++ [0]).length := by
        simp only [List.length_append, List.length_singleton, hi]
      rw [if_pos hget, if_pos hget, run_bind_of_ok (print_run _ _),
        parse_version_run (q := q) (by simp [hs₁]) hrest₀ hi₂]
      simp [LineResult.apply, hs₁]
    · rw [if_neg hget, if_neg hget, apply_bad]
      simp [hs₁]

theorem headerResult_code (line : List UInt8) :
    (headerResult line).code = .get_request ∨ (headerResult line).code = .no_request := by
  unfold headerResult
  split_ifs
  · exact Or.inl rfl
  · exact Or.inr rfl
  · exact Or.inr rfl

@[simp] theorem headerResult_left (line : List UInt8) : (headerResult line).left = line := by
  unfold headerResult
  split_ifs <;> rfl

theorem parse_headers_run (hbuf : s.buffer = p ++ line ++ 0 :: q) (hline : 0 ∉ line)
    (hi : i = p.length) :
    (parse_headers i).run s = .ok ((headerResult line).code,
      { s with printed := s.printed ++ (headerResult line).messages }) := by
  cases line with
  | nil =>
      -- the empty line ends the request
      rw [parse_headers, run_bind_of_ok (load_run (c := 0) (q := q) (by simpa using hbuf) hi),
        if_pos rfl]
      simp [headerResult]
  | cons a line =>
      have ha : a ≠ 0 := by
        intro hzero
        exact hline (hzero ▸ List.mem_cons_self ..)
      rw [parse_headers, run_bind_of_ok (load_run (c := a) (q := line ++ 0 :: q) (by simpa using hbuf)
        hi), if_neg ha, run_bind_of_ok (str_run hbuf hline hi), headerResult,
        if_neg (List.cons_ne_nil _ _)]
      by_cases hhost : strncasecmp (a :: line) Host 5 = true
      · rw [if_pos hhost, if_pos hhost]
        -- the host is what follows `Host:` and blanks
        have hlen : 5 ≤ (a :: line).length := strncasecmp_eq_true hhost rfl
        obtain ⟨blank, host, hrest, hblank, hhead⟩ := exists_span ((a :: line).drop 5) blanks
        have hsplit : a :: line = (a :: line).take 5 ++ (blank ++ host) := by
          rw [← hrest, List.take_append_drop]
        have hrest₀ : 0 ∉ blank ++ host := fun hmem => hline (hsplit ▸ List.mem_append_right _ hmem)
        have hhost₀ : 0 ∉ host := fun hmem => hrest₀ (List.mem_append_right _ hmem)
        have hi₁ : i + 5 = (p ++ (a :: line).take 5).length := by
          rw [List.length_append, List.length_take_of_le hlen, hi]
        have hbuf₁ : s.buffer = p ++ (a :: line).take 5 ++ (blank ++ host) ++ 0 :: q := by
          rw [hbuf, List.append_assoc p (List.take 5 (a :: line)), ← hsplit]
        have hi₂ : i + 5 + blank.length = (p ++ (a :: line).take 5 ++ blank).length := by
          rw [List.length_append, hi₁]
        rw [run_bind_of_ok (str_run hbuf₁ hrest₀ hi₁)]
        simp only [strspn_append hblank hhead]
        rw [run_bind_of_ok (str_run (q := q) (by rw [hbuf₁, ← List.append_assoc _ blank]) hhost₀ hi₂),
          run_bind_of_ok (print_run _ _), hrest, strspn_append hblank hhead, List.drop_left]
        rfl
      · rw [if_neg hhost, if_neg hhost, run_bind_of_ok (print_run _ _)]
        rfl

end CLanguageLearning.Http
