import CLanguageLearning.Http.Receive

/-!
# The grammar of a request

A request is a request line, header lines and an empty line, each ended by CR LF. On bytes without a
NUL the parser answers `GET_REQUEST` exactly when some prefix is a request, `NO_REQUEST` exactly
when the bytes are the beginning of one as far as the complete lines show, and `BAD_REQUEST`
otherwise (`parse_content_grammar`). One direction computes what `Reader` makes of a derivation; the
other cuts the bytes at the first line end and goes on behind it.
-/

set_option autoImplicit false

namespace CLanguageLearning.Http

open CLanguageLearning.Foundation

/-! ## The grammar -/

/-- The same letters, in any case. -/
def SameLetters (s t : List UInt8) : Prop := s.map tolower = t.map tolower

/-- Spaces and tabs, at least one. -/
def IsBlank (l : List UInt8) : Prop := l ≠ [] ∧ ∀ b ∈ l, b ∈ blanks

/-- A URL without blanks that starts with `/`, or is `http://` followed by text with a `/`. -/
def IsUrl (url : List UInt8) : Prop :=
  (∀ b ∈ url, b ∉ blanks) ∧
    ((∃ path, url = slash :: path) ∨
      ∃ scheme rest, url = scheme ++ rest ∧ SameLetters scheme httpScheme ∧ slash ∈ rest)

/-- A request line: `GET`, a URL and `HTTP/1.1`, with blanks between them. -/
def IsRequestLine (line : List UInt8) : Prop :=
  ∃ method blank url blank' version, line = method ++ blank ++ url ++ blank' ++ version ∧
    SameLetters method GET ∧ IsBlank blank ∧ IsUrl url ∧ IsBlank blank' ∧
    SameLetters version HTTP_1_1

/-- A header line is any line that is not empty. -/
def IsHeaderLine (line : List UInt8) : Prop := IsLine line ∧ line ≠ []

/-- The lines that come before the empty line: the request line and header lines. -/
def Acceptable : List (List UInt8) → Prop
  | [] => True
  | request :: headers => IsLine request ∧ IsRequestLine request ∧ ∀ h ∈ headers, IsHeaderLine h

/-- The lines `ls` with their ends. -/
def ended (ls : List (List UInt8)) : List UInt8 := ls.flatMap (· ++ CRLF)

/-- A line without its end, or without the second byte of it. -/
def IsUnended (l : List UInt8) : Prop := ∃ line, IsLine line ∧ (l = line ∨ l = line ++ [CR])

/-- Some prefix of the bytes is a request. -/
def HasRequest (l : List UInt8) : Prop :=
  ∃ request headers rest, l = ended (request :: headers) ++ CRLF ++ rest ∧
    Acceptable (request :: headers)

/-- The bytes are acceptable lines, not the empty one, and an unfinished line. -/
def IsUnfinished (l : List UInt8) : Prop :=
  ∃ ls last, l = ended ls ++ last ∧ Acceptable ls ∧ IsUnended last

/-! ## The request line -/

variable {s t url line l : List UInt8}

theorem strcasecmp_iff : strcasecmp s t = true ↔ SameLetters s t := decide_eq_true_iff

/-- Letters are no blanks. -/
theorem SameLetters.not_blank (h : SameLetters s t)
    (ht : (t.map tolower).all (fun b => b ∉ blanks) = true) : ∀ b ∈ s, b ∉ blanks := by
  intro b hb hblank
  have hfix : blanks.all (fun b => tolower b = b) = true := by decide
  have hmem := List.mem_map_of_mem (f := tolower) hb
  rw [h, of_decide_eq_true (List.all_eq_true.mp hfix b hblank)] at hmem
  exact of_decide_eq_true (List.all_eq_true.mp ht b hmem) hblank

theorem SameLetters.length_eq (h : SameLetters s t) : s.length = t.length := by
  have hlen := congrArg List.length h
  rwa [List.length_map, List.length_map] at hlen

theorem strncasecmp_append (h : SameLetters s t) (u : List UInt8) :
    strncasecmp (s ++ u) t t.length = true := by
  rw [strncasecmp, ← h.length_eq, List.take_left, h.length_eq, List.take_length]
  exact strcasecmp_iff.mpr h

theorem urlPath_isSome_iff : (urlPath url).isSome = true ↔
    (∃ path, url = slash :: path) ∨
      ∃ scheme rest, url = scheme ++ rest ∧ SameLetters scheme httpScheme ∧ slash ∈ rest := by
  unfold urlPath
  by_cases hscheme : strncasecmp url httpScheme 7 = true
  · have hletters : SameLetters (url.take 7) httpScheme := strcasecmp_iff.mp hscheme
    rw [if_pos hscheme, Option.isSome_map, strchr_isSome_iff]
    constructor
    · intro hmem
      exact Or.inr ⟨url.take 7, url.drop 7, (List.take_append_drop 7 url).symm, hletters, hmem⟩
    · rintro (⟨path, rfl⟩ | ⟨scheme, rest, rfl, hscheme', hmem⟩)
      · -- a slash is no letter of the scheme
        exact absurd (congrArg List.head? hletters) (by simp [slash, tolower, httpScheme])
      · have hlen : scheme.length = 7 := hscheme'.length_eq
        rwa [List.drop_left' hlen]
  · rw [if_neg hscheme]
    constructor
    · intro hsome
      by_cases hhead : url.head? = some slash
      · obtain ⟨path, hpath⟩ := List.head?_eq_some_iff.mp hhead
        exact Or.inl ⟨path, hpath⟩
      · rw [if_neg hhead] at hsome
        cases hsome
    · rintro (⟨path, rfl⟩ | ⟨scheme, rest, rfl, hscheme', -⟩)
      · rfl
      · exact absurd (strncasecmp_append hscheme' rest) hscheme

/-- The part of the request line behind the method and a blank. -/
theorem versionResult_no_request_iff : (versionResult line).code = .no_request ↔
    ∃ blank url blank' version, line = blank ++ url ++ blank' ++ version ∧
      (∀ b ∈ blank, b ∈ blanks) ∧ IsUrl url ∧ IsBlank blank' ∧ SameLetters version HTTP_1_1 := by
  constructor
  · intro hcode
    obtain ⟨blank, target, rfl, hblank, hhead⟩ := exists_span line blanks
    by_cases hnone : ∀ b ∈ target, b ∉ blanks
    · -- no blank behind the URL: the version is missing
      rw [versionResult, strspn_append hblank hhead, List.drop_left, strpbrk_eq_none hnone] at hcode
      cases hcode
    · obtain ⟨url, c, rest, rfl, hurl, hc⟩ := exists_cut hnone
      obtain ⟨blank', version, rfl, hblank', hhead'⟩ := exists_span rest blanks
      rw [versionResult_cut hblank hurl hhead hc, strspn_append hblank' hhead',
        List.drop_left] at hcode
      split_ifs at hcode with hversion
      have hpath : (urlPath url).isSome = true := by
        cases hpath : urlPath url with
        | none => rw [hpath] at hcode; cases hcode
        | some path => rfl
      exact ⟨blank, url, c :: blank', version, by simp, hblank,
        ⟨hurl, urlPath_isSome_iff.mp hpath⟩,
        ⟨by simp, List.forall_mem_cons.mpr ⟨hc, hblank'⟩⟩, strcasecmp_iff.mp hversion⟩
  · rintro ⟨blank, url, blank', version, rfl, hblank, ⟨hurl, hform⟩, ⟨hne, hblank'⟩, hversion⟩
    obtain ⟨c, blank', rfl⟩ := List.exists_cons_of_ne_nil hne
    rw [List.forall_mem_cons] at hblank'
    have hpath : (urlPath url).isSome = true := urlPath_isSome_iff.mpr hform
    have hurl_ne : url ≠ [] := by
      rintro rfl
      cases hpath
    -- the scan for the first blanks ends where the URL starts
    have hhead : ∀ b ∈ (url ++ c :: (blank' ++ version)).head?, b ∉ blanks := by
      intro b hb
      rw [List.head?_append_of_ne_nil _ hurl_ne] at hb
      exact hurl b (List.mem_of_head? hb)
    have hversion_head : ∀ b ∈ version.head?, b ∉ blanks := by
      intro b hb
      exact hversion.not_blank (by decide) b (List.mem_of_head? hb)
    have hline : blank ++ url ++ c :: blank' ++ version =
        blank ++ (url ++ c :: (blank' ++ version)) := by simp
    rw [hline, versionResult_cut hblank hurl hhead hblank'.1, strspn_append hblank'.2 hversion_head,
      List.drop_left, if_pos (strcasecmp_iff.mpr hversion)]
    obtain ⟨path, hpath⟩ := Option.isSome_iff_exists.mp hpath
    rw [hpath]

theorem requestline_no_request_iff :
    (requestlineResult line).code = .no_request ↔ IsRequestLine line := by
  constructor
  · intro hcode
    by_cases hnone : ∀ b ∈ line, b ∉ blanks
    · -- no blank behind the method
      rw [requestlineResult, strpbrk_eq_none hnone] at hcode
      cases hcode
    · obtain ⟨method, c, rest, rfl, hmethod, hc⟩ := exists_cut hnone
      rw [requestlineResult_cut hmethod hc] at hcode
      split_ifs at hcode with hget
      obtain ⟨blank, url, blank', version, rfl, hblank, hurl, hblank', hversion⟩ :=
        versionResult_no_request_iff.mp hcode
      exact ⟨method, c :: blank, url, blank', version, by simp, strcasecmp_iff.mp hget,
        ⟨by simp, List.forall_mem_cons.mpr ⟨hc, hblank⟩⟩, hurl, hblank', hversion⟩
  · rintro ⟨method, blank, url, blank', version, rfl, hget, ⟨hne, hblank⟩, hurl, hblank', hversion⟩
    obtain ⟨c, blank, rfl⟩ := List.exists_cons_of_ne_nil hne
    rw [List.forall_mem_cons] at hblank
    have hmethod : ∀ b ∈ method, b ∉ blanks := hget.not_blank (by decide)
    have hline : method ++ c :: blank ++ url ++ blank' ++ version =
        method ++ c :: (blank ++ url ++ blank' ++ version) := by simp
    rw [hline, requestlineResult_cut hmethod hblank.1, if_pos (strcasecmp_iff.mpr hget)]
    exact versionResult_no_request_iff.mpr
      ⟨blank, url, blank', version, rfl, hblank.2, hurl, hblank', hversion⟩

/-! ## Lines -/

namespace Reader

variable {r : Reader} {rest : List UInt8}

/-- The result of the parse, when nothing follows. -/
def outcome : Except (HttpCode × Reader) Reader → HttpCode
  | .ok _ => .no_request
  | .error e => e.1

/-- A line is read to its end. -/
theorem read_ended (hcr : r.cr = false) (hline : IsLine line) (rest : List UInt8) :
    r.read (line ++ CRLF ++ rest) =
      (r.keep line).endLine >>= fun r => r.read rest := by
  rw [List.append_assoc, read_line hcr hline]
  exact read_crlf (r := r.keep line) hcr rest

/-- Bytes that end no line leave the parse open. -/
theorem outcome_unended (hcr : r.cr = false) (hl : IsUnended l) :
    outcome (r.read l) = .no_request := by
  obtain ⟨line, hline, rfl | rfl⟩ := hl
  · rw [← List.append_nil l, read_line hcr hline]
    rfl
  · rw [read_line hcr hline, read_of_feed (feed_cr (r := r.keep line) hcr)]
    rfl

end Reader

/-- The bytes up to the first line end are a line, or there is a stray byte before it. -/
theorem exists_line (l : List UInt8) : IsUnended l ∨
    (∃ line rest, l = line ++ CRLF ++ rest ∧ IsLine line) ∨
      ∀ r : Reader, r.cr = false → Reader.outcome (r.read l) = .bad_request := by
  by_cases hnone : IsLine l
  · exact Or.inl ⟨l, hnone, Or.inl rfl⟩
  · obtain ⟨line, c, rest, rfl, hline, hc⟩ := exists_cut hnone
    rw [CRLF, List.mem_cons, List.mem_singleton] at hc
    rcases hc with rfl | rfl
    · cases rest with
      | nil => exact Or.inl ⟨line, hline, Or.inr rfl⟩
      | cons d rest =>
          by_cases hd : d = LF
          · subst hd
            exact Or.inr (Or.inl ⟨line, rest, by simp [CRLF], hline⟩)
          · refine Or.inr (Or.inr ?_)
            intro r hcr
            rw [Reader.read_line hcr hline, Reader.read_stray_cr (r := r.keep line) hcr hd]
            rfl
    · refine Or.inr (Or.inr ?_)
      intro r hcr
      rw [Reader.read_line hcr hline, Reader.read_stray_lf (r := r.keep line) hcr]
      rfl

/-! ## Requests -/

variable {r : Reader} {ls : List (List UInt8)}

/-- In front of a line. -/
structure Reader.Fresh (r : Reader) (checkstate : CheckState) : Prop where
  checkstate : r.checkstate = checkstate
  line : r.line = []
  cr : r.cr = false

theorem Reader.fresh_start : Reader.start.Fresh .requestline := ⟨rfl, rfl, rfl⟩

/-- The string of a line without a NUL is the line. -/
theorem Reader.Fresh.text_keep {checkstate : CheckState} (h : r.Fresh checkstate)
    (hline : 0 ∉ line) : (r.keep line).text = line := by
  rw [Reader.text, Reader.keep, h.line, List.nil_append, List.takeWhile_eq_self_iff]
  intro b hb
  exact decide_eq_true fun hzero => hline (hzero ▸ hb)

theorem Reader.Fresh.result_requestline (h : r.Fresh .requestline) (hline : 0 ∉ line) :
    (r.keep line).result = requestlineResult line := by
  have hstate : (r.keep line).checkstate = .requestline := h.checkstate
  rw [Reader.result, hstate, h.text_keep hline]

theorem Reader.Fresh.result_header (h : r.Fresh .header) (hline : 0 ∉ line) :
    (r.keep line).result = headerResult line := by
  have hstate : (r.keep line).checkstate = .header := h.checkstate
  rw [Reader.result, hstate, h.text_keep hline]

/-- A request line that is accepted. -/
theorem Reader.Fresh.endLine_requestline (h : r.Fresh .requestline) (hline : 0 ∉ line)
    (hrequest : IsRequestLine line) :
    ∃ r' : Reader, (r.keep line).endLine = .ok r' ∧ r'.Fresh .header := by
  have hcode : (r.keep line).result.code = .no_request := by
    rw [h.result_requestline hline]
    exact requestline_no_request_iff.mpr hrequest
  have hstate : (r.keep line).checkstate = .requestline := h.checkstate
  refine ⟨(r.keep line).advance, ?_, ?_, rfl, rfl⟩
  · rw [Reader.endLine, if_pos hcode]
  · rw [Reader.advance, if_pos ⟨hstate, hcode⟩]

/-- A request line that is refused. -/
theorem Reader.Fresh.endLine_bad (h : r.Fresh .requestline) (hline : 0 ∉ line)
    (hrequest : ¬ IsRequestLine line) :
    ∃ r' : Reader, (r.keep line).endLine = .error (.bad_request, r') := by
  have hcode : (r.keep line).result.code = .bad_request := by
    rw [h.result_requestline hline]
    exact (requestlineResult_code line).resolve_right fun hno =>
      hrequest (requestline_no_request_iff.mp hno)
  refine ⟨(r.keep line).advance, ?_⟩
  rw [Reader.endLine, hcode, if_neg (by simp)]

/-- A header line. -/
theorem Reader.Fresh.endLine_header (h : r.Fresh .header) (hline : 0 ∉ line) (hne : line ≠ []) :
    ∃ r' : Reader, (r.keep line).endLine = .ok r' ∧ r'.Fresh .header := by
  have hcode : (r.keep line).result.code = .no_request := by
    rw [h.result_header hline, headerResult, if_neg hne]
    split_ifs <;> rfl
  have hstate : (r.keep line).checkstate = .header := h.checkstate
  refine ⟨(r.keep line).advance, ?_, ?_, rfl, rfl⟩
  · rw [Reader.endLine, if_pos hcode]
  · rw [Reader.advance, if_neg (by simp [hstate])]
    exact hstate

/-- The empty line. -/
theorem Reader.Fresh.endLine_nil (h : r.Fresh .header) :
    ∃ r' : Reader, (r.keep []).endLine = .error (.get_request, r') := by
  have hcode : (r.keep []).result.code = .get_request := by
    rw [h.result_header List.not_mem_nil]
    rfl
  refine ⟨(r.keep []).advance, ?_⟩
  rw [Reader.endLine, hcode, if_neg (by simp)]

/-- Header lines are passed. -/
theorem Reader.Fresh.read_headers (h : r.Fresh .header) (hnul : 0 ∉ ended ls)
    (hls : ∀ line ∈ ls, IsHeaderLine line) :
    ∃ r' : Reader, r'.Fresh .header ∧ ∀ rest, r.read (ended ls ++ rest) = r'.read rest := by
  induction ls generalizing r with
  | nil => exact ⟨r, h, fun rest => rfl⟩
  | cons line ls ih =>
      obtain ⟨⟨hline, hne⟩, hls⟩ := List.forall_mem_cons.mp hls
      have hcons : ended (line :: ls) = line ++ CRLF ++ ended ls := rfl
      rw [hcons, List.mem_append, List.mem_append, not_or, not_or] at hnul
      obtain ⟨u, hu, hfresh⟩ := h.endLine_header hnul.1.1 hne
      obtain ⟨r', hr', hread⟩ := ih hfresh hnul.2 hls
      refine ⟨r', hr', ?_⟩
      intro rest
      rw [hcons, List.append_assoc, Reader.read_ended h.cr hline, hu]
      exact hread rest

/-- Acceptable lines are passed. -/
theorem read_acceptable (hnul : 0 ∉ ended ls) (hls : Acceptable ls) :
    ∃ r' : Reader, r'.cr = false ∧ (ls ≠ [] → r'.Fresh .header) ∧
      ∀ rest, Reader.start.read (ended ls ++ rest) = r'.read rest := by
  cases ls with
  | nil => exact ⟨Reader.start, rfl, fun hne => absurd rfl hne, fun rest => rfl⟩
  | cons request headers =>
      obtain ⟨hline, hrequest, hheaders⟩ := hls
      have hcons : ended (request :: headers) = request ++ CRLF ++ ended headers := rfl
      rw [hcons, List.mem_append, List.mem_append, not_or, not_or] at hnul
      obtain ⟨u, hu, hfresh⟩ := Reader.fresh_start.endLine_requestline hnul.1.1 hrequest
      obtain ⟨r', hr', hread⟩ := hfresh.read_headers hnul.2 hheaders
      refine ⟨r', hr'.cr, fun _ => hr', ?_⟩
      intro rest
      rw [hcons, List.append_assoc, Reader.read_ended rfl hline, hu]
      exact hread rest

theorem outcome_request (hnul : 0 ∉ l) (h : HasRequest l) :
    Reader.outcome (Reader.start.read l) = .get_request := by
  obtain ⟨request, headers, rest, rfl, hls⟩ := h
  rw [List.append_assoc, List.mem_append, not_or] at hnul
  obtain ⟨r, -, hfresh, hread⟩ := read_acceptable hnul.1 hls
  have hheader : r.Fresh .header := hfresh (List.cons_ne_nil _ _)
  obtain ⟨r', hr'⟩ := hheader.endLine_nil
  have hline : IsLine [] := fun b hb => absurd hb List.not_mem_nil
  have hempty := Reader.read_ended hheader.cr hline rest
  rw [List.nil_append, hr'] at hempty
  rw [List.append_assoc, hread, hempty]
  rfl

theorem outcome_unfinished (hnul : 0 ∉ l) (h : IsUnfinished l) :
    Reader.outcome (Reader.start.read l) = .no_request := by
  obtain ⟨ls, last, rfl, hls, hlast⟩ := h
  rw [List.mem_append, not_or] at hnul
  obtain ⟨r, hcr, -, hread⟩ := read_acceptable hnul.1 hls
  rw [hread]
  exact Reader.outcome_unended hcr hlast

/-- Behind the request line the bytes have a request, are unfinished or are refused. The induction
is on the lines of the bytes. -/
theorem Reader.Fresh.header_cases (h : r.Fresh .header) (hnul : 0 ∉ l) :
    (∃ hs rest, l = ended hs ++ CRLF ++ rest ∧ ∀ line ∈ hs, IsHeaderLine line) ∨
      (∃ hs last, l = ended hs ++ last ∧ (∀ line ∈ hs, IsHeaderLine line) ∧ IsUnended last) ∨
      Reader.outcome (r.read l) = .bad_request := by
  induction hn : l.length using Nat.strong_induction_on generalizing r l with
  | _ n ih =>
      rcases exists_line l with hunended | ⟨line, rest, rfl, hline⟩ | hbad
      · exact Or.inr (Or.inl ⟨[], l, rfl, fun _ hmem => absurd hmem List.not_mem_nil, hunended⟩)
      · by_cases hne : line = []
        · subst hne
          exact Or.inl ⟨[], rest, rfl, fun _ hmem => absurd hmem List.not_mem_nil⟩
        · rw [List.mem_append, List.mem_append, not_or, not_or] at hnul
          have hlt : rest.length < n := by
            rw [← hn, List.length_append, List.length_append, CRLF, List.length_cons]
            omega
          have hheader : IsHeaderLine line := ⟨hline, hne⟩
          obtain ⟨u, hu, hfresh⟩ := h.endLine_header hnul.1.1 hne
          rcases ih rest.length hlt hfresh hnul.2 rfl with
            ⟨hs, rest', rfl, hhs⟩ | ⟨hs, last, rfl, hhs, hlast⟩ | hbad
          · refine Or.inl ⟨line :: hs, rest', ?_, List.forall_mem_cons.mpr ⟨hheader, hhs⟩⟩
            simp [ended]
          · refine Or.inr (Or.inl ⟨line :: hs, last, ?_, List.forall_mem_cons.mpr ⟨hheader, hhs⟩,
              hlast⟩)
            simp [ended]
          · refine Or.inr (Or.inr ?_)
            rw [Reader.read_ended h.cr hline, hu]
            exact hbad
      · exact Or.inr (Or.inr (hbad r h.cr))

theorem request_cases (hnul : 0 ∉ l) :
    HasRequest l ∨ IsUnfinished l ∨ Reader.outcome (Reader.start.read l) = .bad_request := by
  rcases exists_line l with hunended | ⟨line, rest, rfl, hline⟩ | hbad
  · exact Or.inr (Or.inl ⟨[], l, rfl, trivial, hunended⟩)
  · rw [List.mem_append, List.mem_append, not_or, not_or] at hnul
    by_cases hrequest : IsRequestLine line
    · obtain ⟨u, hu, hfresh⟩ := Reader.fresh_start.endLine_requestline hnul.1.1 hrequest
      rcases hfresh.header_cases hnul.2 with
        ⟨hs, rest', rfl, hhs⟩ | ⟨hs, last, rfl, hhs, hlast⟩ | hbad
      · exact Or.inl ⟨line, hs, rest', by simp [ended], hline, hrequest, hhs⟩
      · exact Or.inr (Or.inl ⟨line :: hs, last, by simp [ended], ⟨hline, hrequest, hhs⟩, hlast⟩)
      · refine Or.inr (Or.inr ?_)
        rw [Reader.read_ended rfl hline, hu]
        exact hbad
    · obtain ⟨u, hu⟩ := Reader.fresh_start.endLine_bad hnul.1.1 hrequest
      refine Or.inr (Or.inr ?_)
      rw [Reader.read_ended rfl hline, hu]
      rfl
  · exact Or.inr (Or.inr (hbad Reader.start rfl))

/-- On bytes without a NUL a call of `parse_content` from the initial state answers `GET_REQUEST` if
and only if some prefix is a request, `NO_REQUEST` if and only if the bytes are acceptable lines and
an unfinished one, and `BAD_REQUEST` in all other cases. -/
theorem parse_content_grammar (hnul : 0 ∉ l) :
    ∃ code t, Returns parse_content (ParseState.start l) (code, t) ∧
      (code = .get_request ↔ HasRequest l) ∧ (code = .no_request ↔ IsUnfinished l) ∧
      (code = .bad_request ↔ ¬ HasRequest l ∧ ¬ IsUnfinished l) := by
  obtain ⟨code, t, q, hagrees, hparse⟩ := parse_run l
  refine ⟨code, t, hparse, ?_⟩
  have hcode : code = Reader.outcome (Reader.start.read l) := by
    cases hread : Reader.start.read l with
    | ok r => rw [hread] at hagrees; exact hagrees.1
    | error e => rw [hread] at hagrees; exact hagrees.1
  have hget : HasRequest l → code = .get_request := fun h => hcode.trans (outcome_request hnul h)
  have hno : IsUnfinished l → code = .no_request := fun h => hcode.trans (outcome_unfinished hnul h)
  -- the three outcomes exclude each other, and one of them holds
  have hcases : HasRequest l ∨ IsUnfinished l ∨ code = .bad_request := by
    rw [hcode]
    exact request_cases hnul
  refine ⟨⟨?_, hget⟩, ⟨?_, hno⟩, ?_, ?_⟩
  · rintro rfl
    rcases hcases with h | h | h
    · exact h
    · cases hno h
    · cases h
  · rintro rfl
    rcases hcases with h | h | h
    · cases hget h
    · exact h
    · cases h
  · rintro rfl
    constructor
    · intro h
      cases hget h
    · intro h
      cases hno h
  · rintro ⟨h, h'⟩
    exact (hcases.resolve_left h).resolve_left h'

/-- `"GET / HTTP/1.1"`. -/
def rootLine : List UInt8 := GET ++ [32, slash, 32] ++ HTTP_1_1

/-- A request with one header line, `Host:a`, is accepted. -/
theorem parse_content_grammar_request :
    ∃ t, Returns parse_content (ParseState.start (ended [rootLine, Host ++ [97]] ++ CRLF))
      (.get_request, t) := by
  have hnul : 0 ∉ ended [rootLine, Host ++ [97]] ++ CRLF := by
    simp [ended, rootLine, Host, GET, HTTP_1_1, CRLF, slash, CR, LF]
  have hrequest : IsRequestLine rootLine :=
    ⟨GET, [32], [slash], [32], HTTP_1_1, rfl, rfl, ⟨by simp, by simp [blanks]⟩,
      ⟨by simp [blanks, slash], Or.inl ⟨[], rfl⟩⟩, ⟨by simp, by simp [blanks]⟩, rfl⟩
  have hline : IsLine rootLine := by
    simp [IsLine, rootLine, GET, HTTP_1_1, CRLF, slash, CR, LF]
  have hheader : ∀ h ∈ [Host ++ [97]], IsHeaderLine h := by
    simp [IsHeaderLine, IsLine, Host, CRLF, CR, LF]
  obtain ⟨code, t, hparse, hget, -⟩ := parse_content_grammar hnul
  obtain rfl := hget.mpr ⟨rootLine, [Host ++ [97]], [], rfl, hline, hrequest, hheader⟩
  exact ⟨t, hparse⟩

end CLanguageLearning.Http
