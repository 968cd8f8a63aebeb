import CLanguageLearning.Http.Reader

/-!
# The parser reads byte by byte

`Holds` relates the buffer and the indices of the parser to a `Reader`. A call of `parse_content`
reads the bytes received since the last call (`parse_content_run`), and the loop of `main` reads all
that it receives (`receive_run`), so that the result does not depend on how the bytes arrive
(`receive_eq_parse`).
-/

set_option autoImplicit false

namespace CLanguageLearning.Http

open CLanguageLearning.Foundation

/-- The buffer holds what `r` has made of the bytes before `checked_index`, then the received bytes
`rest` that `parse_line` has not passed, then `q`. -/
structure Holds (s : ParseState) (r : Reader) (rest q : List UInt8) : Prop where
  buffer : s.buffer = r.parsed ++ r.line ++ rest ++ q
  start_line : s.start_line = r.parsed.length
  checked_index : s.checked_index = r.parsed.length + r.line.length
  read_index : s.read_index = s.checked_index + rest.length
  checkstate : s.checkstate = r.checkstate
  printed : s.printed = r.printed
  last : ∀ b ∈ (r.parsed ++ r.line).getLast?, b ≠ CR

/-- The same when `parse_line` has just ended the line. -/
structure Complete (s : ParseState) (r : Reader) (rest q : List UInt8) : Prop where
  buffer : s.buffer = r.parsed ++ r.line ++ 0 :: 0 :: rest ++ q
  start_line : s.start_line = r.parsed.length
  checked_index : s.checked_index = r.parsed.length + r.line.length + 2
  read_index : s.read_index = s.checked_index + rest.length
  checkstate : s.checkstate = r.checkstate
  printed : s.printed = r.printed

/-- The parser has parsed what `r` has. -/
structure Parsed (s : ParseState) (r : Reader) : Prop where
  checkstate : s.checkstate = r.checkstate
  printed : s.printed = r.printed
  start_line : s.start_line = r.parsed.length
  buffer : s.buffer.take s.start_line = r.parsed

variable {s t : ParseState} {r : Reader} {rest q : List UInt8}

theorem Holds.toParsed (h : Holds s r rest q) : Parsed s r where
  checkstate := h.checkstate
  printed := h.printed
  start_line := h.start_line
  buffer := by rw [h.buffer, h.start_line, List.append_assoc, List.append_assoc, List.take_left]

theorem Holds.setCr (h : Holds s r rest q) (b : Bool) : Holds s { r with cr := b } rest q :=
  ⟨h.buffer, h.start_line, h.checked_index, h.read_index, h.checkstate, h.printed, h.last⟩

/-- The bytes of a line are passed. -/
theorem Holds.keep {line : List UInt8} (h : Holds s r (line ++ rest) q) (hline : IsLine line) :
    Holds { s with checked_index := (r.parsed ++ r.line ++ line).length } (r.keep line) rest q where
  buffer := by simp [h.buffer, Reader.keep]
  start_line := h.start_line
  checked_index := by simp [Reader.keep]
  read_index := by
    show s.read_index = (r.parsed ++ r.line ++ line).length + rest.length
    rw [h.read_index, h.checked_index, List.length_append, List.length_append, List.length_append]
    omega
  checkstate := h.checkstate
  printed := h.printed
  last := by
    rw [Reader.keep, ← List.append_assoc]
    exact hline.last_append h.last

/-- The parser with the bytes received as its buffer. -/
theorem Holds.unread (h : Holds s r rest q) :
    ({ s with buffer := r.parsed ++ r.line ++ rest } : ParseState).extend q = s ∧
      Unread { s with buffer := r.parsed ++ r.line ++ rest } (r.parsed ++ r.line) rest := by
  have hchecked : s.checked_index = (r.parsed ++ r.line).length := by
    rw [h.checked_index, List.length_append]
  refine ⟨?_, rfl, hchecked, ?_, h.last⟩
  · rw [ParseState.extend, ← h.buffer]
  · rw [← hchecked]
    exact h.read_index

/-- What a call of `parse_line` makes of the received bytes. -/
inductive Scan (r : Reader) (rest q : List UInt8) : LineStatus → ParseState → Prop where
  | line_open {t : ParseState} {r' : Reader} (hread : r.read rest = .ok r')
      (h : Holds t r' r'.pending q) : Scan r rest q .line_open t
  | line_ok {t : ParseState} {r' : Reader} {rest' : List UInt8}
      (hread : r.read rest = r'.endLine >>= fun r => r.read rest')
      (hlt : rest'.length < rest.length) (h : Complete t r' rest' q) : Scan r rest q .line_ok t
  | line_bad {t : ParseState} {r' : Reader} (hread : r.read rest = .error (.bad_request, r'))
      (h : Parsed t r') : Scan r rest q .line_bad t

theorem parse_line_run (h : Holds s r rest q) (hcr : r.cr = false) :
    ∃ status t, parse_line.run s = .ok (status, t) ∧ Scan r rest q status t := by
  obtain ⟨hs, hunread⟩ := h.unread
  obtain ⟨status, t, hscan, hrun⟩ := hunread.parse_line_scans
  refine ⟨status, t.extend q, hs ▸ hrun q, ?_⟩
  have hstop : ∀ k, ({ s with buffer := r.parsed ++ r.line ++ rest, checked_index := k } :
      ParseState).extend q = { s with checked_index := k } := by
    intro k
    rw [ParseState.extend, ← h.buffer]
  have hkept : ∀ line, (r.keep line).cr = r.cr := fun line => rfl
  cases hscan with
  | line_open hline =>
      have hread : r.read rest = .ok (r.keep rest) := by
        have hline' := Reader.read_line hcr hline []
        rwa [List.append_nil, Reader.read_nil] at hline'
      have hpending : (r.keep rest).pending = [] := by
        rw [Reader.pending, hkept, if_neg (by simp [hcr])]
      rw [← List.append_nil rest] at h
      refine .line_open hread ?_
      rw [hstop, hpending]
      exact h.keep hline
  | @line_open_cr line hline =>
      have hread : r.read (line ++ [CR]) = .ok { r.keep line with cr := true } := by
        rw [Reader.read_line hcr hline]
        exact Reader.read_of_feed (Reader.feed_cr (r := r.keep line) hcr) []
      refine .line_open hread ?_
      rw [hstop]
      exact (h.keep hline).setCr true
  | @line_ok line rest' hline =>
      have hread : r.read (line ++ CR :: LF :: rest') =
          (r.keep line).endLine >>= fun r => r.read rest' := by
        rw [Reader.read_line hcr hline, Reader.read_crlf (r := r.keep line) hcr]
      refine .line_ok hread (by simp; omega) ?_
      have hindex := h.read_index
      have hchecked := h.checked_index
      constructor
      case buffer => simp [Reader.keep]
      case start_line => exact h.start_line
      case checked_index => simp [Reader.keep]
      case read_index =>
        simp only [List.length_append, List.length_cons] at hindex
        simp only [read_index_extend, checked_index_extend, List.length_append]
        omega
      case checkstate => exact h.checkstate
      case printed => exact h.printed
  | @stray_cr line rest' c hline hc =>
      refine .line_bad ((Reader.read_line hcr hline _).trans
        (Reader.read_stray_cr (r := r.keep line) hcr hc rest')) ?_
      rw [hstop]
      exact ((h.keep hline).setCr true).toParsed
  | @stray_lf line rest' hline =>
      refine .line_bad ((Reader.read_line hcr hline _).trans
        (Reader.read_stray_lf (r := r.keep line) hcr rest')) ?_
      rw [hstop]
      exact (h.keep hline).toParsed

/-- `advance` leaves the parser in front of the next line. -/
theorem Holds.advance {s : ParseState} (h : Complete s r rest q) (ht : t.buffer =
      r.parsed ++ r.result.left ++ r.line.dropWhile (· ≠ 0) ++ [0, 0] ++ rest ++ q)
    (hstart : t.start_line = s.checked_index)
    (hchecked : t.checked_index = s.checked_index) (hread : t.read_index = s.read_index)
    (hstate : t.checkstate = r.advance.checkstate)
    (hprinted : t.printed = r.printed ++ r.result.messages) : Holds t r.advance rest q := by
  have hlen : r.advance.parsed.length = s.checked_index := by
    have hline := congrArg List.length
      (List.takeWhile_append_dropWhile (p := (· ≠ 0)) (l := r.line))
    rw [List.length_append] at hline
    rw [h.checked_index, Reader.advance, List.length_append, List.length_append, List.length_append,
      r.result_left_length, Reader.text, ← hline]
    simp [Nat.add_assoc]
  constructor
  case buffer => simpa [Reader.advance] using ht
  case start_line => rw [hstart, hlen]
  case checked_index => rw [hchecked, hlen]; rfl
  case read_index => rw [hread, h.read_index, hchecked]
  case checkstate => exact hstate
  case printed => exact hprinted
  case last =>
    intro b hb
    have hb : b ∈
        ((r.parsed ++ r.result.left ++ r.line.dropWhile (· ≠ 0) ++ [0, 0]) ++ []).getLast? := hb
    rw [List.append_nil, List.getLast?_append_of_ne_nil _ (by simp)] at hb
    cases hb
    decide

/-- A complete line ends the call, or the call goes on behind it. -/
theorem parse_content_line_ok {s₀ : ParseState} (hline : parse_line.run s₀ = .ok (.line_ok, s))
    (h : Complete s r rest q) :
    ∃ t, Holds t r.advance rest q ∧ ∀ fuel, (parse_content (fuel + 1)).run s₀ =
      if r.result.code = .no_request then (parse_content fuel).run t
      else .ok (r.result.code, t) := by
  obtain ⟨htext, q', hq'⟩ := r.cut_text
  have hbuf : s.buffer = r.parsed ++ r.text ++ 0 :: (q' ++ rest ++ q) := by
    have hcut : r.line ++ [0, 0] = r.text ++ 0 :: q' := by
      rw [← hq', ← List.append_assoc, Reader.text, List.takeWhile_append_dropWhile]
    have hsplit : s.buffer = r.parsed ++ (r.line ++ [0, 0]) ++ rest ++ q := by
      rw [h.buffer]
      simp
    rw [hsplit, hcut]
    simp
  -- the bytes from the string to the next line, with the string replaced
  have hnew : r.parsed ++ r.result.left ++ 0 :: (q' ++ rest ++ q) =
      r.parsed ++ r.result.left ++ r.line.dropWhile (· ≠ 0) ++ [0, 0] ++ rest ++ q := by
    rw [List.append_assoc _ _ [0, 0], hq']
    simp
  simp only [parse_content, run_bind_of_ok hline]
  have hstate := h.checkstate
  have hprinted := h.printed
  have hstart := h.start_line
  rcases s with ⟨buffer, read_index, checked_index, start_line, checkstate, printed, sent⟩
  dsimp only at hstate hprinted hstart hbuf
  subst hstate
  subst hprinted
  cases hcase : r.checkstate with
  | requestline =>
      -- the request line is cut in place, and the next line is a header
      have hresult : r.result = requestlineResult r.text := by rw [Reader.result, hcase]
      refine ⟨r.result.apply ⟨buffer, read_index, checked_index, checked_index, .requestline,
        r.printed, sent⟩ r.parsed (q' ++ rest ++ q), Holds.advance h hnew rfl rfl rfl ?_ rfl, ?_⟩
      · rw [Reader.advance, hcase, LineResult.apply]
        simp
      · intro fuel
        rw [run_bind_of_ok rfl, run_bind_of_ok rfl]
        dsimp only
        rw [run_bind_of_ok (parse_requestline_run hbuf htext hstart), ← hresult]
        rcases requestlineResult_code r.text with hcode | hcode
        · rw [hresult, hcode, if_pos rfl, if_neg (by simp)]
          rfl
        · rw [hresult, hcode, if_neg (by simp), if_pos rfl]
  | header =>
      -- a header line stays as it is
      have hresult : r.result = headerResult r.text := by rw [Reader.result, hcase]
      have hleft : r.result.left = r.text := by rw [hresult, headerResult_left]
      refine ⟨⟨buffer, read_index, checked_index, checked_index, .header,
        r.printed ++ r.result.messages, sent⟩, Holds.advance h ?_ rfl rfl rfl ?_ rfl, ?_⟩
      · rw [← hnew, hleft]
        exact hbuf
      · rw [Reader.advance, hcase]
        rfl
      · intro fuel
        rw [run_bind_of_ok rfl, run_bind_of_ok rfl]
        dsimp only
        rw [run_bind_of_ok (parse_headers_run hbuf htext hstart), ← hresult]
        rcases headerResult_code r.text with hcode | hcode
        · rw [hresult, hcode, if_neg (by simp), if_pos rfl, if_neg (by simp)]
          rfl
        · rw [hresult, hcode, if_neg (by simp), if_neg (by simp), if_pos rfl]
  | content =>
      -- no line leads to this state, and the code answers an error in it
      have hresult : r.result = ⟨.internal_error, r.text, []⟩ := by rw [Reader.result, hcase]
      rw [hresult] at hnew ⊢
      refine ⟨⟨buffer, read_index, checked_index, checked_index, .content, r.printed, sent⟩,
        Holds.advance h ?_ rfl rfl rfl ?_ ?_, fun fuel => rfl⟩
      · rw [hresult, ← hnew]
        exact hbuf
      · rw [Reader.advance, hcase]
        rfl
      · rw [hresult, List.append_nil]

/-- What the parser has after reading with this outcome: the bytes go on, or the parse has ended. -/
def Agrees (code : HttpCode) (t : ParseState) (q : List UInt8) :
    Except (HttpCode × Reader) Reader → Prop
  | .ok r => code = .no_request ∧ Holds t r r.pending q
  | .error (c, r) => code = c ∧ c ≠ .no_request ∧ Parsed t r

/-- A call of `parse_content` reads the bytes that it has not seen. -/
theorem parse_content_run (h : Holds s r rest q) (hcr : r.cr = false) :
    ∃ code t, Agrees code t q (r.read rest) ∧
      ∀ fuel, rest.length < fuel → (parse_content fuel).run s = .ok (code, t) := by
  induction hn : rest.length using Nat.strong_induction_on generalizing s r rest with
  | _ n ih =>
      obtain ⟨status, u, hline, hscan⟩ := parse_line_run h hcr
      cases hscan with
      | line_open hread hu =>
          refine ⟨.no_request, u, hread ▸ ⟨rfl, hu⟩, ?_⟩
          intro fuel hfuel
          obtain ⟨fuel, rfl⟩ := Nat.exists_eq_succ_of_ne_zero (Nat.ne_zero_of_lt hfuel)
          rw [parse_content, run_bind_of_ok hline]
          rfl
      | line_bad hread hu =>
          refine ⟨.bad_request, u, hread ▸ ⟨rfl, by simp, hu⟩, ?_⟩
          intro fuel hfuel
          obtain ⟨fuel, rfl⟩ := Nat.exists_eq_succ_of_ne_zero (Nat.ne_zero_of_lt hfuel)
          rw [parse_content, run_bind_of_ok hline]
          rfl
      | @line_ok _ r' rest' hread hlt hu =>
          -- fewer bytes are left behind a complete line
          obtain ⟨t, ht, hrun⟩ := parse_content_line_ok hline hu
          rw [hread]
          by_cases hcode : r'.result.code = .no_request
          · obtain ⟨code, v, hv, hrest⟩ := ih rest'.length (hn ▸ hlt) ht rfl rfl
            refine ⟨code, v, by rw [Reader.endLine, if_pos hcode]; exact hv, ?_⟩
            intro fuel hfuel
            obtain ⟨fuel, rfl⟩ := Nat.exists_eq_succ_of_ne_zero (Nat.ne_zero_of_lt hfuel)
            rw [hrun, if_pos hcode]
            exact hrest fuel (by omega)
          · refine ⟨r'.result.code, t, ?_, ?_⟩
            · rw [Reader.endLine, if_neg hcode]
              exact ⟨rfl, hcode, ht.toParsed⟩
            · intro fuel hfuel
              obtain ⟨fuel, rfl⟩ := Nat.exists_eq_succ_of_ne_zero (Nat.ne_zero_of_lt hfuel)
              rw [hrun, if_neg hcode]

/-- The received bytes come behind those received before. -/
theorem recv_run {chunk : List UInt8} (h : Holds s r rest q) (hroom : chunk.length ≤ q.length) :
    ∃ t, (recv chunk).run s = .ok ((), t) ∧ Holds t r (rest ++ chunk) (q.drop chunk.length) := by
  have hread : s.read_index = (r.parsed ++ r.line ++ rest).length := by
    rw [h.read_index, h.checked_index, List.length_append, List.length_append]
  have hfit : s.read_index + chunk.length ≤ s.buffer.length := by
    have hlen := congrArg List.length h.buffer
    rw [List.length_append, ← hread] at hlen
    omega
  refine ⟨_, recv_run_eq hfit, ?_⟩
  constructor
  case buffer =>
    show s.buffer.take s.read_index ++ chunk ++ s.buffer.drop (s.read_index + chunk.length) = _
    rw [← List.drop_drop, hread, h.buffer, List.take_left, List.drop_left]
    simp
  case start_line => exact h.start_line
  case checked_index => exact h.checked_index
  case read_index =>
    show s.read_index + chunk.length = s.checked_index + (rest ++ chunk).length
    rw [h.read_index, List.length_append, Nat.add_assoc]
  case checkstate => exact h.checkstate
  case printed => exact h.printed
  case last => exact h.last

/-- The loop of `main` reads the chunks one after the other. -/
theorem receive_run {chunks : List (List UInt8)} (h : Holds s r r.pending q)
    (hne : ∀ chunk ∈ chunks, chunk ≠ []) (hroom : chunks.flatten.length ≤ q.length) :
    ∃ code t q', Agrees code t q' (r.read chunks.flatten) ∧
      ∀ fuel, chunks.flatten.length + 1 < fuel → (receive fuel chunks).run s = .ok (code, t) := by
  induction chunks generalizing s r q with
  | nil => exact ⟨.no_request, s, q, ⟨rfl, h⟩, fun _ _ => rfl⟩
  | cons chunk chunks ih =>
      rw [List.flatten_cons, List.length_append] at hroom
      have hchunk : chunk ≠ [] := hne chunk (List.mem_cons_self ..)
      obtain ⟨u, hu, hheld⟩ := recv_run h (show chunk.length ≤ q.length by omega)
      have hlen : (r.pending ++ chunk).length ≤ chunk.length + 1 := by
        have hpending := r.pending_length_le
        rw [List.length_append]
        omega
      obtain ⟨code, t, hagrees, hrun⟩ := parse_content_run (hheld.setCr false) rfl
      rw [Reader.read_pending] at hagrees
      rw [List.flatten_cons, Reader.read_append, List.length_append]
      cases hread : r.read chunk with
      | ok r' =>
          rw [hread] at hagrees
          obtain ⟨rfl, ht⟩ := hagrees
          obtain ⟨code, v, q', hv, hrest⟩ := ih ht
            (fun c hc => hne c (List.mem_cons_of_mem _ hc)) (by rw [List.length_drop]; omega)
          refine ⟨code, v, q', hv, ?_⟩
          intro fuel hfuel
          rw [receive, run_bind_of_ok hu, if_neg hchunk,
            run_bind_of_ok (hrun fuel (by omega)), if_pos rfl]
          exact hrest fuel (by omega)
      | error e =>
          rw [hread] at hagrees
          obtain ⟨rfl, hcode, ht⟩ := hagrees
          refine ⟨e.1, { t with sent := t.sent ++ [szret e.1] }, q,
            ⟨rfl, hcode, ht.checkstate, ht.printed, ht.start_line, ht.buffer⟩, ?_⟩
          intro fuel hfuel
          rw [receive, run_bind_of_ok hu, if_neg hchunk,
            run_bind_of_ok (hrun fuel (by omega)), if_neg hcode]
          rfl

/-- The buffer with the bytes `l`, before the first of them is parsed. -/
theorem holds_start (l : List UInt8) :
    Holds (ParseState.start l) Reader.start l (List.replicate (BUFFER_SIZE - l.length) 0) where
  buffer := rfl
  start_line := rfl
  checked_index := rfl
  read_index := (Nat.zero_add _).symm
  checkstate := rfl
  printed := rfl
  last := by
    intro b hb
    cases hb

/-- One call of `parse_content` on all the bytes. -/
theorem parse_run (l : List UInt8) :
    ∃ code t q, Agrees code t q (Reader.start.read l) ∧
      Returns parse_content (ParseState.start l) (code, t) := by
  obtain ⟨code, t, hagrees, hrun⟩ := parse_content_run (holds_start l) rfl
  exact ⟨code, t, _, hagrees, l.length + 1, hrun⟩

/-- The loop of `main` from its start. -/
theorem receive_start_run {chunks : List (List UInt8)} (hne : ∀ chunk ∈ chunks, chunk ≠ [])
    (hlen : chunks.flatten.length ≤ BUFFER_SIZE) :
    ∃ code t q, Agrees code t q (Reader.start.read chunks.flatten) ∧
      Returns (fun fuel => receive fuel chunks) (ParseState.start []) (code, t) := by
  obtain ⟨code, t, q, hagrees, hrun⟩ := receive_run (holds_start []) hne
    (by rwa [List.length_replicate])
  exact ⟨code, t, q, hagrees, chunks.flatten.length + 2, hrun⟩

/-- Two runs that have read the same bytes agree. -/
theorem Agrees.unique {code code' : HttpCode} {q' : List UInt8}
    {res : Except (HttpCode × Reader) Reader} (h : Agrees code s q res)
    (h' : Agrees code' t q' res) :
    code = code' ∧ ∃ r, Parsed s r ∧ Parsed t r := by
  cases res with
  | ok r => exact ⟨h.1.trans h'.1.symm, r, h.2.toParsed, h'.2.toParsed⟩
  | error e => exact ⟨h.1.trans h'.1.symm, e.2, h.2.2, h'.2.2⟩

/-- For every cut of a stream into chunks, the loop of `main` ends with the result of one call of
`parse_content` on the whole stream, and has parsed the same; when that result is `NO_REQUEST`, so
is the result of every chunk. -/
theorem receive_eq_parse {chunks : List (List UInt8)} (hne : ∀ chunk ∈ chunks, chunk ≠ [])
    (hlen : chunks.flatten.length ≤ BUFFER_SIZE) :
    ∃ code s t, Returns (fun fuel => receive fuel chunks) (ParseState.start []) (code, s) ∧
      Returns parse_content (ParseState.start chunks.flatten) (code, t) ∧
      s.checkstate = t.checkstate ∧ s.printed = t.printed ∧ s.start_line = t.start_line ∧
      s.buffer.take s.start_line = t.buffer.take t.start_line ∧
      (code = .no_request → ∀ l, l <+: chunks →
        ∃ u, Returns (fun fuel => receive fuel l) (ParseState.start []) (.no_request, u)) := by
  obtain ⟨code, s, q, hs, hreceive⟩ := receive_start_run hne hlen
  obtain ⟨code', t, q', ht, hparse⟩ := parse_run chunks.flatten
  obtain ⟨rfl, r, hsr, htr⟩ := hs.unique ht
  refine ⟨code, s, t, hreceive, hparse, hsr.checkstate.trans htr.checkstate.symm,
    hsr.printed.trans htr.printed.symm, hsr.start_line.trans htr.start_line.symm,
    hsr.buffer.trans htr.buffer.symm, ?_⟩
  rintro rfl l ⟨m, rfl⟩
  rw [List.flatten_append] at hs hlen
  rw [List.length_append] at hlen
  have hne_l : ∀ chunk ∈ l, chunk ≠ [] := fun c hc => hne c (List.mem_append_left _ hc)
  obtain ⟨code, u, q₁, hu, hl⟩ := receive_start_run hne_l (by omega)
  rw [Reader.read_append] at hs
  cases hread : Reader.start.read l.flatten with
  | ok r =>
      rw [hread] at hu
      obtain ⟨rfl, -⟩ := hu
      exact ⟨u, hl⟩
  | error e =>
      rw [hread] at hs
      exact absurd hs.1.symm hs.2.1

/-- A line end that arrives in two chunks. -/
theorem receive_eq_parse_split_line_end :
    ∃ code s t, Returns (fun fuel => receive fuel [[71, 69, 84, 13], [10]]) (ParseState.start [])
        (code, s) ∧
      Returns parse_content (ParseState.start [71, 69, 84, 13, 10]) (code, t) ∧
      s.checkstate = t.checkstate ∧ s.printed = t.printed := by
  have hne : ∀ chunk ∈ ([[71, 69, 84, 13], [10]] : List (List UInt8)), chunk ≠ [] := by decide
  obtain ⟨code, s, t, hreceive, hparse, hstate, hprinted, -⟩ := receive_eq_parse hne (by decide)
  exact ⟨code, s, t, hreceive, hparse, hstate, hprinted⟩

end CLanguageLearning.Http
