import CLanguageLearning.Http.TinyhttpdReads

/-!
# One answer to each request

Each part of the server is given the number of status lines that it sends (`Answers`). A program is
announced before its pipes and its process exist, so a failure there sends a second line; an
unknown method is answered twice.
-/

set_option autoImplicit false

namespace CLanguageLearning.Tinyhttpd

open CLanguageLearning.Foundation

/-! ## Status lines -/

/-- A text of the server that starts like a status line. What a file or a program says is not an
answer of the server. -/
def isStatusLine : Sent → Bool
  | .text l => (bytes "HTTP/1.0 ").isPrefixOf l
  | .content _ => false

/-- The status lines that a connection has been sent. -/
def statusLines (s : Conn) : Nat := s.sent.countP isStatusLine

/-- Code that sends `k` status lines and returns, or has no meaning. -/
def Answers (x : Exec Conn Unit) (s : Conn) : Option Nat → Prop
  | none => x.run s = .error .undefined
  | some k => ∃ s', x.run s = .ok ((), s') ∧ statusLines s' = statusLines s + k

section Rules

variable {α : Type} {x : Exec Conn α} {y z : Exec Conn Unit} {f : α → Exec Conn Unit} {s t : Conn}
  {a : α} {k : Nat} {o : Option Nat}

/-- Code that sends nothing comes first. -/
theorem Answers.after (hx : x.run s = .ok (a, t)) (hsent : t.sent = s.sent)
    (hf : Answers (f a) t o) : Answers (x >>= f) s o := by
  have hlines : statusLines t = statusLines s := congrArg (List.countP isStatusLine) hsent
  cases o with
  | none => exact (run_bind_of_ok hx f).trans hf
  | some k =>
      obtain ⟨s', hrun, hcount⟩ := hf
      rw [hlines] at hcount
      exact ⟨s', (run_bind_of_ok hx f).trans hrun, hcount⟩

/-- The rule of sequences. -/
theorem Answers.bind (hy : Answers y s (some k)) (hz : ∀ s', Answers z s' o) :
    Answers (y >>= fun _ => z) s (o.map (k + ·)) := by
  obtain ⟨s', hrun, hcount⟩ := hy
  have hrest := hz s'
  cases o with
  | none => exact (run_bind_of_ok hrun _).trans hrest
  | some m =>
      obtain ⟨s'', hrun', hcount'⟩ := hrest
      refine ⟨s'', (run_bind_of_ok hrun _).trans hrun', ?_⟩
      rw [hcount', hcount, Nat.add_assoc]

theorem Answers.ite {c : Prop} [Decidable c] {o' : Option Nat} (hy : Answers y s o)
    (hz : Answers z s o') : Answers (if c then y else z) s (if c then o else o') := by
  split
  · exact hy
  · exact hz

theorem answers_pure (s : Conn) : Answers (return ()) s (some 0) :=
  ⟨s, rfl, rfl⟩

theorem send_answers (x : Sent) (s : Conn) :
    Answers (send x) s (some (List.countP isStatusLine [x])) :=
  ⟨_, rfl, List.countP_append⟩

theorem sendTexts_run (l : List String) (s : Conn) :
    (sendTexts l).run s =
      .ok ((), { s with sent := s.sent ++ l.map fun text => .text (bytes text) }) := by
  induction l generalizing s with
  | nil => simp [sendTexts]
  | cons text l ih =>
      have hstep : sendTexts (text :: l) = send (.text (bytes text)) >>= fun _ => sendTexts l := rfl
      have hrest := ih { s with sent := s.sent ++ [.text (bytes text)] }
      rw [hstep, run_bind_of_ok rfl]
      refine hrest.trans ?_
      rw [List.map_cons, List.append_assoc, List.singleton_append]

theorem sendTexts_answers (l : List String) (s : Conn) : Answers (sendTexts l) s
    (some ((l.map fun text => Sent.text (bytes text)).countP isStatusLine)) :=
  ⟨_, sendTexts_run l s, List.countP_append⟩

end Rules

/-! ## The answers of the server -/

section Texts

variable {buf : List UInt8} {s : Conn}

theorem cannot_execute_answers (s : Conn) : Answers cannot_execute s (some 1) :=
  sendTexts_answers _ s

theorem headers_answers (s : Conn) : Answers headers s (some 1) :=
  sendTexts_answers _ s

theorem not_found_answers (s : Conn) : Answers not_found s (some 1) :=
  sendTexts_answers _ s

theorem sprintf_run {l : List UInt8} (h : l.length < buf.length) (s : Conn) :
    (sprintf buf l).run s = .ok (afterLine buf l, s) := by
  rw [sprintf, if_pos h]
  rfl

/-- A text that is sent with the rest of its array. -/
theorem sprintf_send_answers {l : List UInt8} {f : List UInt8 → Exec Conn Unit} {o : Option Nat}
    (hbuf : buf.length = BUF_SIZE) (hl : l.length < BUF_SIZE)
    (hf : ∀ buf', buf'.length = BUF_SIZE → ∀ s', Answers (f buf') s' o) (s : Conn) :
    Answers (sprintf buf l >>= fun buf' => send (.text buf') >>= fun _ => f buf') s
      (o.map (List.countP isStatusLine [.text (afterLine buf l)] + ·)) := by
  have hfit : l.length < buf.length := hbuf ▸ hl
  refine .after (sprintf_run hfit s) rfl (.bind (send_answers _ s) (hf _ ?_))
  exact (length_afterLine hfit).trans hbuf

theorem bad_request_answers (vars : Locals) (s : Conn) :
    Answers (bad_request vars) s (some 1) := by
  refine sprintf_send_answers (o := some 0) vars.bad_request_buf.length_toList (by decide) ?_ s
  intro buf hbuf s
  refine sprintf_send_answers (o := some 0) hbuf (by decide) ?_ s
  intro buf hbuf s
  refine sprintf_send_answers (o := some 0) hbuf (by decide) ?_ s
  intro buf hbuf s
  refine sprintf_send_answers (o := some 0) hbuf (by decide) ?_ s
  intro buf hbuf s
  exact .after (sprintf_run (hbuf ▸ by decide) s) rfl (send_answers _ s)

end Texts

/-! ## Files -/

theorem fgetsBytes_append (n : Nat) (l : List UInt8) :
    (fgetsBytes n l).1 ++ (fgetsBytes n l).2.1 = l := by
  induction n generalizing l with
  | zero => rfl
  | succ n ih =>
      cases l with
      | nil => rfl
      | cons c l =>
          rw [fgetsBytes]
          split
          · rfl
          · exact congrArg (c :: ·) (ih l)

theorem length_fgetsBytes_le (n : Nat) (l : List UInt8) : (fgetsBytes n l).1.length ≤ n := by
  induction n generalizing l with
  | zero => exact Nat.le_refl 0
  | succ n ih =>
      cases l with
      | nil => exact Nat.zero_le _
      | cons c l =>
          rw [fgetsBytes]
          split
          · exact Nat.succ_le_succ (Nat.zero_le n)
          · exact Nat.succ_le_succ (ih l)

/-- A read that stores nothing has hit the end. -/
theorem fgetsBytes_eq_nil {n : Nat} {l : List UInt8} (hn : 0 < n) (h : (fgetsBytes n l).1 = []) :
    (fgetsBytes n l).2.2 = true := by
  obtain ⟨n, rfl⟩ := Nat.exists_eq_add_one.mpr hn
  cases l with
  | nil => rfl
  | cons c l =>
      rw [fgetsBytes] at h
      split at h <;> cases h

/-- What is read fits with its terminator. -/
theorem length_fgetsBytes_lt {buf : List UInt8} (hbuf : buf.length = BUF_SIZE) (l : List UInt8) :
    (fgetsBytes (BUF_SIZE - 1) l).1.length < buf.length := by
  rw [hbuf]
  exact Nat.lt_of_le_of_lt (length_fgetsBytes_le _ l) (by decide)

theorem fgets_run {buf : List UInt8} (hbuf : buf.length = BUF_SIZE) (f : File) (s : Conn) :
    (fgets buf f).run s =
      .ok ((if (fgetsBytes (BUF_SIZE - 1) f.rest).1 = [] then buf
          else afterLine buf (fgetsBytes (BUF_SIZE - 1) f.rest).1,
        ⟨(fgetsBytes (BUF_SIZE - 1) f.rest).2.1,
          f.eof || (fgetsBytes (BUF_SIZE - 1) f.rest).2.2⟩), s) := by
  have hfit := length_fgetsBytes_lt hbuf f.rest
  rw [fgets]
  generalize fgetsBytes (BUF_SIZE - 1) f.rest = read at *
  dsimp only
  by_cases hnil : read.1 = []
  · rw [if_pos hnil, if_pos hnil]
    rfl
  · rw [if_neg hnil, if_neg hnil]
    exact run_bind_of_ok (sprintf_run hfit s) _

/-- The end of the file was hit, or a string was read that takes something from it. -/
def Fetched (before : List UInt8) (buf : List UInt8) (f : File) : Prop :=
  f.eof = true ∨ (∃ text, cstring buf = some text) ∧ f.rest.length < before.length

theorem fgets_fetched {buf : List UInt8} (hbuf : buf.length = BUF_SIZE) (f : File) (s : Conn) :
    ∃ buf' f', (fgets buf f).run s = .ok ((buf', f'), s) ∧ buf'.length = BUF_SIZE ∧
      Fetched f.rest buf' f' := by
  refine ⟨_, _, fgets_run hbuf f s, ?_⟩
  by_cases hnil : (fgetsBytes (BUF_SIZE - 1) f.rest).1 = []
  · have heof := fgetsBytes_eq_nil (by decide) hnil
    rw [if_pos hnil, heof, Bool.or_true]
    exact ⟨hbuf, Or.inl rfl⟩
  · have hlen := congrArg List.length (fgetsBytes_append (BUF_SIZE - 1) f.rest)
    have hpos := List.length_pos_iff.mpr hnil
    have hfit := length_fgetsBytes_lt hbuf f.rest
    rw [List.length_append] at hlen
    have hlt : (fgetsBytes (BUF_SIZE - 1) f.rest).2.1.length < f.rest.length := by omega
    rw [if_neg hnil]
    exact ⟨(length_afterLine hfit).trans hbuf, Or.inr ⟨⟨_, cstring_afterLine ..⟩, hlt⟩⟩

/-- What is read goes out, and the file comes to an end. -/
theorem catLoop_answers (fuel : Nat) :
    ∀ {before buf : List UInt8} {f : File} {s : Conn}, buf.length = BUF_SIZE →
      Fetched before buf f → before.length < fuel → Answers (catLoop fuel buf f) s (some 0) := by
  induction fuel with
  | zero =>
      intro before buf f s _ _ hfuel
      exact absurd hfuel (Nat.not_lt_zero _)
  | succ fuel ih =>
      intro before buf f s hbuf hfetched hfuel
      rw [catLoop]
      by_cases heof : f.eof = true
      · rw [if_pos heof]
        exact answers_pure s
      obtain ⟨⟨text, htext⟩, hlt⟩ := hfetched.resolve_left heof
      rw [if_neg heof]
      -- `buf` was filled by the read before, and the file was not at its end then
      refine .after (stringAt_run htext s) rfl (.bind (o := some 0) (send_answers _ s) fun s => ?_)
      obtain ⟨buf', f', hrun, hbuf', hnext⟩ := fgets_fetched hbuf f s
      exact .after hrun rfl (ih hbuf' hnext (by omega))

theorem cat_answers (vars : Locals) (content : List UInt8) (s : Conn) :
    Answers (cat vars content) s (some 0) := by
  obtain ⟨buf, f, hrun, hbuf, hfetched⟩ :=
    fgets_fetched vars.cat_buf.length_toList ⟨content, false⟩ s
  exact .after hrun rfl (catLoop_answers _ hbuf hfetched (Nat.lt_add_of_pos_right (by decide)))

/-- A file that cannot be opened is closed all the same. -/
theorem serve_file_answers (env : Env) (vars : Locals) (filename : List UInt8) (s : Conn) :
    Answers (serve_file env vars filename) s ((env.fopen filename).map fun _ => 1) := by
  obtain ⟨rest, hrun⟩ := discardHeaders_run (holding_start vars.serve_file_buf) 1 s
  refine .after (startBuf_run vars.serve_file_buf s) rfl (.after hrun rfl ?_)
  cases env.fopen filename with
  | none =>
      -- 404 has been sent when the null pointer is closed
      obtain ⟨s', hrun', -⟩ := not_found_answers { s with stream := rest }
      exact run_bind_of_ok hrun' _
  | some content => exact .bind (headers_answers _) (cat_answers vars content)

/-! ## Programs -/

/-- The calls that start a program succeed. -/
def Env.starts (env : Env) : Bool := env.pipeOutput && env.pipeInput && env.fork

/-- At the end of the stream, bytes that were not sent are written. -/
theorem forwardBody_run (n : Nat) (c : UInt8) (s : Conn) :
    ∃ junk : List UInt8, junk.length = n - s.stream.length ∧
      (forwardBody n c).run s = .ok ((), { s with
        stream := s.stream.drop n
        cgiInput := s.cgiInput ++ (s.stream.take n ++ junk) }) := by
  induction n generalizing c s with
  | zero => exact ⟨[], by simp, by simp [forwardBody]⟩
  | succ n ih =>
      cases hstream : s.stream with
      | nil =>
          have hrecv : recv.run s = .ok (none, s) := by simp [recv, hstream]
          obtain ⟨junk, hlen, hrun⟩ := ih c { s with cgiInput := s.cgiInput ++ [c] }
          rw [hstream] at hlen
          refine ⟨c :: junk, congrArg Nat.succ hlen, ?_⟩
          rw [forwardBody, run_bind_of_ok hrecv]
          refine (run_bind_of_ok rfl _).trans (hrun.trans ?_)
          simp [hstream]
      | cons d rest =>
          have hrecv : recv.run s = .ok (some d, { s with stream := rest }) := by
            simp [recv, hstream]
          obtain ⟨junk, hlen, hrun⟩ :=
            ih d { s with stream := rest, cgiInput := s.cgiInput ++ [d] }
          refine ⟨junk, hlen.trans (Nat.succ_sub_succ n rest.length).symm, ?_⟩
          rw [forwardBody, run_bind_of_ok hrecv]
          refine (run_bind_of_ok rfl _).trans (hrun.trans ?_)
          simp

/-- The output of a program is not an answer. -/
theorem output_answers (output : List UInt8) (s : Conn) :
    Answers (output.forM fun c => send (.content [c])) s (some 0) := by
  induction output generalizing s with
  | nil => exact answers_pure s
  | cons c output ih => exact .bind (o := some 0) (send_answers _ s) ih

/-- A program that cannot be started was announced all the same. -/
theorem runProgram_answers (env : Env) (vars : Locals) (path method query_string : List UInt8)
    (content_length : Int) (s : Conn) :
    Answers (runProgram env vars path method query_string content_length) s
      (some (if env.starts then 1 else 2)) := by
  have hok : Answers (sendTexts ["HTTP/1.0 200 OK\r\n"]) s (some 1) := sendTexts_answers _ s
  -- 500 comes behind 200
  have hfail : Answers (sendTexts ["HTTP/1.0 200 OK\r\n"] >>= fun _ => cannot_execute) s
      (some 2) :=
    hok.bind cannot_execute_answers
  rw [runProgram, Env.starts]
  cases env.pipeOutput with
  | false => exact hfail
  | true =>
      cases env.pipeInput with
      | false => exact hfail
      | true =>
          cases env.fork with
          | false => exact hfail
          | true =>
              refine hok.bind (o := some 0) fun s => ?_
              obtain ⟨junk, -, hrun⟩ := forwardBody_run
                (if isMethod "POST" method then content_length.toNat else 0) vars.execute_cgi_c s
              exact .after hrun rfl (.after rfl rfl (output_answers _ _))

/-- The status lines of a request for a program. -/
def cgiLines (env : Env) (vars : Locals) (method stream : List UInt8) : Option Nat :=
  if isMethod "GET" method then some (if env.starts then 1 else 2)
  else
    (declaredLength (afterLine vars.execute_cgi_buf.toList [65]) stream).map fun content_length =>
      if content_length = -1 then 1 else if env.starts then 1 else 2

theorem execute_cgi_answers (env : Env) (vars : Locals) (path method query_string : List UInt8)
    (s : Conn) : Answers (execute_cgi env vars path method query_string) s
      (cgiLines env vars method s.stream) := by
  have hstart := holding_start vars.execute_cgi_buf
  refine .after (startBuf_run vars.execute_cgi_buf s) rfl ?_
  rw [cgiLines]
  by_cases hget : isMethod "GET" method = true
  · obtain ⟨rest, hrun⟩ := discardHeaders_run hstart 1 s
    rw [if_pos hget, if_pos hget]
    exact .after hrun rfl (runProgram_answers ..)
  · have hread := readLength_run hstart.size s
    rw [if_neg hget, if_neg hget]
    cases hlength : declaredLength (afterLine vars.execute_cgi_buf.toList [65]) s.stream with
    | none =>
        rw [hlength] at hread
        exact run_bind_of_error hread _
    | some content_length =>
        rw [hlength] at hread
        obtain ⟨rest, hrun⟩ := hread
        refine .after hrun rfl ?_
        rw [Option.map_some]
        by_cases hnone : content_length = -1
        · rw [if_pos hnone, if_pos hnone]
          exact bad_request_answers vars _
        · rw [if_neg hnone, if_neg hnone]
          exact runProgram_answers ..

/-! ## Requests -/

/-- The file that stands for a path. -/
def fileOf (mode : Nat) (path : List UInt8) : List UInt8 :=
  if isDirectory mode then path ++ bytes "/index.html" else path

/-- The status lines behind `stat`. -/
def respondLines (env : Env) (vars : Locals) (cgi : Bool) (path method stream : List UInt8) :
    Option Nat :=
  match env.stat path with
  | none => some 1
  | some mode =>
      if cgi || isExecutable mode then cgiLines env vars method stream
      else (env.fopen (fileOf mode path)).map fun _ => 1

theorem inArray_run {size : Nat} {l : List UInt8} (h : l.length < size) (s : Conn) :
    (inArray size l).run s = .ok (l, s) := by
  rw [inArray, if_pos h]
  rfl

theorem indexFile_run {path : List UInt8} (hpath : path.length ≤ 270) (mode : Nat) (s : Conn) :
    (indexFile mode path).run s = .ok (fileOf mode path, s) := by
  have hindex : (bytes "/index.html").length = 11 := rfl
  have hfit : (path ++ bytes "/index.html").length < PATH_SIZE := by
    rw [List.length_append, hindex]
    exact Nat.lt_of_le_of_lt (Nat.add_le_add_right hpath 11) (by decide)
  rw [indexFile, fileOf]
  split
  · exact inArray_run hfit s
  · rfl

theorem respond_answers {buf text path : List UInt8} (hbuf : Holding buf text)
    (hpath : path.length ≤ 270) (env : Env) (vars : Locals) (numchars : Nat) (cgi : Bool)
    (method query_string : List UInt8) (s : Conn) :
    Answers (respond env vars buf numchars cgi path method query_string) s
      (respondLines env vars cgi path method s.stream) := by
  rw [respond, respondLines]
  cases env.stat path with
  | none =>
      obtain ⟨rest, hrun⟩ := discardHeaders_run hbuf numchars s
      exact .after hrun rfl (not_found_answers _)
  | some mode =>
      refine .after (indexFile_run hpath mode s) rfl ?_
      exact .ite (execute_cgi_answers ..) (serve_file_answers ..)

/-- The path that a URL asks for. -/
def pathOf (url : List UInt8) : List UInt8 :=
  let path := bytes "htdocs" ++ url
  if path.getLast? = some 47 then path ++ bytes "index.html" else path

theorem length_pathOf_le {url : List UInt8} (h : url.length ≤ 254) : (pathOf url).length ≤ 270 := by
  have hdocs : (bytes "htdocs").length = 6 := rfl
  have hindex : (bytes "index.html").length = 10 := rfl
  rw [pathOf]
  split
  · rw [List.length_append, List.length_append, hdocs, hindex]
    omega
  · rw [List.length_append, hdocs]
    omega

theorem requestPath_run {url : List UInt8} (h : url.length ≤ 254) (s : Conn) :
    (requestPath url).run s = .ok (pathOf url, s) := by
  have hfit : (pathOf url).length < PATH_SIZE :=
    Nat.lt_of_le_of_lt (length_pathOf_le h) (by decide)
  have hdocs : (bytes "htdocs" ++ url).length < PATH_SIZE := by
    have hlen : (bytes "htdocs").length = 6 := rfl
    rw [List.length_append, hlen]
    exact Nat.lt_of_le_of_lt (Nat.add_le_add_left h 6) (by decide)
  rw [requestPath, run_bind_of_ok (inArray_run hdocs s)]
  rw [pathOf] at hfit ⊢
  by_cases hslash : (bytes "htdocs" ++ url).getLast? = some 47
  · rw [if_pos hslash] at hfit ⊢
    rw [if_pos hslash]
    exact inArray_run hfit s
  · rw [if_neg hslash, if_neg hslash]
    rfl

/-! ## The first line -/

/-- The array after the first line of a request has been read. -/
def firstLine (vars : Locals) (stream : List UInt8) : List UInt8 :=
  afterLine vars.accept_buf.toList (lineOf (BUF_SIZE - 1) stream).1

/-- The method in the array of the first line. -/
def methodIn (buf : List UInt8) : List UInt8 := upToNul (wordOf (WORD_SIZE - 1) buf)

/-- What is behind the method and its spaces. -/
def behindMethod (buf : List UInt8) : List UInt8 :=
  (buf.drop (wordOf (WORD_SIZE - 1) buf).length).dropWhile isspace

/-- A byte of the array stops the scan of the URL. -/
def UrlEnds (buf : List UInt8) : Prop :=
  (wordOf (WORD_SIZE - 1) (behindMethod buf)).length < (behindMethod buf).length

instance (buf : List UInt8) : Decidable (UrlEnds buf) := inferInstanceAs (Decidable (_ < _))

/-- The URL in the array of the first line. -/
def urlIn (buf : List UInt8) : List UInt8 := upToNul (wordOf (WORD_SIZE - 1) (behindMethod buf))

/-- The server knows the method. -/
def isSupported (method : List UInt8) : Bool := isMethod "GET" method || isMethod "POST" method

section FirstLine

variable {buf : List UInt8} {s : Conn}

theorem length_firstLine (vars : Locals) (stream : List UInt8) :
    (firstLine vars stream).length = BUF_SIZE :=
  (Holding.afterLine vars.accept_buf.length_toList stream).size

theorem length_upToNul_le (l : List UInt8) : (upToNul l).length ≤ l.length :=
  (List.takeWhile_prefix _).length_le

theorem length_urlIn_le (buf : List UInt8) : (urlIn buf).length ≤ 254 :=
  (length_upToNul_le _).trans (length_wordOf_le ..)

theorem length_cutQuery_le (method url : List UInt8) :
    (cutQuery method url).2.1.length ≤ url.length := by
  rw [cutQuery]
  split
  · exact (List.takeWhile_prefix _).length_le
  · exact Nat.le_refl _

/-- The word of the method ends in the array. -/
theorem methodWord_run (hbuf : buf.length = BUF_SIZE) (s : Conn) :
    (copyWord (fun _ => true) buf (WORD_SIZE - 1) 0).run s =
      .ok ((wordOf (WORD_SIZE - 1) buf, (wordOf (WORD_SIZE - 1) buf).length), s) := by
  have hlt : (wordOf (WORD_SIZE - 1) buf).length < buf.length := by
    rw [hbuf]
    exact Nat.lt_of_le_of_lt (length_wordOf_le ..) (by decide)
  have hin : ∀ k, k < buf.length → (fun _ => true) k = true := fun _ _ => rfl
  have hword := copyWord_run (t := s) hin (WORD_SIZE - 1) (List.drop_zero (l := buf))
  rw [if_pos hlt, Nat.zero_add] at hword
  exact hword

/-- An unknown method is answered, and the code goes on. -/
theorem checkMethod_run (method : List UInt8) (s : Conn) :
    ∃ s', (checkMethod method).run s = .ok ((), s') ∧ s'.stream = s.stream ∧
      statusLines s' = statusLines s + if isSupported method then 0 else 1 := by
  rw [checkMethod, isSupported]
  cases isMethod "GET" method with
  | true => exact ⟨s, rfl, rfl, rfl⟩
  | false =>
      cases isMethod "POST" method with
      | true => exact ⟨s, rfl, rfl, rfl⟩
      | false => exact ⟨_, sendTexts_run _ s, rfl, List.countP_append⟩

theorem drop_length_takeWhile (p : UInt8 → Bool) (l : List UInt8) :
    l.drop (l.takeWhile p).length = l.dropWhile p := by
  induction l with
  | nil => rfl
  | cons c l ih =>
      by_cases hc : p c = true
      · rw [List.takeWhile_cons_of_pos hc, List.dropWhile_cons_of_pos hc]
        exact ih
      · rw [List.takeWhile_cons_of_neg hc, List.dropWhile_cons_of_neg hc]
        rfl

/-- The scan of the URL, behind the spaces. -/
theorem urlWord_run (hbuf : buf.length = BUF_SIZE) (s : Conn) :
    ∃ j, (skipSpaces buf (BUF_SIZE + 1) (wordOf (WORD_SIZE - 1) buf).length).run s =
        (if behindMethod buf = [] then .error .undefined else .ok (j, s)) ∧
      (copyWord (fun j => decide (j < BUF_SIZE)) buf (WORD_SIZE - 1) j).run s =
        if UrlEnds buf then
          .ok ((wordOf (WORD_SIZE - 1) (behindMethod buf),
            j + (wordOf (WORD_SIZE - 1) (behindMethod buf)).length), s)
        else .error .undefined := by
  have hlen : (buf.drop (wordOf (WORD_SIZE - 1) buf).length).length < BUF_SIZE + 1 := by
    rw [List.length_drop, hbuf]
    exact Nat.lt_succ_of_le (Nat.sub_le ..)
  have hin : ∀ k, k < buf.length → decide (k < BUF_SIZE) = true := by
    intro k hk
    rw [hbuf] at hk
    exact decide_eq_true hk
  refine ⟨_, skipSpaces_run hbuf (BUF_SIZE + 1) rfl hlen, copyWord_run hin _ ?_⟩
  rw [← List.drop_drop, drop_length_takeWhile]
  rfl

end FirstLine

/-! ## One status line -/

section Requests

variable {buf : List UInt8} {s : Conn}

/-- What the URL of the first line asks for: whether it is a program, its path, and the arguments of
the program. -/
def requestIn (buf : List UInt8) : Bool × List UInt8 × List UInt8 :=
  let (query, url, query_string) := cutQuery (methodIn buf) (urlIn buf)
  (isMethod "POST" (methodIn buf) || query, pathOf url, query_string)

theorem length_requestIn_le (buf : List UInt8) : (requestIn buf).2.1.length ≤ 270 :=
  length_pathOf_le ((length_cutQuery_le _ _).trans (length_urlIn_le buf))

/-- What `accept_request` has before it calls `stat`: among others the words that it has stored in
the arrays `method` and `url`. -/
structure Request where
  buf : List UInt8
  numchars : Nat
  methodWord : List UInt8
  urlWord : List UInt8
  cgi : Bool
  path : List UInt8
  method : List UInt8
  query_string : List UInt8

/-- `accept_request` in front of `stat`. -/
def readRequest (vars : Locals) : Exec Conn Request := do
  let (buf, numchars) ← get_line vars.accept_buf.toList BUF_SIZE
  let (methodWord, j) ← copyWord (fun _ => true) buf (WORD_SIZE - 1) 0
  let method := upToNul methodWord
  checkMethod method
  let j ← skipSpaces buf (BUF_SIZE + 1) j
  let (urlWord, _) ← copyWord (fun j => decide (j < BUF_SIZE)) buf (WORD_SIZE - 1) j
  let (query, url, query_string) := cutQuery method (upToNul urlWord)
  let path ← requestPath url
  return ⟨buf, numchars, methodWord, urlWord, isMethod "POST" method || query, path, method,
    query_string⟩

theorem accept_request_eq (env : Env) (vars : Locals) :
    accept_request env vars = readRequest vars >>= fun r =>
      respond env vars r.buf r.numchars r.cgi r.path r.method r.query_string >>= fun _ =>
        close := by
  simp [accept_request, readRequest]

/-- The request in the array of the first line. -/
def requestOf (buf : List UInt8) (numchars : Nat) : Request where
  buf := buf
  numchars := numchars
  methodWord := wordOf (WORD_SIZE - 1) buf
  urlWord := wordOf (WORD_SIZE - 1) (behindMethod buf)
  cgi := (requestIn buf).1
  path := (requestIn buf).2.1
  method := methodIn buf
  query_string := (requestIn buf).2.2

/-- The request is read if the scan of the URL ends. -/
theorem readRequest_run (vars : Locals) (hbuf : firstLine vars s.stream = buf) :
    ∃ s', s'.stream = (lineOf (BUF_SIZE - 1) s.stream).2 ∧
      statusLines s' = statusLines s + (if isSupported (methodIn buf) then 0 else 1) ∧
      (readRequest vars).run s =
        if UrlEnds buf then .ok (requestOf buf (lineOf (BUF_SIZE - 1) s.stream).1.length, s')
        else .error .undefined := by
  have hsize : buf.length = BUF_SIZE := hbuf ▸ length_firstLine vars s.stream
  have hline := get_line_run (by decide) vars.accept_buf.length_toList.ge s
  change _ = Except.ok ((firstLine vars s.stream, _), _) at hline
  rw [hbuf] at hline
  obtain ⟨s', hcheck, hstream, hcount⟩ :=
    checkMethod_run (methodIn buf) { s with stream := (lineOf (BUF_SIZE - 1) s.stream).2 }
  -- the rest is run from where the check of the method has left the connection
  refine ⟨s', hstream, hcount, ?_⟩
  obtain ⟨j, hskip, hurl⟩ := urlWord_run hsize s'
  rw [readRequest, run_bind_of_ok hline]
  dsimp only
  rw [run_bind_of_ok (methodWord_run hsize _)]
  dsimp only
  refine (run_bind_of_ok hcheck _).trans ?_
  by_cases hends : UrlEnds buf
  · have hbehind : behindMethod buf ≠ [] := List.length_pos_iff.mp (Nat.zero_lt_of_lt hends)
    rw [if_neg hbehind] at hskip
    rw [if_pos hends] at hurl
    rw [if_pos hends, run_bind_of_ok hskip, run_bind_of_ok hurl]
    have hurlIn := (length_cutQuery_le (methodIn buf) _).trans (length_urlIn_le buf)
    exact run_bind_of_ok (requestPath_run hurlIn s') _
  · rw [if_neg hends]
    by_cases hbehind : behindMethod buf = []
    · rw [if_pos hbehind] at hskip
      exact run_bind_of_error hskip _
    · rw [if_neg hbehind] at hskip
      rw [if_neg hends] at hurl
      rw [run_bind_of_ok hskip]
      exact run_bind_of_error hurl _

/-- The server reads the first line and then answers, if the scan of the URL ends. -/
theorem accept_request_run (env : Env) (vars : Locals) (hbuf : firstLine vars s.stream = buf) :
    ∃ s', s'.stream = (lineOf (BUF_SIZE - 1) s.stream).2 ∧
      statusLines s' = statusLines s + (if isSupported (methodIn buf) then 0 else 1) ∧
      (accept_request env vars).run s =
        if UrlEnds buf then
          (respond env vars buf (lineOf (BUF_SIZE - 1) s.stream).1.length (requestIn buf).1
            (requestIn buf).2.1 (methodIn buf) (requestIn buf).2.2 >>= fun _ => close).run s'
        else .error .undefined := by
  obtain ⟨s', hstream, hcount, hrun⟩ := readRequest_run vars hbuf
  refine ⟨s', hstream, hcount, ?_⟩
  rw [accept_request_eq]
  by_cases hends : UrlEnds buf
  · rw [if_pos hends] at hrun ⊢
    exact run_bind_of_ok hrun _
  · rw [if_neg hends] at hrun ⊢
    exact run_bind_of_error hrun _

/-- The connection is closed, and one status line has been sent. -/
def AnsweredOnce (env : Env) (vars : Locals) (stream : List UInt8) : Prop :=
  ∃ s, (accept_request env vars).run ⟨stream, [], [], false⟩ = .ok ((), s) ∧ s.closed = true ∧
    statusLines s = 1

theorem Answers.closed_iff {x : Exec Conn Unit} {o : Option Nat} (h : Answers x s o) (n : Nat) :
    (∃ t, (x >>= fun _ => close).run s = .ok ((), t) ∧ t.closed = true ∧ statusLines t = n) ↔
      ∃ k, o = some k ∧ statusLines s + k = n := by
  cases o with
  | none =>
      have hstop : (x >>= fun _ => close).run s = .error .undefined := run_bind_of_error h _
      constructor
      · rintro ⟨t, hrun, -⟩
        rw [hstop] at hrun
        cases hrun
      · rintro ⟨k, hk, -⟩
        cases hk
  | some k =>
      obtain ⟨s', hrun, hcount⟩ := h
      have hclose : (x >>= fun _ => close).run s = .ok ((), { s' with closed := true }) :=
        run_bind_of_ok hrun _
      constructor
      · rintro ⟨t, hrun', -, hn⟩
        rw [hclose] at hrun'
        cases hrun'
        exact ⟨k, rfl, hcount.symm.trans hn⟩
      · rintro ⟨m, hm, hn⟩
        cases hm
        exact ⟨_, hclose, rfl, hcount.trans hn⟩

/-- How often a request is answered. -/
theorem answeredOnce_iff_lines (env : Env) (vars : Locals) (stream : List UInt8)
    (hbuf : firstLine vars stream = buf) :
    AnsweredOnce env vars stream ↔ UrlEnds buf ∧ ∃ k,
      respondLines env vars (requestIn buf).1 (requestIn buf).2.1 (methodIn buf)
        (lineOf (BUF_SIZE - 1) stream).2 = some k ∧
      (if isSupported (methodIn buf) then 0 else 1) + k = 1 := by
  obtain ⟨s', hstream, hcount, hrun⟩ :=
    accept_request_run (s := ⟨stream, [], [], false⟩) env vars hbuf
  have hcount' : statusLines s' = if isSupported (methodIn buf) then 0 else 1 :=
    hcount.trans (Nat.zero_add _)
  rw [AnsweredOnce, hrun]
  by_cases hends : UrlEnds buf
  · have hholding : Holding buf (upToNul (lineOf (BUF_SIZE - 1) stream).1) :=
      hbuf ▸ Holding.afterLine vars.accept_buf.length_toList stream
    have hanswers := respond_answers hholding (length_requestIn_le buf) env vars
      (lineOf (BUF_SIZE - 1) stream).1.length (requestIn buf).1 (methodIn buf)
      (requestIn buf).2.2 s'
    rw [if_pos hends, hanswers.closed_iff 1, hcount', hstream]
    exact (and_iff_right hends).symm
  · rw [if_neg hends]
    constructor
    · rintro ⟨s, h, -⟩
      cases h
    · rintro ⟨h, -⟩
      exact absurd h hends

/-- The program that is asked for can be run. -/
def Runs (env : Env) (vars : Locals) (method stream : List UInt8) : Prop :=
  if isMethod "GET" method then env.starts = true
  else ∃ n, declaredLength (afterLine vars.execute_cgi_buf.toList [65]) stream = some n ∧
    (n = -1 ∨ env.starts = true)

/-- What is found at the path can be handed out. -/
def Served (env : Env) (vars : Locals) (buf stream : List UInt8) (mode : Nat) : Prop :=
  if (requestIn buf).1 || isExecutable mode then Runs env vars (methodIn buf) stream
  else (env.fopen (fileOf mode (requestIn buf).2.1)).isSome = true

/-- The requests that get one answer. -/
structure Answerable (env : Env) (vars : Locals) (stream : List UInt8) : Prop where
  method : isSupported (methodIn (firstLine vars stream)) = true
  url : UrlEnds (firstLine vars stream)
  served : ∀ mode, env.stat (requestIn (firstLine vars stream)).2.1 = some mode →
    Served env vars (firstLine vars stream) (lineOf (BUF_SIZE - 1) stream).2 mode

theorem programLines_eq_one (env : Env) :
    (if env.starts then 1 else 2) = 1 ↔ env.starts = true := by
  cases env.starts <;> decide

theorem cgiLines_eq_one (env : Env) (vars : Locals) (method stream : List UInt8) :
    cgiLines env vars method stream = some 1 ↔ Runs env vars method stream := by
  rw [cgiLines, Runs]
  split
  · rw [Option.some.injEq]
    exact programLines_eq_one env
  · rw [Option.map_eq_some_iff]
    refine exists_congr fun n => and_congr_right fun _ => ?_
    split
    next h => exact iff_of_true rfl (Or.inl h)
    next h => exact (programLines_eq_one env).trans (or_iff_right h).symm

theorem cgiLines_pos {env : Env} {vars : Locals} {method stream : List UInt8} {k : Nat}
    (h : cgiLines env vars method stream = some k) : 0 < k := by
  have hprogram : 0 < if env.starts then 1 else 2 := by cases env.starts <;> decide
  rw [cgiLines] at h
  split at h
  · cases h
    exact hprogram
  · obtain ⟨n, -, rfl⟩ := Option.map_eq_some_iff.mp h
    split
    · exact Nat.one_pos
    · exact hprogram

/-- Whatever is found, something is answered. -/
theorem respondLines_pos {env : Env} {vars : Locals} {cgi : Bool} {path method stream : List UInt8}
    {k : Nat} (h : respondLines env vars cgi path method stream = some k) : 0 < k := by
  rw [respondLines] at h
  split at h
  · cases h
    exact Nat.one_pos
  · split at h
    · exact cgiLines_pos h
    · obtain ⟨content, -, rfl⟩ := Option.map_eq_some_iff.mp h
      exact Nat.one_pos

theorem respondLines_eq_one (env : Env) (vars : Locals) (buf stream : List UInt8) :
    respondLines env vars (requestIn buf).1 (requestIn buf).2.1 (methodIn buf) stream = some 1 ↔
      ∀ mode, env.stat (requestIn buf).2.1 = some mode → Served env vars buf stream mode := by
  rw [respondLines]
  cases env.stat (requestIn buf).2.1 with
  | none => exact iff_of_true rfl fun mode hmode => nomatch hmode
  | some mode =>
      have hserved : (∀ m, some mode = some m → Served env vars buf stream m) ↔
          Served env vars buf stream mode :=
        ⟨fun h => h mode rfl, fun h m hm => Option.some.inj hm ▸ h⟩
      rw [hserved, Served]
      dsimp only
      split
      · exact cgiLines_eq_one ..
      · rw [Option.map_eq_some_iff, Option.isSome_iff_exists]
        exact exists_congr fun content => and_iff_left rfl

/-- An unknown method is answered a second time. -/
theorem not_answeredOnce_of_unsupported {env : Env} {vars : Locals} {stream : List UInt8}
    (h : isSupported (methodIn (firstLine vars stream)) = false) :
    ¬ AnsweredOnce env vars stream := by
  rw [answeredOnce_iff_lines env vars stream rfl, h]
  -- 501 has been sent, and what follows is an answer as well
  rintro ⟨-, k, hk, hone⟩
  have hpos := respondLines_pos hk
  change 1 + k = 1 at hone
  omega

/-- A request is answered once if its method is known, the scan of its URL ends in the array, and
what is found at its path can be opened, or started with the length of its input declared in a way
that can be read. -/
theorem answeredOnce_iff (env : Env) (vars : Locals) (stream : List UInt8) :
    AnsweredOnce env vars stream ↔ Answerable env vars stream := by
  cases hmethod : isSupported (methodIn (firstLine vars stream)) with
  | false =>
      refine iff_of_false (not_answeredOnce_of_unsupported hmethod) fun h => ?_
      rw [h.method] at hmethod
      cases hmethod
  | true =>
      rw [answeredOnce_iff_lines env vars stream rfl, hmethod]
      have hlines := respondLines_eq_one env vars (firstLine vars stream)
        (lineOf (BUF_SIZE - 1) stream).2
      constructor
      · rintro ⟨hends, k, hk, hone⟩
        have hk' : k = 1 := (Nat.zero_add k).symm.trans hone
        rw [hk'] at hk
        exact ⟨hmethod, hends, hlines.mp hk⟩
      · intro h
        exact ⟨h.url, 1, hlines.mpr h.served, rfl⟩

/-- A PUT for a file that is not there gets 501 and then 404. -/
theorem put_not_answered_once :
    ¬ AnsweredOnce ⟨fun _ => none, fun _ => none, true, true, true, fun _ _ _ => []⟩
      ⟨.replicate BUF_SIZE 0, .replicate BUF_SIZE 0, .replicate BUF_SIZE 0, .replicate BUF_SIZE 0, 0,
        .replicate BUF_SIZE 0⟩
      (bytes "PUT / HTTP/1.0\r\n\r\n") :=
  not_answeredOnce_of_unsupported (by decide)

end Requests

end CLanguageLearning.Tinyhttpd
