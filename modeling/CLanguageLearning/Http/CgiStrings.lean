import CLanguageLearning.Foundation.Numerals
import CLanguageLearning.Http.OneAnswer

/-!
# The strings of a request

`accept_request` copies the words of the first line into arrays of 255 bytes and builds the path in
one of 512, which is enough for both names of an index file. The child of `execute_cgi` writes the
method, or what is behind the `?`, with a name in front of it into another array of 255 bytes.
-/

set_option autoImplicit false

namespace CLanguageLearning.Tinyhttpd

open CLanguageLearning.Foundation

/-- `execute_cgi` in front of the status line: the length of the body, if a program is to be
started. -/
def cgiLength (vars : Locals) (method : List UInt8) : Exec Conn (Option Int) := do
  let buf ← startBuf vars.execute_cgi_buf
  if isMethod "GET" method then
    discardHeaders buf 1
    return some (-1)
  else
    let content_length ← readLength buf
    return if content_length = -1 then none else some content_length

theorem execute_cgi_eq (env : Env) (vars : Locals) (path method query_string : List UInt8) :
    execute_cgi env vars path method query_string = cgiLength vars method >>= fun length =>
      match length with
      | some content_length => runProgram env vars path method query_string content_length
      | none => bad_request vars := by
  rw [execute_cgi, cgiLength, bind_assoc]
  refine bind_congr fun buf => ?_
  by_cases hget : isMethod "GET" method = true
  · simp [hget]
  · simp only [hget]
    rw [if_neg (by simp), if_neg (by simp), bind_assoc]
    refine bind_congr fun content_length => ?_
    rw [pure_bind]
    by_cases hnone : content_length = -1
    · simp [hnone]
    · simp [hnone]

/-- The strings that the child puts into its environment, each in an array. -/
def childEnv (method query_string : List UInt8) (content_length : Int) :
    Exec Conn (List (List UInt8)) := do
  let meth_env ← inArray WORD_SIZE (bytes "REQUEST_METHOD=" ++ method)
  if isMethod "GET" method then
    let query_env ← inArray WORD_SIZE (bytes "QUERY_STRING=" ++ query_string)
    return [meth_env, query_env]
  else
    let length_env ← inArray WORD_SIZE (bytes "CONTENT_LENGTH=" ++ decimalInt content_length)
    return [meth_env, length_env]

/-- What the child writes in front of the method, or of the text behind the `?`, leaves room for
it. -/
def EnvFits (method query_string : List UInt8) : Prop :=
  if isMethod "GET" method then query_string.length ≤ 241 else method.length ≤ 239

/-- A program is started: the rest of the headers can be read, they declare a length if the method
is not GET, and there are pipes and a child. -/
def StartsChild (env : Env) (vars : Locals) (method stream : List UInt8) : Prop :=
  env.starts = true ∧ (isMethod "GET" method = true ∨ ∃ n ≠ -1,
    declaredLength (afterLine vars.execute_cgi_buf.toList [65]) stream = some n)

/-- All strings of a request fit in their arrays, and no read of the first line is outside. -/
def StringsFit (env : Env) (vars : Locals) (s : Conn) : Prop :=
  ∃ r t, (readRequest vars).run s = .ok (r, t) ∧ r.methodWord.length < WORD_SIZE ∧
    r.urlWord.length < WORD_SIZE ∧ ∀ mode, env.stat r.path = some mode →
      ∃ path, (indexFile mode r.path).run t = .ok (path, t) ∧
        ((r.cgi || isExecutable mode) = true → env.starts = true → ∀ n u,
          (cgiLength vars r.method).run t = .ok (some n, u) →
            ∃ strings, (childEnv r.method r.query_string n).run u = .ok (strings, u))

section Child

variable {env : Env} {vars : Locals} {method query_string : List UInt8} {n : Int} {s : Conn}

theorem length_of_isMethod {name : String} (h : isMethod name method = true) :
    method.length = (bytes name).length := by
  have hlen := congrArg List.length (of_decide_eq_true h)
  rwa [List.length_map, List.length_map] at hlen

theorem inArray_run_outside {size : Nat} {l : List UInt8} (h : ¬ l.length < size) (s : Conn) :
    (inArray size l).run s = .error .undefined := by
  rw [inArray, if_neg h]
  rfl

theorem meth_env_fits : (bytes "REQUEST_METHOD=" ++ method).length < WORD_SIZE ↔
    method.length ≤ 239 := by
  have hname : (bytes "REQUEST_METHOD=").length = 15 := by decide
  rw [List.length_append, hname, WORD_SIZE]
  omega

theorem query_env_fits : (bytes "QUERY_STRING=" ++ query_string).length < WORD_SIZE ↔
    query_string.length ≤ 241 := by
  have hname : (bytes "QUERY_STRING=").length = 13 := by decide
  rw [List.length_append, hname, WORD_SIZE]
  omega

theorem length_env_fits (hn : n.natAbs < 10 ^ 10) :
    (bytes "CONTENT_LENGTH=" ++ decimalInt n).length < WORD_SIZE := by
  have hname : (bytes "CONTENT_LENGTH=").length = 15 := by decide
  have hlen := length_decimalInt_le (by decide) hn
  rw [List.length_append, hname, WORD_SIZE]
  omega

/-- The strings of the child fit exactly if the method or the query is short enough. -/
theorem childEnv_fits_iff (hn : n.natAbs < 10 ^ 10) (s : Conn) :
    (∃ strings, (childEnv method query_string n).run s = .ok (strings, s)) ↔
      EnvFits method query_string := by
  rw [EnvFits]
  by_cases hget : isMethod "GET" method = true
  · -- the method is GET in some case, so it is short
    have hshort : method.length ≤ 239 := by
      rw [length_of_isMethod hget]
      decide
    rw [if_pos hget, childEnv, run_bind_of_ok (inArray_run (meth_env_fits.mpr hshort) s)]
    rw [if_pos hget, ← query_env_fits]
    by_cases hfits : (bytes "QUERY_STRING=" ++ query_string).length < WORD_SIZE
    · exact iff_of_true ⟨_, run_bind_of_ok (inArray_run hfits s) _⟩ hfits
    · refine iff_of_false ?_ hfits
      rw [run_bind_of_error (inArray_run_outside hfits s)]
      exact fun ⟨_, hrun⟩ => nomatch hrun
  · rw [if_neg hget, childEnv, ← meth_env_fits]
    by_cases hfits : (bytes "REQUEST_METHOD=" ++ method).length < WORD_SIZE
    · rw [run_bind_of_ok (inArray_run hfits s), if_neg hget]
      exact iff_of_true ⟨_, run_bind_of_ok (inArray_run (length_env_fits hn) s) _⟩ hfits
    · refine iff_of_false ?_ hfits
      rw [run_bind_of_error (inArray_run_outside hfits s)]
      exact fun ⟨_, hrun⟩ => nomatch hrun

/-- The number that is declared is an `int`. -/
theorem lengthIn_range {fuel : Nat} {buf line stream : List UInt8} {m : Int}
    (h : lengthIn fuel buf line stream n = some m) (hn : n.natAbs < 10 ^ 10) :
    m.natAbs < 10 ^ 10 := by
  induction fuel generalizing buf line stream n with
  | zero =>
      cases h
      exact hn
  | succ fuel ih =>
      rw [lengthIn] at h
      split at h
      · cases h
        exact hn
      · split at h
        · -- a line with the name: the number of before is forgotten
          obtain ⟨number, -, hrest⟩ := Option.bind_eq_some_iff.mp h
          have hatoi := atoi_range number
          exact ih hrest (by omega)
        · exact ih h hn

theorem cgiLength_get (hget : isMethod "GET" method = true) (vars : Locals) (s : Conn) :
    ∃ rest, (cgiLength vars method).run s = .ok (some (-1), { s with stream := rest }) := by
  have hstart := holding_start vars.execute_cgi_buf
  obtain ⟨rest, hrun⟩ := discardHeaders_run hstart 1 s
  rw [cgiLength, run_bind_of_ok (startBuf_run vars.execute_cgi_buf s), if_pos hget]
  exact ⟨rest, run_bind_of_ok hrun _⟩

/-- For another method the length is the one that is declared. -/
theorem cgiLength_post (hget : ¬ isMethod "GET" method = true) (vars : Locals) (s : Conn) :
    match declaredLength (afterLine vars.execute_cgi_buf.toList [65]) s.stream with
    | none => (cgiLength vars method).run s = .error .undefined
    | some m => ∃ rest, (cgiLength vars method).run s =
        .ok (if m = -1 then none else some m, { s with stream := rest }) := by
  have hread := readLength_run (holding_start vars.execute_cgi_buf).size s
  rw [cgiLength, run_bind_of_ok (startBuf_run vars.execute_cgi_buf s), if_neg hget]
  cases hlength : declaredLength (afterLine vars.execute_cgi_buf.toList [65]) s.stream with
  | none =>
      rw [hlength] at hread
      exact run_bind_of_error hread _
  | some m =>
      rw [hlength] at hread
      obtain ⟨rest, hrun⟩ := hread
      exact ⟨rest, run_bind_of_ok hrun _⟩

theorem cgiLength_some_iff (vars : Locals) (method : List UInt8) (s : Conn) :
    (∃ n u, (cgiLength vars method).run s = .ok (some n, u)) ↔
      isMethod "GET" method = true ∨ ∃ n ≠ -1,
        declaredLength (afterLine vars.execute_cgi_buf.toList [65]) s.stream = some n := by
  by_cases hget : isMethod "GET" method = true
  · obtain ⟨rest, hrun⟩ := cgiLength_get hget vars s
    exact iff_of_true ⟨-1, _, hrun⟩ (Or.inl hget)
  · have hpost := cgiLength_post hget vars s
    rw [or_iff_right hget]
    cases hlength : declaredLength (afterLine vars.execute_cgi_buf.toList [65]) s.stream with
    | none =>
        rw [hlength] at hpost
        rw [hpost]
        simp
    | some m =>
        rw [hlength] at hpost
        obtain ⟨rest, hrun⟩ := hpost
        rw [hrun]
        by_cases hnone : m = -1 <;> simp [hnone]

/-- It is an `int`. -/
theorem cgiLength_range {u : Conn} (h : (cgiLength vars method).run s = .ok (some n, u)) :
    n.natAbs < 10 ^ 10 := by
  by_cases hget : isMethod "GET" method = true
  · obtain ⟨rest, hrun⟩ := cgiLength_get hget vars s
    rw [h] at hrun
    cases hrun
    decide
  · have hpost := cgiLength_post hget vars s
    cases hlength : declaredLength (afterLine vars.execute_cgi_buf.toList [65]) s.stream with
    | none =>
        rw [hlength, h] at hpost
        cases hpost
    | some m =>
        rw [hlength, h] at hpost
        obtain ⟨rest, hrun⟩ := hpost
        have hm : some n = if m = -1 then none else some m := congrArg Prod.fst (Except.ok.inj hrun)
        rw [declaredLength] at hlength
        split at hm
        · cases hm
        · cases hm
          exact lengthIn_range hlength (by decide)

end Child

section Requests

variable {env : Env} {vars : Locals} {s : Conn}

theorem StringsFit.urlEnds (h : StringsFit env vars s) : UrlEnds (firstLine vars s.stream) := by
  obtain ⟨r, t, hrun, -⟩ := h
  obtain ⟨t', -, -, hread⟩ := readRequest_run (s := s) vars rfl
  by_contra hends
  rw [hrun, if_neg hends] at hread
  cases hread

/-- When a child is started, its strings fit as well. -/
theorem StringsFit.envFits (h : StringsFit env vars s) {mode : Nat}
    (hstat : env.stat (requestIn (firstLine vars s.stream)).2.1 = some mode)
    (hcgi : ((requestIn (firstLine vars s.stream)).1 || isExecutable mode) = true)
    (hchild : StartsChild env vars (methodIn (firstLine vars s.stream))
      (lineOf (BUF_SIZE - 1) s.stream).2) :
    EnvFits (methodIn (firstLine vars s.stream)) (requestIn (firstLine vars s.stream)).2.2 := by
  obtain ⟨t', hstream, -, hread⟩ := readRequest_run (s := s) vars rfl
  rw [if_pos h.urlEnds] at hread
  obtain ⟨r, t, hrun, -, -, hmode⟩ := h
  rw [hread] at hrun
  cases hrun
  obtain ⟨path, -, hbuilt⟩ := hmode mode hstat
  obtain ⟨hstarts, hdeclared⟩ := hchild
  rw [← hstream] at hdeclared
  obtain ⟨n, u, hn⟩ := (cgiLength_some_iff vars _ _).mpr hdeclared
  exact (childEnv_fits_iff (cgiLength_range hn) u).mp (hbuilt hcgi hstarts n u hn)

/-- The strings fit exactly if the scan of the URL ends in the array, and what the child puts into
its environment, when one is started, is short enough. -/
theorem strings_fit_iff (env : Env) (vars : Locals) (s : Conn) :
    StringsFit env vars s ↔ UrlEnds (firstLine vars s.stream) ∧
      ∀ mode, env.stat (requestIn (firstLine vars s.stream)).2.1 = some mode →
        ((requestIn (firstLine vars s.stream)).1 || isExecutable mode) = true →
        StartsChild env vars (methodIn (firstLine vars s.stream))
          (lineOf (BUF_SIZE - 1) s.stream).2 →
        EnvFits (methodIn (firstLine vars s.stream))
          (requestIn (firstLine vars s.stream)).2.2 := by
  constructor
  · exact fun h => ⟨h.urlEnds, fun mode => h.envFits⟩
  · rintro ⟨hends, hfits⟩
    obtain ⟨t, hstream, -, hread⟩ := readRequest_run (s := s) vars rfl
    rw [if_pos hends] at hread
    have hword : WORD_SIZE - 1 < WORD_SIZE := by decide
    refine ⟨_, t, hread, Nat.lt_of_le_of_lt (length_wordOf_le ..) hword,
      Nat.lt_of_le_of_lt (length_wordOf_le ..) hword, fun mode hstat => ?_⟩
    refine ⟨_, indexFile_run (length_requestIn_le _) mode t, fun hcgi hstarts n u hn => ?_⟩
    have hdeclared := (cgiLength_some_iff vars _ t).mp ⟨n, u, hn⟩
    rw [hstream] at hdeclared
    exact (childEnv_fits_iff (cgiLength_range hn) u).mpr
      (hfits mode hstat hcgi ⟨hstarts, hdeclared⟩)

/-- A GET with 242 bytes behind the `?`. -/
def longQuery : List UInt8 :=
  bytes "GET /?" ++ List.replicate 242 97 ++ bytes " HTTP/1.0\r\n\r\n"

set_option maxRecDepth 10000 in
/-- The words of its first line. -/
theorem longQuery_words : methodIn (firstLine .zeroed longQuery) = bytes "GET" ∧
    (requestIn (firstLine .zeroed longQuery)).1 = true ∧
    (requestIn (firstLine .zeroed longQuery)).2.2.length = 242 := by
  decide

/-- They do not fit behind `QUERY_STRING=`. -/
theorem long_query_outside :
    ¬ StringsFit ⟨fun _ => some 0o100644, fun _ => none, true, true, true, fun _ _ _ => []⟩ .zeroed
      ⟨longQuery, [], [], false⟩ := by
  intro h
  obtain ⟨hmethod, hcgi, hlen⟩ := longQuery_words
  have hget : isMethod "GET" (methodIn (firstLine .zeroed longQuery)) = true := by
    rw [hmethod]
    decide
  have hfits := h.envFits rfl (by rw [hcgi]; rfl) ⟨rfl, Or.inl hget⟩
  rw [EnvFits, if_pos hget, hlen] at hfits
  exact absurd hfits (by decide)

end Requests

end CLanguageLearning.Tinyhttpd
