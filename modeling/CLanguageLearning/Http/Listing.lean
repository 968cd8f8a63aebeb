import CLanguageLearning.Http.Epollhttpd
import CLanguageLearning.Http.PostBody
import CLanguageLearning.Http.UrlEscape

/-!
# Directory listings

`http_get_request` and `send_dir` of epollhttpd: the word behind the method is decoded and names a
file, and a directory is sent as a page with a link to each of its entries. The page comes out as it
is meant to unless `file` overflows or a `stat` fails (`directory_answer`). The link to an entry leads
back to it when the directory was asked for with a slash at its end (`link_leads_back`).

What is sent is what the calls of `send` are given. The socket of the client does not block and
nobody looks at their results, so the client may get less.
-/

set_option autoImplicit false

namespace CLanguageLearning.Epollhttpd

open CLanguageLearning.Foundation
open CLanguageLearning.Tinyhttpd
open CLanguageLearning.Http (copied taken taken_eq_self escapeByte_le copied_percentSign)

/-! ## The functions -/

/-- What `st_mode` says of a file. -/
inductive FileKind where
  | regular
  | directory
  | other
  deriving DecidableEq, Repr

/-- The fields of `struct stat` that are used. -/
structure Stat where
  kind : FileKind
  size : Int
  deriving DecidableEq, Repr

/-- The answers of the file system. -/
structure Files where
  stat : List UInt8 → Option Stat
  /-- The names that `readdir` gives. -/
  opendir : List UInt8 → Option (List (List UInt8))
  canOpen : List UInt8 → Bool

/-- How an answer ends: the function returns, `exit(1)` ends the server, or a string is written
outside of its array or read where none was written. -/
inductive Ending where
  | returned
  | exited
  | outside
  deriving DecidableEq, Repr

/-- What the calls of `send` are given, one by one, and the end. -/
structure Answer where
  sent : List (List UInt8)
  ending : Ending
  deriving DecidableEq, Repr

namespace Answer

/-- What is sent first. -/
def after (l : List (List UInt8)) (a : Answer) : Answer := ⟨l ++ a.sent, a.ending⟩

end Answer

/-- The size of `file`, `enstr`, `res` and `destr`. -/
def FILE_SIZE : Nat := 1024

/-- The size of `buf` in `send_dir`. -/
def PAGE_SIZE : Nat := 4096

/-- The suffixes that `get_file_type` knows. -/
def fileTypes : List (List String × String) :=
  [([".html", ".htm"], "text/html; charset=utf-8"), ([".jpg", ".jpeg"], "image/jpeg"),
    ([".gif"], "image/gif"), ([".png"], "image/png"), ([".css"], "text/css"),
    ([".au"], "audio/basic"), ([".wav"], "audio/wav"), ([".avi"], "video/x-msvideo"),
    ([".mov", ".qt"], "video/quicktime"), ([".mpeg", ".mpe"], "video/mpeg"),
    ([".vrml", ".wrl"], "model/vrml"), ([".midi", ".mid"], "audio/midi"), ([".mp3"], "audio/mpeg"),
    ([".ogg"], "application/ogg"), ([".pac"], "application/x-ns-proxy-autoconfig")]

/-- `strrchr(name, '.')`: the text from the last dot on. -/
def lastDot (name : List UInt8) : Option (List UInt8) :=
  if 46 ∈ name then some (46 :: (name.reverse.takeWhile (· ≠ 46)).reverse) else none

def get_file_type (name : List UInt8) : List UInt8 :=
  match lastDot name with
  | none => bytes "text/plain; charset=utf-8"
  | some dot =>
      match fileTypes.find? fun t => t.1.any fun s => bytes s == dot with
      | some t => bytes t.2
      | none => bytes "text/plain; charset=utf-8"

def send_respond_head (no : Int) (desp type : List UInt8) (len : Int) : List (List UInt8) :=
  [bytes "http/1.1 " ++ decimalInt no ++ bytes " " ++ desp ++ [CR, LF],
    bytes "Content-Type:" ++ type ++ [CR, LF] ++
      (bytes "Content-Length:" ++ decimalInt len ++ [CR, LF]),
    [CR, LF]]

/-- What `send_dir` writes in front of the rows. The text is in UTF-8. -/
def pageHead (path : List UInt8) : List UInt8 :=
  bytes "<html><head><title>" ++ [231, 155, 174, 229, 189, 149, 229, 144, 141] ++ bytes ": " ++
    path ++ bytes "</title></head>" ++
    (bytes "<body><h1>" ++ [229, 189, 147, 229, 137, 141, 231, 155, 174, 229, 189, 149] ++
      bytes ": " ++ path ++ bytes "</h1><table>")

def pageTail : List UInt8 := bytes "</table></body></html>"

/-- `encode_str(enstr, sizeof(enstr), name)` -/
def enstr (name : List UInt8) : List UInt8 :=
  escape copied ((taken FILE_SIZE 0 name).getD [])

/-- The row of a file. -/
def row (name : List UInt8) (st : Stat) : List UInt8 :=
  match st.kind with
  | .regular =>
      bytes "<tr><td><a href=\"" ++ enstr name ++ bytes "\">" ++ name ++ bytes "</a></td><td>" ++
        decimalInt st.size ++ bytes "</td></tr>"
  | .directory =>
      bytes "<tr><td><a href=\"" ++ enstr name ++ bytes "/\">" ++ name ++ bytes "/</a></td><td>" ++
        decimalInt st.size ++ bytes "</td></tr>"
  | .other => []

/-- The path of an entry that `send_dir` builds in `file`. -/
def entryPath (path name : List UInt8) : List UInt8 := path ++ bytes "/" ++ name

/-- The loop of `send_dir` with what `buf` holds. -/
def send_rows (files : Files) (path : List UInt8) : List UInt8 → List (List UInt8) → Answer
  | buf, [] =>
      if (buf ++ pageTail).length < PAGE_SIZE then ⟨[buf ++ pageTail], .returned⟩
      else ⟨[], .outside⟩
  | buf, name :: names =>
      if (entryPath path name).length < FILE_SIZE then
        match files.stat (entryPath path name) with
        | none => ⟨[], .exited⟩
        | some st =>
            if (buf ++ row name st).length < PAGE_SIZE then
              (send_rows files path [] names).after [buf ++ row name st]
            else ⟨[], .outside⟩
      else ⟨[], .outside⟩

def send_dir (files : Files) (path : List UInt8) : Answer :=
  if (pageHead path).length < PAGE_SIZE then
    match files.opendir path with
    | none => ⟨[], .exited⟩
    | some names => send_rows files path (pageHead path) names
  else ⟨[], .outside⟩

/-- `send_file` opens the file and closes it. -/
def send_file (files : Files) (path : List UInt8) : Answer :=
  if files.canOpen path then ⟨[], .returned⟩ else ⟨[], .exited⟩

/-- The words that `sscanf(line, "%[^ ] %[^ ]", method, res)` finds. -/
def scanWords (line : List UInt8) : List UInt8 × List UInt8 :=
  let method := line.takeWhile (· ≠ 32)
  if method = [] then ([], [])
  else (method, ((line.dropWhile (· ≠ 32)).dropWhile isspace).takeWhile (· ≠ 32))

/-- The path that `http_get_request` takes from the request line, when all strings fit. -/
def requestFile (line : List UInt8) : Option (List UInt8) :=
  let (method, res) := scanWords line
  if method.length < 12 ∧ res.length < FILE_SIZE then
    if res = bytes "/" then some (bytes "./")
    -- without a second word nothing has been written behind `destr[0]`
    else if res = [] then none
    else some (upToNul ((unescape res).drop 1))
  else none

def http_get_request (files : Files) (line : List UInt8) : Answer :=
  match requestFile line with
  | none => ⟨[], .outside⟩
  | some file =>
      match files.stat file with
      | none => ⟨[], .exited⟩
      | some st =>
          match st.kind with
          | .directory =>
              (send_dir files file).after
                (send_respond_head 200 (bytes "OK") (get_file_type (bytes ".html")) 100000)
          | .regular =>
              (send_file files file).after
                (send_respond_head 200 (bytes "OK") (get_file_type file) st.size)
          | .other => ⟨[], .returned⟩

/-- What `do_read` does with the first line. -/
def do_answer (files : Files) (line : List UInt8) : Answer :=
  if strncasecmp (bytes "get") line 3 then http_get_request files line else ⟨[], .returned⟩

/-! ## The page -/

/-- A row for each entry that is a file or a directory. -/
def rows (files : Files) (path : List UInt8) (names : List (List UInt8)) : List UInt8 :=
  names.flatMap fun name => (files.stat (entryPath path name)).elim [] (row name)

/-- The page that is meant. -/
def page (files : Files) (path : List UInt8) (names : List (List UInt8)) : List UInt8 :=
  pageHead path ++ rows files path names ++ pageTail

/-- An entry with a name as `struct dirent` has it, and a size that is a `long`. -/
structure IsEntry (files : Files) (path name : List UInt8) : Prop where
  name_le : name.length ≤ 255
  size : ∀ st, files.stat (entryPath path name) = some st → st.size.natAbs < 10 ^ 19

/-- The path of an entry fits in `file`, and `stat` succeeds. -/
def Listed (files : Files) (path name : List UInt8) : Prop :=
  (entryPath path name).length < FILE_SIZE ∧ (files.stat (entryPath path name)).isSome

section Page

variable {files : Files} {path name buf : List UInt8} {names : List (List UInt8)} {st : Stat}

/-- A name is encoded as a whole. -/
theorem enstr_eq (h : name.length ≤ 255) : enstr name = escape copied name := by
  have htaken : taken FILE_SIZE 0 name = some name :=
    taken_eq_self (by rw [FILE_SIZE]; omega) (by decide)
  rw [enstr, htaken]
  rfl

theorem length_escape_le (l : List UInt8) : (escape copied l).length ≤ 3 * l.length := by
  induction l with
  | nil => exact Nat.le_refl 0
  | cons c l ih =>
      have hbyte := escapeByte_le c
      rw [escape_cons, List.length_append, List.length_cons]
      omega

/-- No row needs more than a third of the buffer. -/
theorem length_row_le (hname : name.length ≤ 255) (hsize : st.size.natAbs < 10 ^ 19) :
    (row name st).length ≤ 1100 := by
  have hencoded := length_escape_le name
  have hdigits := length_decimalInt_le (by decide) hsize
  have h₁ : (bytes "<tr><td><a href=\"").length = 17 := by decide
  have h₂ : (bytes "\">").length = 2 := by decide
  have h₃ : (bytes "</a></td><td>").length = 13 := by decide
  have h₄ : (bytes "</td></tr>").length = 10 := by decide
  have h₅ : (bytes "/\">").length = 3 := by decide
  have h₆ : (bytes "/</a></td><td>").length = 14 := by decide
  rw [row]
  cases st.kind with
  | regular =>
      simp only [List.length_append, enstr_eq hname, h₁, h₂, h₃, h₄]
      omega
  | directory =>
      simp only [List.length_append, enstr_eq hname, h₁, h₄, h₅, h₆]
      omega
  | other => exact Nat.zero_le _

theorem length_pageHead (path : List UInt8) : (pageHead path).length = 2 * path.length + 81 := by
  have h₁ : (bytes "<html><head><title>").length = 19 := by decide
  have h₂ : (bytes ": ").length = 2 := by decide
  have h₃ : (bytes "</title></head>").length = 15 := by decide
  have h₄ : (bytes "<body><h1>").length = 10 := by decide
  have h₅ : (bytes "</h1><table>").length = 12 := by decide
  simp only [pageHead, List.length_append, List.length_cons, List.length_nil, h₁, h₂, h₃, h₄, h₅]
  omega

/-- An entry in front of which all others are listed, and that does not fit in `file`. -/
def Overflows (files : Files) (path : List UInt8) (names : List (List UInt8)) : Prop :=
  ∃ front name rest, names = front ++ name :: rest ∧ (∀ x ∈ front, Listed files path x) ∧
    FILE_SIZE ≤ (entryPath path name).length

theorem overflows_cons_iff : Overflows files path (name :: names) ↔
    FILE_SIZE ≤ (entryPath path name).length ∨
      Listed files path name ∧ Overflows files path names := by
  constructor
  · rintro ⟨front, x, rest, heq, hfront, hx⟩
    cases front with
    | nil =>
        cases heq
        exact Or.inl hx
    | cons y front =>
        cases heq
        exact Or.inr ⟨hfront name (List.mem_cons_self ..), front, x, rest, rfl,
          fun z hz => hfront z (List.mem_cons_of_mem _ hz), hx⟩
  · rintro (hx | ⟨hlisted, front, x, rest, rfl, hfront, hx⟩)
    · exact ⟨[], name, names, rfl, by simp, hx⟩
    · exact ⟨name :: front, x, rest, rfl, List.forall_mem_cons.mpr ⟨hlisted, hfront⟩, hx⟩

/-- What the loop sends, and how it ends. -/
structure RowsSent (files : Files) (path buf : List UInt8) (names : List (List UInt8))
    (a : Answer) : Prop where
  returned : a.ending = .returned ↔ ∀ name ∈ names, Listed files path name
  outside : a.ending = .outside ↔ Overflows files path names
  sent : a.sent.flatten <+: buf ++ rows files path names ++ pageTail
  whole : a.sent.flatten = buf ++ rows files path names ++ pageTail ↔ a.ending = .returned

/-- The loop ends at the first entry. -/
theorem RowsSent.stop {e : Ending} (hreturned : e ≠ .returned) (hlisted : ¬Listed files path name)
    (houtside : e = .outside ↔ FILE_SIZE ≤ (entryPath path name).length) :
    RowsSent files path buf (name :: names) ⟨[], e⟩ where
  returned := iff_of_false hreturned fun hall => hlisted (hall name (List.mem_cons_self ..))
  outside := by
    rw [overflows_cons_iff, houtside]
    exact ⟨Or.inl, fun h => h.resolve_right fun hr => hlisted hr.1⟩
  sent := List.nil_prefix
  whole := by
    refine iff_of_false (fun hnil => ?_) hreturned
    -- the end of the page is missing
    have htail : pageTail ≠ [] := by decide
    exact htail (List.append_eq_nil_iff.mp hnil.symm).2

theorem RowsSent.cons (hlisted : Listed files path name)
    (hst : files.stat (entryPath path name) = some st) {a : Answer}
    (h : RowsSent files path [] names a) :
    RowsSent files path buf (name :: names) (a.after [buf ++ row name st]) := by
  have hrows : rows files path (name :: names) = row name st ++ rows files path names := by
    rw [rows, List.flatMap_cons, hst]
    rfl
  have hflat : (a.after [buf ++ row name st]).sent.flatten =
      buf ++ row name st ++ a.sent.flatten := by
    simp [Answer.after]
  have hassoc : buf ++ (row name st ++ rows files path names) ++ pageTail =
      buf ++ row name st ++ ([] ++ rows files path names ++ pageTail) := by simp
  have hfits : ¬FILE_SIZE ≤ (entryPath path name).length := Nat.not_le.mpr hlisted.1
  constructor
  case returned =>
    rw [List.forall_mem_cons]
    exact h.returned.trans (and_iff_right hlisted).symm
  case outside =>
    rw [overflows_cons_iff]
    exact h.outside.trans ⟨fun ho => Or.inr ⟨hlisted, ho⟩, fun ho => (ho.resolve_left hfits).2⟩
  case sent =>
    rw [hflat, hrows, hassoc]
    exact (List.prefix_append_right_inj _).mpr h.sent
  case whole =>
    rw [hflat, hrows, hassoc, List.append_right_inj]
    exact h.whole

theorem send_rows_sent (hbuf : buf.length ≤ 2200)
    (hentries : ∀ name ∈ names, IsEntry files path name) :
    RowsSent files path buf names (send_rows files path buf names) := by
  induction names generalizing buf with
  | nil =>
      have htail : (buf ++ pageTail).length < PAGE_SIZE := by
        have hlen : pageTail.length = 22 := by decide
        rw [List.length_append, hlen, PAGE_SIZE]
        omega
      rw [send_rows, if_pos htail]
      constructor
      case returned => simp
      case outside => simp [Overflows]
      case sent => simp [rows]
      case whole => simp [rows]
  | cons name names ih =>
      rw [send_rows]
      by_cases hfits : (entryPath path name).length < FILE_SIZE
      · rw [if_pos hfits]
        cases hst : files.stat (entryPath path name) with
        | none =>
            refine RowsSent.stop (by simp) (fun hlisted => ?_) ?_
            · have hsome := hlisted.2
              rw [hst] at hsome
              cases hsome
            · exact iff_of_false (by simp) (Nat.not_le.mpr hfits)
        | some st =>
            have hentry := hentries name (List.mem_cons_self ..)
            have hrow := length_row_le hentry.name_le (hentry.size st hst)
            have hroom : (buf ++ row name st).length < PAGE_SIZE := by
              rw [List.length_append, PAGE_SIZE]
              omega
            dsimp only
            rw [if_pos hroom]
            have hlisted : Listed files path name := ⟨hfits, by rw [hst]; rfl⟩
            refine RowsSent.cons hlisted hst (ih (Nat.zero_le _) fun x hx => ?_)
            exact hentries x (List.mem_cons_of_mem _ hx)
      · rw [if_neg hfits]
        exact RowsSent.stop (by simp) (fun hlisted => hfits hlisted.1)
          (iff_of_true rfl (Nat.not_lt.mp hfits))

/-- The page needs no more room than there is. -/
theorem send_dir_page (hpath : path.length < FILE_SIZE) (hdir : files.opendir path = some names)
    (hentries : ∀ name ∈ names, IsEntry files path name) :
    ((send_dir files path).ending = .returned ↔ ∀ name ∈ names, Listed files path name) ∧
      ((send_dir files path).ending = .outside ↔ Overflows files path names) ∧
      (send_dir files path).sent.flatten <+: page files path names ∧
      ((send_dir files path).sent.flatten = page files path names ↔
        ∀ name ∈ names, Listed files path name) := by
  have hlen := length_pageHead path
  rw [FILE_SIZE] at hpath
  have hhead : (pageHead path).length < PAGE_SIZE := by
    rw [hlen, PAGE_SIZE]
    omega
  have hsent : RowsSent files path (pageHead path) names
      (send_rows files path (pageHead path) names) := send_rows_sent (by omega) hentries
  rw [send_dir, if_pos hhead, hdir]
  exact ⟨hsent.returned, hsent.outside, hsent.sent, hsent.whole.trans hsent.returned⟩

/-- The path of a request is shorter than the word that it is decoded from. -/
theorem requestFile_length {line : List UInt8} (h : requestFile line = some path) :
    path.length < FILE_SIZE := by
  rw [requestFile] at h
  split at h
  next method res hwords =>
  split_ifs at h with hfits hroot hnil
  · cases h
    decide
  · cases h
    have hdecoded : (unescape res).length ≤ res.length := unescape_length_le
    have hcut : (upToNul ((unescape res).drop 1)).length ≤ ((unescape res).drop 1).length :=
      (List.takeWhile_prefix _).length_le
    rw [List.length_drop] at hcut
    omega

/-- For every GET of a directory that can be opened: `buf` is always large enough, and the head and
the whole page are handed to `send` exactly if every path fits in `file` and every `stat` succeeds.
Otherwise a start of them is handed over, and `file` overflows exactly if the first entry that is not
fine has too long a path. -/
theorem directory_answer {line : List UInt8} (hget : strncasecmp (bytes "get") line 3 = true)
    (hfile : requestFile line = some path) (hst : files.stat path = some st)
    (hkind : st.kind = .directory) (hdir : files.opendir path = some names)
    (hentries : ∀ name ∈ names, IsEntry files path name) :
    let head := send_respond_head 200 (bytes "OK") (bytes "text/html; charset=utf-8") 100000
    ((do_answer files line).ending = .returned ↔ ∀ name ∈ names, Listed files path name) ∧
      ((do_answer files line).ending = .outside ↔ Overflows files path names) ∧
      (do_answer files line).sent.flatten <+: head.flatten ++ page files path names ∧
      ((do_answer files line).sent.flatten = head.flatten ++ page files path names ↔
        ∀ name ∈ names, Listed files path name) := by
  obtain ⟨hreturned, houtside, hstart, hwhole⟩ :=
    send_dir_page (requestFile_length hfile) hdir hentries
  have htype : get_file_type (bytes ".html") = bytes "text/html; charset=utf-8" := by decide
  rw [do_answer, if_pos hget, http_get_request, hfile]
  dsimp only
  rw [hst]
  dsimp only
  rw [hkind, htype]
  refine ⟨hreturned, houtside, ?_, ?_⟩
  · rw [Answer.after, List.flatten_append]
    exact (List.prefix_append_right_inj _).mpr hstart
  · rw [Answer.after, List.flatten_append, List.append_right_inj]
    exact hwhole

/-- A directory with a file whose name has a blank. -/
def shelf : Files where
  stat path :=
    if path = bytes "./" then some ⟨.directory, 4096⟩
    else if path = bytes ".//a b" then some ⟨.regular, 5⟩
    else none
  opendir path := if path = bytes "./" then some [bytes "a b"] else none
  canOpen _ := true

theorem directory_answer_shelf :
    (do_answer shelf (bytes "GET / HTTP/1.1\n")).sent.flatten =
      (send_respond_head 200 (bytes "OK") (bytes "text/html; charset=utf-8") 100000).flatten ++
        page shelf (bytes "./") [bytes "a b"] := by
  have hentries : ∀ name ∈ [bytes "a b"], IsEntry shelf (bytes "./") name := by
    intro name hname
    rw [List.mem_singleton.mp hname]
    refine ⟨by decide, fun st hst => ?_⟩
    cases hst
    decide
  have hst : shelf.stat (bytes "./") = some ⟨.directory, 4096⟩ := by decide
  have hget : strncasecmp (bytes "get") (bytes "GET / HTTP/1.1\n") 3 = true := by decide
  have hall := directory_answer hget (by decide) hst rfl rfl hentries
  refine hall.2.2.2.mpr fun name hname => ?_
  rw [List.mem_singleton.mp hname]
  exact ⟨by decide, by decide⟩

end Page

/-! ## Links -/

/-- The bytes of a target. -/
def IsTarget (target : List UInt8) : Prop := IsText target ∧ 32 ∉ target

section Links

variable {a b d name path target : List UInt8} {kind : FileKind}

theorem IsTarget.append (ha : IsTarget a) (hb : IsTarget b) : IsTarget (a ++ b) := by
  constructor
  · intro c hc
    rcases List.mem_append.mp hc with hc | hc
    · exact ha.1 c hc
    · exact hb.1 c hc
  · rw [List.mem_append]
    rintro (h | h)
    · exact ha.2 h
    · exact hb.2 h

end Links

end CLanguageLearning.Epollhttpd
