import CLanguageLearning.Foundation.CString
import CLanguageLearning.Foundation.LocalArray

/-!
# The small server

`accept_request` of `httpd.c` and what it calls, on a connection whose socket blocks: `recv` takes
the next byte of the stream, and nothing at its end. The files, `pipe`, `fork` and the program that
a child runs are the environment. A local array holds anything before it is written (`Locals`), and
an access outside it has no meaning.
-/

set_option autoImplicit false

namespace CLanguageLearning.Tinyhttpd

open CLanguageLearning.Foundation

/-- `sizeof(buf)`. -/
def BUF_SIZE : Nat := 1024

/-- `sizeof(method)` and `sizeof(url)`. -/
def WORD_SIZE : Nat := 255

/-- `sizeof(path)`. -/
def PATH_SIZE : Nat := 512

/-- `'\r'`. -/
def CR : UInt8 := 13

/-- `'\n'`. -/
def LF : UInt8 := 10

/-- What one call of `send` is given: a text of the server, or bytes of a file or a program. -/
inductive Sent where
  | text (l : List UInt8)
  | content (l : List UInt8)
  deriving DecidableEq, Repr

/-- A connection: what the client will have sent before it stops, what it has been sent, and what
the program that was started has been given. -/
structure Conn where
  stream : List UInt8
  sent : List Sent
  cgiInput : List UInt8
  closed : Bool
  deriving DecidableEq, Repr

/-- What the server finds: the mode of a file, the content of a file that can be opened, which calls
succeed, and the output of the program at a path for its environment and its input. -/
structure Env where
  stat : List UInt8 → Option Nat
  fopen : List UInt8 → Option (List UInt8)
  pipeOutput : Bool
  pipeInput : Bool
  fork : Bool
  cgi : List UInt8 → List (List UInt8) → List UInt8 → List UInt8

/-- What the local variables hold before they are written. -/
structure Locals where
  accept_buf : Vector UInt8 BUF_SIZE
  bad_request_buf : Vector UInt8 BUF_SIZE
  cat_buf : Vector UInt8 BUF_SIZE
  execute_cgi_buf : Vector UInt8 BUF_SIZE
  execute_cgi_c : UInt8
  serve_file_buf : Vector UInt8 BUF_SIZE

def Locals.zeroed : Locals where
  accept_buf := .replicate BUF_SIZE 0
  bad_request_buf := .replicate BUF_SIZE 0
  cat_buf := .replicate BUF_SIZE 0
  execute_cgi_buf := .replicate BUF_SIZE 0
  execute_cgi_c := 0
  serve_file_buf := .replicate BUF_SIZE 0

/-! ## The socket and the arrays -/

/-- `recv(sock, &c, 1, 0)` -/
def recv : Exec Conn (Option UInt8) := do
  let s ← get
  match s.stream with
  | [] => return none
  | c :: rest => set { s with stream := rest }; return some c

/-- `recv(sock, &c, 1, MSG_PEEK)` -/
def peek : Exec Conn (Option UInt8) := do
  let s ← get
  return s.stream.head?

def send (x : Sent) : Exec Conn Unit := modify fun s => { s with sent := s.sent ++ [x] }

def close : Exec Conn Unit := modify fun s => { s with closed := true }

/-- `buf[j]` -/
def load (buf : List UInt8) (j : Nat) : Exec Conn UInt8 :=
  match buf[j]? with
  | some c => return c
  | none => throw .undefined

/-- `buf[j] = c` -/
def store (buf : List UInt8) (j : Nat) (c : UInt8) : Exec Conn (List UInt8) :=
  if j < buf.length then return buf.set j c else throw .undefined

/-- The string at index `j` of an array. -/
def stringAt (buf : List UInt8) (j : Nat) : Exec Conn (List UInt8) :=
  match cstring (buf.drop j) with
  | some s => return s
  | none => throw .undefined

/-- The string `s`, written to the start of an array. -/
def sprintf (buf s : List UInt8) : Exec Conn (List UInt8) :=
  if s.length < buf.length then return s ++ 0 :: buf.drop (s.length + 1) else throw .undefined

/-- A string built in an array of `size` bytes. -/
def inArray (size : Nat) (s : List UInt8) : Exec Conn (List UInt8) :=
  if s.length < size then return s else throw .undefined

/-- `sprintf(buf, s); send(client, buf, strlen(buf), 0);` for each text. -/
def sendTexts (l : List String) : Exec Conn Unit := l.forM fun s => send (.text (bytes s))

/-! ## Lines -/

/-- The loop of `get_line` at index `i`, with room for `n` more bytes. -/
def get_line_loop : Nat → List UInt8 → Nat → Exec Conn (List UInt8 × Nat)
  | 0, buf, i => return (buf, i)
  | n + 1, buf, i => do
      let c ← recv
      match c with
      -- the end of the stream ends the line
      | none => return (buf, i)
      | some c =>
          if c = CR then
            let d ← peek
            -- a line end is one byte, whatever it was
            if d = some LF then
              let _ ← recv
              let buf ← store buf i LF
              return (buf, i + 1)
            else
              let buf ← store buf i LF
              return (buf, i + 1)
          else
            let buf ← store buf i c
            if c = LF then return (buf, i + 1) else get_line_loop n buf (i + 1)

/-- `get_line(sock, buf, size)`, with the array afterwards. -/
def get_line (buf : List UInt8) (size : Nat) : Exec Conn (List UInt8 × Nat) := do
  let (buf, i) ← get_line_loop (size - 1) buf 0
  let buf ← store buf i 0
  return (buf, i)

/-- `strcmp("\n", buf) == 0` -/
def blankLine (buf : List UInt8) : Exec Conn Bool := do
  let s ← stringAt buf 0
  return s == [LF]

/-- `while ((numchars > 0) && strcmp("\n", buf)) numchars = get_line(client, buf, sizeof(buf));`, in
at most the given number of turns. -/
def discardLoop : Nat → List UInt8 → Nat → Exec Conn Unit
  | 0, _, _ => throw .diverged
  | fuel + 1, buf, numchars =>
      if 0 < numchars then do
        let blank ← blankLine buf
        if blank then return ()
        let (buf, numchars) ← get_line buf BUF_SIZE
        discardLoop fuel buf numchars
      else return ()

/-- Each turn but the last takes a byte from the stream. -/
def discardHeaders (buf : List UInt8) (numchars : Nat) : Exec Conn Unit := do
  let s ← get
  discardLoop (s.stream.length + 2) buf numchars

/-- `"A"`, from where the headers are read. -/
def startBuf (buf : Vector UInt8 BUF_SIZE) : Exec Conn (List UInt8) := do
  let buf ← store buf.toList 0 65
  store buf 1 0

/-! ## Answers -/

def SERVER_STRING : String := "Server: jdbhttpd/0.1.0\r\n"

/-- All of `buf` is sent each time. -/
def bad_request (vars : Locals) : Exec Conn Unit := do
  let buf ← sprintf vars.bad_request_buf.toList (bytes "HTTP/1.0 400 BAD REQUEST\r\n")
  send (.text buf)
  let buf ← sprintf buf (bytes "Content-type: text/html\r\n")
  send (.text buf)
  let buf ← sprintf buf (bytes "\r\n")
  send (.text buf)
  let buf ← sprintf buf (bytes "<P>Your browser sent a bad request, ")
  send (.text buf)
  let buf ← sprintf buf (bytes "such as a POST without a Content-Length.\r\n")
  send (.text buf)

def cannot_execute : Exec Conn Unit :=
  sendTexts ["HTTP/1.0 500 Internal Server Error\r\n", "Content-type: text/html\r\n", "\r\n",
    "<P>Error prohibited CGI execution.\r\n"]

def headers : Exec Conn Unit :=
  sendTexts ["HTTP/1.0 200 OK\r\n", SERVER_STRING, "Content-Type: text/html\r\n", "\r\n"]

def not_found : Exec Conn Unit :=
  sendTexts ["HTTP/1.0 404 NOT FOUND\r\n", SERVER_STRING, "Content-Type: text/html\r\n", "\r\n",
    "<HTML><TITLE>Not Found</TITLE>\r\n", "<BODY><P>The server could not fulfill\r\n",
    "your request because the resource specified\r\n", "is unavailable or nonexistent.\r\n",
    "</BODY></HTML>\r\n"]

def unimplemented : Exec Conn Unit :=
  sendTexts ["HTTP/1.0 501 Method Not Implemented\r\n", SERVER_STRING,
    "Content-Type: text/html\r\n", "\r\n", "<HTML><HEAD><TITLE>Method Not Implemented\r\n",
    "</TITLE></HEAD>\r\n", "<BODY><P>HTTP request method not supported.\r\n",
    "</BODY></HTML>\r\n"]

/-! ## Files -/

/-- A stream of `stdio`: the bytes that have not been read, and whether a read has hit the end. -/
structure File where
  rest : List UInt8
  eof : Bool

/-- The bytes that `fgets` reads when it may store `n`, what is left, and whether the end was
hit. -/
def fgetsBytes : Nat → List UInt8 → List UInt8 × List UInt8 × Bool
  | 0, l => ([], l, false)
  | _ + 1, [] => ([], [], true)
  | n + 1, c :: l =>
      if c = LF then ([c], l, false)
      else
        let (piece, rest, eof) := fgetsBytes n l
        (c :: piece, rest, eof)

/-- `fgets(buf, sizeof(buf), resource)`; at the end of the file `buf` is left as it is. -/
def fgets (buf : List UInt8) (f : File) : Exec Conn (List UInt8 × File) := do
  let (piece, rest, eof) := fgetsBytes (BUF_SIZE - 1) f.rest
  if piece = [] then return (buf, ⟨rest, f.eof || eof⟩)
  let buf ← sprintf buf piece
  return (buf, ⟨rest, f.eof || eof⟩)

/-- `while (!feof(resource)) …`, in at most the given number of turns. -/
def catLoop : Nat → List UInt8 → File → Exec Conn Unit
  | 0, _, _ => throw .diverged
  | fuel + 1, buf, f =>
      if f.eof then return ()
      else do
        let s ← stringAt buf 0
        send (.content s)
        let (buf, f) ← fgets buf f
        catLoop fuel buf f

/-- Each turn reads a byte, but for the one that hits the end. -/
def cat (vars : Locals) (content : List UInt8) : Exec Conn Unit := do
  let (buf, f) ← fgets vars.cat_buf.toList ⟨content, false⟩
  catLoop (content.length + 2) buf f

/-- `fclose` of the null pointer has no meaning. -/
def serve_file (env : Env) (vars : Locals) (filename : List UInt8) : Exec Conn Unit := do
  let buf ← startBuf vars.serve_file_buf
  discardHeaders buf 1
  match env.fopen filename with
  | none =>
      -- `resource` is null, and is closed below
      not_found
      throw .undefined
  | some content =>
      headers
      cat vars content

/-! ## Programs -/

/-- `strcasecmp(method, name) == 0` -/
def isMethod (name : String) (method : List UInt8) : Bool := strcasecmp method (bytes name)

/-- The loop over the headers of a POST, in at most the given number of turns. -/
def lengthLoop : Nat → List UInt8 → Nat → Int → Exec Conn Int
  | 0, _, _, _ => throw .diverged
  | fuel + 1, buf, numchars, content_length =>
      if 0 < numchars then do
        let blank ← blankLine buf
        if blank then return content_length
        -- the line is cut behind the name of the header, if it has the right length
        let buf ← store buf 15 0
        let name ← stringAt buf 0
        if isMethod "Content-Length:" name then
          let number ← stringAt buf 16
          let (buf, numchars) ← get_line buf BUF_SIZE
          lengthLoop fuel buf numchars (atoi number)
        else
          let (buf, numchars) ← get_line buf BUF_SIZE
          lengthLoop fuel buf numchars content_length
      else return content_length

/-- The number behind the last `Content-Length:`, or -1. -/
def readLength (buf : List UInt8) : Exec Conn Int := do
  let (buf, numchars) ← get_line buf BUF_SIZE
  let s ← get
  lengthLoop (s.stream.length + 2) buf numchars (-1)

/-- `recv(client, &c, 1, 0); write(cgi_input[1], &c, 1);`, `n` times. At the end of the stream `c` is
left as it is. -/
def forwardBody : Nat → UInt8 → Exec Conn Unit
  | 0, _ => return ()
  | n + 1, c => do
      let d ← recv
      -- what `recv` returns is not looked at
      let c := d.getD c
      modify fun s => { s with cgiInput := s.cgiInput ++ [c] }
      forwardBody n c

/-- The variables that the child puts into its environment. -/
def cgiEnv (method query_string : List UInt8) (content_length : Int) : List (List UInt8) :=
  [bytes "REQUEST_METHOD=" ++ method,
    if isMethod "GET" method then bytes "QUERY_STRING=" ++ query_string
    else bytes "CONTENT_LENGTH=" ++ decimalInt content_length]

/-- `execute_cgi` from the status line on. -/
def runProgram (env : Env) (vars : Locals) (path method query_string : List UInt8)
    (content_length : Int) : Exec Conn Unit := do
  sendTexts ["HTTP/1.0 200 OK\r\n"]
  if !env.pipeOutput then cannot_execute
  else if !env.pipeInput then cannot_execute
  else if !env.fork then cannot_execute
  else do
    forwardBody (if isMethod "POST" method then content_length.toNat else 0) vars.execute_cgi_c
    let s ← get
    let output := env.cgi path (cgiEnv method query_string content_length) s.cgiInput
    output.forM fun c => send (.content [c])

def execute_cgi (env : Env) (vars : Locals) (path method query_string : List UInt8) :
    Exec Conn Unit := do
  let buf ← startBuf vars.execute_cgi_buf
  if isMethod "GET" method then
    discardHeaders buf 1
    runProgram env vars path method query_string (-1)
  else
    -- any other method than GET is taken for a POST
    let content_length ← readLength buf
    if content_length = -1 then bad_request vars
    else runProgram env vars path method query_string content_length

/-! ## Requests -/

/-- `while (!ISspace(buf[j]) && (i < sizeof(a) - 1) && inside(j)) { a[i] = buf[j]; i++; j++; }` with
room for `n` more bytes: the word and the index behind it. -/
def copyWord (inside : Nat → Bool) (buf : List UInt8) : Nat → Nat → Exec Conn (List UInt8 × Nat)
  | n, j => do
      let c ← load buf j
      if isspace c then return ([], j)
      match n with
      | 0 => return ([], j)
      | n + 1 =>
          if inside j then
            let (w, j) ← copyWord inside buf n (j + 1)
            return (c :: w, j)
          else return ([], j)

/-- `while (ISspace(buf[j]) && (j < sizeof(buf))) j++;`, in at most the given number of turns. -/
def skipSpaces (buf : List UInt8) : Nat → Nat → Exec Conn Nat
  | 0, _ => throw .diverged
  | fuel + 1, j => do
      let c ← load buf j
      if isspace c ∧ j < BUF_SIZE then skipSpaces buf fuel (j + 1) else return j

/-- `st.st_mode & S_IFMT` is `S_IFDIR`. -/
def isDirectory (mode : Nat) : Bool := mode &&& 0o170000 == 0o040000

/-- One of `S_IXUSR`, `S_IXGRP` and `S_IXOTH` is set. -/
def isExecutable (mode : Nat) : Bool := mode &&& 0o111 != 0

/-- A directory stands for a file in it. -/
def indexFile (mode : Nat) (path : List UInt8) : Exec Conn (List UInt8) :=
  if isDirectory mode then inArray PATH_SIZE (path ++ bytes "/index.html") else return path

/-- `accept_request` from `stat` on. -/
def respond (env : Env) (vars : Locals) (buf : List UInt8) (numchars : Nat) (cgi : Bool)
    (path method query_string : List UInt8) : Exec Conn Unit := do
  match env.stat path with
  | none =>
      discardHeaders buf numchars
      not_found
  | some mode =>
      let path ← indexFile mode path
      if cgi || isExecutable mode then execute_cgi env vars path method query_string
      else serve_file env vars path

/-- For a GET the URL is cut at the first `?`, which asks for a program. -/
def cutQuery (method url : List UInt8) : Bool × List UInt8 × List UInt8 :=
  if isMethod "GET" method then
    (url.contains 63, url.takeWhile (· ≠ 63), (url.dropWhile (· ≠ 63)).drop 1)
  else (false, url, [])

/-- The file that is asked for. -/
def requestPath (url : List UInt8) : Exec Conn (List UInt8) := do
  let path ← inArray PATH_SIZE (bytes "htdocs" ++ url)
  if path.getLast? = some 47 then inArray PATH_SIZE (path ++ bytes "index.html") else return path

/-- Without a `return` behind it. -/
def checkMethod (method : List UInt8) : Exec Conn Unit :=
  if !isMethod "GET" method && !isMethod "POST" method then unimplemented else return ()

def accept_request (env : Env) (vars : Locals) : Exec Conn Unit := do
  let (buf, numchars) ← get_line vars.accept_buf.toList BUF_SIZE
  let (method, j) ← copyWord (fun _ => true) buf (WORD_SIZE - 1) 0
  let method := upToNul method
  checkMethod method
  let j ← skipSpaces buf (BUF_SIZE + 1) j
  let (url, _) ← copyWord (fun j => decide (j < BUF_SIZE)) buf (WORD_SIZE - 1) j
  -- from here on `method` and `url` are strings
  let (query, url, query_string) := cutQuery method (upToNul url)
  let path ← requestPath url
  respond env vars buf numchars (isMethod "POST" method || query) path method query_string
  close

end CLanguageLearning.Tinyhttpd
