import CLanguageLearning.Foundation.CString
import CLanguageLearning.Foundation.Exec

/-!
# The request parser

The parser of `8-3httpparser.cpp` and the loop of `main` that feeds it. The state holds the buffer
and the variables of `main` that the functions share by reference. A `char *` into the buffer is the
index it points at. An access outside the buffer has no meaning, and neither has a string that no
NUL ends.
-/

set_option autoImplicit false

namespace CLanguageLearning.Http

open CLanguageLearning.Foundation

def BUFFER_SIZE : Nat := 4096

/-- `enum CHECK_STATE`. -/
inductive CheckState where
  | requestline
  | header
  | content
  deriving DecidableEq, Repr

/-- `enum LINE_STATUS`. -/
inductive LineStatus where
  | line_ok
  | line_bad
  | line_open
  deriving DecidableEq, Repr

/-- `enum HTTP_CODE`. -/
inductive HttpCode where
  | no_request
  | get_request
  | bad_request
  | forbidden_request
  | internal_error
  | closed_connection
  deriving DecidableEq, Repr

/-- What the parser prints. -/
inductive Message where
  /-- "The request method is GET" -/
  | method
  /-- "The request URL is: %s" -/
  | url (szURL : List UInt8)
  /-- "the request host is: %s" -/
  | host (szTemp : List UInt8)
  /-- "I can not handle this header" -/
  | unhandled
  deriving DecidableEq, Repr

def szret : HttpCode → String
  | .get_request => "I get a correct result\n"
  | _ => "Something wrong\n"

/-- The variables of `main` and what has been printed and sent. -/
structure ParseState where
  buffer : List UInt8
  read_index : Nat
  checked_index : Nat
  start_line : Nat
  checkstate : CheckState
  printed : List Message
  sent : List String
  deriving DecidableEq, Repr

/-- `buffer[i]`. -/
def load (i : Nat) : Exec ParseState UInt8 := do
  let s ← get
  match s.buffer[i]? with
  | some c => return c
  | none => throw .undefined

/-- `buffer[i] = c`. -/
def store (i : Nat) (c : UInt8) : Exec ParseState Unit := do
  let s ← get
  if i < s.buffer.length then set { s with buffer := s.buffer.set i c }
  else throw .undefined

/-- The string at `p`. -/
def str (p : Nat) : Exec ParseState (List UInt8) := do
  let s ← get
  match cstring (s.buffer.drop p) with
  | some t => return t
  | none => throw .undefined

def print (m : Message) : Exec ParseState Unit :=
  modify fun s => { s with printed := s.printed ++ [m] }

/-- `" \t"`. -/
def blanks : List UInt8 := [32, 9]

/-- `"GET"`. -/
def GET : List UInt8 := [71, 69, 84]

/-- `"HTTP/1.1"`. -/
def HTTP_1_1 : List UInt8 := [72, 84, 84, 80, 47, 49, 46, 49]

/-- `"http://"`. -/
def httpScheme : List UInt8 := [104, 116, 116, 112, 58, 47, 47]

/-- `"Host:"`. -/
def Host : List UInt8 := [72, 111, 115, 116, 58]

/-- `'/'`. -/
def slash : UInt8 := 47

/-- `'\r'`. -/
def CR : UInt8 := 13

/-- `'\n'`. -/
def LF : UInt8 := 10

/-- The loop of `parse_line`, with `n` bytes from `checked_index` to `read_index`. -/
def parse_line_loop : Nat → Exec ParseState LineStatus
  | 0 => return .line_open
  | n + 1 => do
      let s ← get
      let temp ← load s.checked_index
      if temp = CR then
        -- the CR is the last byte received: its LF may still come
        if s.checked_index + 1 = s.read_index then return .line_open
        else
          let next ← load (s.checked_index + 1)
          if next = LF then
            store s.checked_index 0
            store (s.checked_index + 1) 0
            modify fun s => { s with checked_index := s.checked_index + 2 }
            return .line_ok
          else return .line_bad
      else if temp = LF then
        -- the CR came with an earlier chunk
        if 1 < s.checked_index then
          let previous ← load (s.checked_index - 1)
          if previous = CR then
            store (s.checked_index - 1) 0
            store s.checked_index 0
            modify fun s => { s with checked_index := s.checked_index + 1 }
            return .line_ok
          else return .line_bad
        else return .line_bad
      else
        modify fun s => { s with checked_index := s.checked_index + 1 }
        parse_line_loop n

def parse_line : Exec ParseState LineStatus := do
  let s ← get
  parse_line_loop (s.read_index - s.checked_index)

/-- The last part of `parse_requestline`: the URL is checked and the header comes next. -/
def parse_url (szURL : Nat) : Exec ParseState HttpCode := do
  let url ← str szURL
  -- an absolute URL goes on at the first slash behind the scheme
  let szURL := if strncasecmp url httpScheme 7 = true then
      (strchr (url.drop 7) slash).map (szURL + 7 + ·)
    else some szURL
  match szURL with
  | none => return .bad_request
  | some szURL =>
      let c ← load szURL
      if c ≠ slash then return .bad_request
      else
        let url ← str szURL
        print (.url url)
        modify fun s => { s with checkstate := .header }
        return .no_request

/-- The middle part of `parse_requestline`, behind the method: the URL is cut off and the version is
checked. -/
def parse_version (szURL : Nat) : Exec ParseState HttpCode := do
  let rest ← str szURL
  let szURL := szURL + strspn rest blanks
  let url ← str szURL
  match strpbrk url blanks with
  | none => return .bad_request
  | some i =>
      store (szURL + i) 0
      let szVersion := szURL + i + 1
      let rest ← str szVersion
      let szVersion := szVersion + strspn rest blanks
      let version ← str szVersion
      if strcasecmp version HTTP_1_1 = true then parse_url szURL
      else return .bad_request

def parse_requestline (szTemp : Nat) : Exec ParseState HttpCode := do
  let line ← str szTemp
  match strpbrk line blanks with
  | none => return .bad_request
  | some i =>
      store (szTemp + i) 0
      let method ← str szTemp
      if strcasecmp method GET = true then
        print .method
        parse_version (szTemp + i + 1)
      else return .bad_request

def parse_headers (szTemp : Nat) : Exec ParseState HttpCode := do
  let c ← load szTemp
  if c = 0 then return .get_request
  else
    let line ← str szTemp
    if strncasecmp line Host 5 = true then
      let rest ← str (szTemp + 5)
      let host ← str (szTemp + 5 + strspn rest blanks)
      print (.host host)
    else print .unhandled
    return .no_request

/-- `parse_content`, whose loop has `fuel` turns. -/
def parse_content : Nat → Exec ParseState HttpCode
  | 0 => throw .diverged
  | fuel + 1 => do
      let linestatus ← parse_line
      match linestatus with
      | .line_ok =>
          let s ← get
          let szTemp := s.start_line
          -- the next line starts behind this one
          set { s with start_line := s.checked_index }
          match s.checkstate with
          | .requestline =>
              let retcode ← parse_requestline szTemp
              if retcode = .bad_request then return .bad_request
              else parse_content fuel
          | .header =>
              let retcode ← parse_headers szTemp
              if retcode = .bad_request then return .bad_request
              else if retcode = .get_request then return .get_request
              else parse_content fuel
          | .content => return .internal_error
      | .line_open => return .no_request
      | .line_bad => return .bad_request

/-- `recv` puts the bytes behind those received before, no more than there is room for. -/
def recv (chunk : List UInt8) : Exec ParseState Unit := do
  let s ← get
  if s.read_index + chunk.length ≤ s.buffer.length then
    set { s with
      buffer := s.buffer.take s.read_index ++ chunk ++ s.buffer.drop (s.read_index + chunk.length)
      read_index := s.read_index + chunk.length }
  else throw .undefined

/-- The loop of `main` on the answers of `recv`, with the last result. It ends when `recv` fails,
behind the last chunk, and when the connection is closed, with an empty chunk. -/
def receive (fuel : Nat) : List (List UInt8) → Exec ParseState HttpCode
  | [] => return .no_request
  | chunk :: chunks => do
      recv chunk
      if chunk = [] then return .no_request
      else
        let result ← parse_content fuel
        if result = .no_request then receive fuel chunks
        else
          modify fun s => { s with sent := s.sent ++ [szret result] }
          return result

/-- The variables of `main` before the loop, with the bytes `l` in the buffer. -/
def ParseState.start (l : List UInt8) : ParseState where
  buffer := l ++ List.replicate (BUFFER_SIZE - l.length) 0
  read_index := l.length
  checked_index := 0
  start_line := 0
  checkstate := .requestline
  printed := []
  sent := []

end CLanguageLearning.Http
