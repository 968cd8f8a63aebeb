import Mathlib.Algebra.BigOperators.Group.Finset.Basic
import CLanguageLearning.WebServer.BlockQueueRuns

/-!
# The asynchronous log

`Log` of the webserver's `log.h` and `log.cpp`: threads format lines and hand them to a blocking
queue, or write them to the file themselves when the queue is full; one thread takes lines from the
queue and writes them. The test for room and the push are two critical sections of the queue, and
`write_log` ignores the answer of the push. Lines are lost exactly by the pushes that find the queue
full after all (`written_iff`).

A step is the part of a function that runs under one lock.
-/

set_option autoImplicit false

namespace CLanguageLearning.WebServer

open CLanguageLearning.Foundation

/-- The fields of `struct tm` that the log uses. -/
structure Tm where
  tm_year : Int
  tm_mon : Int
  tm_mday : Int
  tm_hour : Int
  tm_min : Int
  tm_sec : Int
  deriving DecidableEq, Repr

/-- A call of `write_log`: the level, the text that the format and its arguments give, and the time
at which the call reads the clock. -/
structure LogCall where
  level : Int
  text : String
  my_tm : Tm
  tv_usec : Int
  deriving DecidableEq, Repr

/-- The members of `Log` that `m_mutex` protects, and the lines written so far, each with the name
of the file it went to. `m_fp` has the name of the open file, `none` for a null pointer. -/
structure Log where
  dir_name : String
  log_name : String
  m_split_lines : Int
  m_log_buf_size : Nat
  m_count : Int
  m_today : Int
  m_fp : Option String
  m_is_async : Bool
  files : List (String × String)
  deriving DecidableEq, Repr

namespace Log

/-- `%02d` and the like. -/
def padded (width : Nat) (n : Int) : String := (toString n).leftpad width '0'

/-- The `switch (level)` of `write_log`. -/
def levelText (level : Int) : String :=
  if level = 0 then "[debug]:"
  else if level = 1 then "[info]:"
  else if level = 2 then "[warn]:"
  else if level = 3 then "[erro]:"
  else "[info]:"

/-- What `snprintf` leaves in a buffer of the given size. -/
def snprintf (size : Nat) (text : String) : String := text.take (size - 1) |>.toString

/-- The date in front of a file's name. -/
def dateTail (tm : Tm) : String :=
  snprintf 16 (toString (tm.tm_year + 1900) ++ "_" ++ padded 2 (tm.tm_mon + 1) ++ "_" ++
    padded 2 tm.tm_mday ++ "_")

/-- The first part of a line. -/
def head (c : LogCall) : String :=
  toString (c.my_tm.tm_year + 1900) ++ "-" ++ padded 2 (c.my_tm.tm_mon + 1) ++ "-" ++
    padded 2 c.my_tm.tm_mday ++ " " ++ padded 2 c.my_tm.tm_hour ++ ":" ++
    padded 2 c.my_tm.tm_min ++ ":" ++ padded 2 c.my_tm.tm_sec ++ "." ++ padded 6 c.tv_usec ++ " " ++
    levelText c.level ++ " "

/-- The section that counts the line and changes the file on a new day or after `m_split_lines`
lines; `opened` tells whether `fopen` succeeds. -/
def rotate (c : LogCall) (opened : Bool) : Exec Log Unit := do
  modify fun s => { s with m_count := s.m_count + 1 }
  let s ← get
  -- a remainder by 0 is computed only when the day is the same
  if s.m_today = c.my_tm.tm_mday ∧ s.m_split_lines = 0 then throw .undefined
  else if s.m_today ≠ c.my_tm.tm_mday ∨ s.m_count.tmod s.m_split_lines = 0 then do
    -- `fflush` and `fclose` of the file that was open
    if s.m_fp = none then throw .undefined
    else
      let tail := dateTail c.my_tm
      if s.m_today ≠ c.my_tm.tm_mday then do
        let new_log := snprintf 255 (s.dir_name ++ tail ++ s.log_name)
        modify fun s => { s with
          m_today := c.my_tm.tm_mday
          m_count := 0
          m_fp := if opened then some new_log else none }
      else do
        let new_log := snprintf 255 (s.dir_name ++ tail ++ s.log_name ++ "." ++
          toString (s.m_count.tdiv s.m_split_lines))
        modify fun s => { s with m_fp := if opened then some new_log else none }
  else return ()

/-- The section that formats the line in `m_buf`; a text that does not fit is written past the end
of the buffer. -/
def format (c : LogCall) : Exec Log String := do
  let s ← get
  if 48 ≤ (head c).utf8ByteSize ∨
      s.m_log_buf_size ≤ (head c).utf8ByteSize + c.text.utf8ByteSize + 1 then throw .undefined
  else return head c ++ c.text ++ "\n"

/-- `fputs(line, m_fp)`. -/
def fputs (line : String) : Exec Log Unit := do
  let s ← get
  match s.m_fp with
  | none => throw .undefined
  | some file => set { s with files := s.files ++ [(file, line)] }

/-- The lines written to files. -/
def written (s : Log) : List String := s.files.map Prod.snd

end Log

/-- Where a thread is in `write_log`. -/
inductive Writer where
  | outside
  | rotating (c : LogCall)
  | formatting (c : LogCall)
  /-- Before the test for room in the queue. -/
  | testing (line : String)
  /-- Before the push. -/
  | pushing (line : String)
  /-- Before the direct `fputs`. -/
  | direct (line : String)
  deriving DecidableEq, Repr

/-- Where the thread of `async_write_log` is. -/
inductive Flusher where
  /-- Before the call of `pop`. -/
  | popping
  | waiting
  | woken
  /-- With a line, before `fputs`. -/
  | writing (line : String)
  /-- After a `pop` that returned `false`. -/
  | ended
  deriving DecidableEq, Repr

/-- The line that a thread has formatted and not yet handed on. -/
def Writer.pending : Writer → Multiset String
  | testing line => {line}
  | pushing line => {line}
  | direct line => {line}
  | _ => 0

/-- The line that has been popped and not yet written. -/
def Flusher.held : Flusher → Multiset String
  | writing line => {line}
  | _ => 0

/-- The log, its queue, the threads `ι` that write to it and the one that empties the queue.
`formatted` has the lines that were formatted, in order. -/
structure LogSystem (ι : Type) where
  log : Log
  m_log_queue : BlockQueue String
  writer : ι → Writer
  flusher : Flusher
  formatted : List String

/-- What can happen next. -/
inductive LogEvent (ι : Type) where
  | call (i : ι) (c : LogCall)
  | rotate (i : ι) (opened : Bool)
  | format (i : ι)
  | test (i : ι)
  | push (i : ι)
  | write (i : ι)
  | flushPop
  | flushWakeup
  | flushResume
  | flushGiveUp
  | flushWrite
  deriving DecidableEq, Repr

namespace LogSystem

variable {ι : Type}

/-- A log whose asynchronous queue has been set up, before the first call. -/
def start (log : Log) (q : BlockQueue String) : LogSystem ι :=
  ⟨{ log with m_is_async := true, files := [] }, q, fun _ => .outside, .popping, []⟩

/-- `m_cond.broadcast()` at the end of a push. -/
def notify : Flusher → Flusher
  | .waiting => .woken
  | f => f

/-- The flush thread after a part of `pop`: it has a line, or it waits. -/
def settleFlush (s : LogSystem ι) :
    Except Halt (Option (Option String) × BlockQueue String) → Option (LogSystem ι)
  | .error _ => none
  | .ok (none, q) => some { s with m_log_queue := q, flusher := .waiting }
  | .ok (some none, q) => some { s with m_log_queue := q, flusher := .ended }
  | .ok (some (some line), q) => some { s with m_log_queue := q, flusher := .writing line }

variable [DecidableEq ι]

/-- The thread `i` goes to the point `p`. -/
def move (s : LogSystem ι) (i : ι) (p : Writer) : LogSystem ι :=
  { s with writer := Function.update s.writer i p }

def step (s : LogSystem ι) : LogEvent ι → Option (LogSystem ι)
  | .call i c =>
      match s.writer i with
      | .outside => some (s.move i (.rotating c))
      | _ => none
  | .rotate i opened =>
      match s.writer i with
      | .rotating c =>
          match (Log.rotate c opened).run s.log with
          | .error _ => none
          | .ok (_, log) => some ({ s with log := log }.move i (.formatting c))
      | _ => none
  | .format i =>
      match s.writer i with
      | .formatting c =>
          match (Log.format c).run s.log with
          | .error _ => none
          | .ok (line, log) =>
              some ({ s with log := log, formatted := s.formatted ++ [line] }.move i (.testing line))
      | _ => none
  | .test i =>
      match s.writer i with
      | .testing line =>
          if s.log.m_is_async = true then
            match (BlockQueue.full (T := String)).run s.m_log_queue with
            | .error _ => none
            | .ok (isFull, q) =>
                some ({ s with m_log_queue := q }.move i
                  (if isFull = true then .direct line else .pushing line))
          else some (s.move i (.direct line))
      | _ => none
  | .push i =>
      match s.writer i with
      | .pushing line =>
          -- the answer of `push` is not looked at
          match (BlockQueue.push line).run s.m_log_queue with
          | .error _ => none
          | .ok (_, q) =>
              some ({ s with m_log_queue := q, flusher := notify s.flusher }.move i .outside)
      | _ => none
  | .write i =>
      match s.writer i with
      | .direct line =>
          match (Log.fputs line).run s.log with
          | .error _ => none
          | .ok (_, log) => some ({ s with log := log }.move i .outside)
      | _ => none
  | .flushPop =>
      match s.flusher with
      | .popping => s.settleFlush ((BlockQueue.popEnter (T := String)).run s.m_log_queue)
      | _ => none
  | .flushWakeup =>
      match s.flusher with
      | .waiting => some { s with flusher := .woken }
      | _ => none
  | .flushResume =>
      match s.flusher with
      | .woken => s.settleFlush ((BlockQueue.popResume (T := String)).run s.m_log_queue)
      | _ => none
  | .flushGiveUp =>
      match s.flusher with
      | .waiting => some { s with flusher := .ended }
      | _ => none
  | .flushWrite =>
      match s.flusher with
      | .writing line =>
          match (Log.fputs line).run s.log with
          | .error _ => none
          | .ok (_, log) => some { s with log := log, flusher := .popping }
      | _ => none

/-- All calls have returned, the queue is empty and its last line has been written. -/
structure Drained (s : LogSystem ι) : Prop where
  returned : ∀ i, s.writer i = .outside
  empty : s.m_log_queue.m_size = 0
  written : s.flusher.held = 0

/-- A push finds the queue with room. -/
def PushFits (s : LogSystem ι) : LogEvent ι → Prop
  | .push _ => s.m_log_queue.m_size < s.m_log_queue.m_max_size
  | _ => True

end LogSystem

end CLanguageLearning.WebServer
