import CLanguageLearning.Foundation.ByteFile
import CLanguageLearning.Foundation.Transitions

/-!
# Copying a file through a ring

`copy_file` of `io_uring-cp.c` as a program that moves in steps, together with the kernel that
completes its requests in any order and with any result. A step of the program makes at most one
call whose answer it does not decide itself; the answer is part of the event. A request carries its
`io_data` and the bytes behind it from the submission queue to the kernel and back through the
completion queue.
-/

set_option autoImplicit false

namespace CLanguageLearning.Uring

open CLanguageLearning.Foundation

/-- The entries of the ring. -/
def QD : Nat := 64

/-- The size of a block. -/
def BS : Nat := 32 * 1024

def EAGAIN : Int := 11

/-- `struct io_data`. `iov_base` is counted from `data + 1`. -/
structure IoData where
  read : Bool
  first_offset : Nat
  offset : Nat
  first_len : Nat
  iov_base : Nat
  iov_len : Nat
  deriving DecidableEq, Repr

/-- What `queue_read` allocates: `struct io_data` and the bytes behind it. -/
structure IoBlock extends IoData where
  buf : Nat → UInt8

/-- Where the program is in `copy_file`. -/
inductive Point where
  /-- Before the test of the outer loop. -/
  | outer
  /-- In the loop that queues reads. -/
  | fill (had_reads : Int)
  /-- Behind that loop. -/
  | submit (had_reads : Int)
  /-- Before the test of the reaping loop. -/
  | reap (got_comp : Bool)
  /-- In the reaping loop, with a completion. -/
  | complete
  /-- Before the test of the last loop. -/
  | drain
  | returned (ret : Int)
  /-- An assertion has failed. -/
  | aborted
  deriving DecidableEq, Repr

/-- The variables of `copy_file`, the ring and the output file. The ring holds the requests that are
prepared, those that are submitted, and those that are completed, with their results. -/
structure Copy where
  pc : Point
  insize : Nat
  write_left : Int
  offset : Nat
  reads : Int
  writes : Int
  sq : List IoBlock
  inflight : List IoBlock
  cq : List (IoBlock × Int)
  outfile : ByteFile

/-- What can happen next: the kernel completes the `i`-th submitted request with the result `res`,
or the program takes a step in which its call answers `ret`. -/
inductive CopyEvent where
  | kernel (i : Nat) (res : Int)
  | step (ret : Int)
  deriving DecidableEq, Repr

namespace IoBlock

/-- The request that `queue_read` prepares. -/
def ofRead (size offset : Nat) : IoBlock :=
  { read := true, first_offset := offset, offset := offset, first_len := size, iov_base := 0,
    iov_len := size, buf := fun _ => 0 }

/-- The request that `queue_write` makes of a read. -/
def toWrite (d : IoBlock) : IoBlock :=
  { d with read := false, offset := d.first_offset, iov_base := 0, iov_len := d.first_len }

/-- The rest of a request after `res` bytes. -/
def advance (d : IoBlock) (res : Nat) : IoBlock :=
  { d with iov_base := d.iov_base + res, iov_len := d.iov_len - res, offset := d.offset + res }

/-- The request after the kernel has read `n` bytes of the file into its buffer. -/
def received (d : IoBlock) (f : ByteFile) (n : Nat) : IoBlock :=
  { d with buf := fun k =>
      if d.iov_base ≤ k ∧ k < d.iov_base + n then f.byte (d.offset + (k - d.iov_base))
      else d.buf k }

end IoBlock

namespace Copy

variable (infile : ByteFile)

/-- `copy_file` on an input file and an empty output file. -/
def start : Copy := ⟨.outer, infile.size, infile.size, 0, 0, 0, [], [], [], .empty⟩

/-! ## The kernel

The input file does not change while it is copied. -/

/-- A result for a request: an error, or a count of bytes that are asked for and, in a read, in the
file. -/
def Possible (d : IoBlock) (res : Int) : Prop :=
  0 ≤ res → res ≤ d.iov_len ∧ (d.read = true → res ≠ 0 → d.offset + res ≤ infile.size)

instance (d : IoBlock) (res : Int) : Decidable (Possible infile d res) :=
  inferInstanceAs (Decidable (_ → _ ∧ (_ → _ → _)))

/-- The effect of a request with the result `res`. -/
def transfer (s : Copy) (d : IoBlock) (res : Int) : IoBlock × ByteFile :=
  if d.read = true then (d.received infile res.toNat, s.outfile)
  else (d, s.outfile.write d.offset res.toNat fun k => d.buf (d.iov_base + k))

/-- The kernel completes the `i`-th submitted request. -/
def kernel (s : Copy) (i : Nat) (res : Int) : Option Copy :=
  match s.inflight[i]? with
  | none => none
  | some d =>
      if Possible infile d res then
        some { s with
          inflight := s.inflight.eraseIdx i
          cq := s.cq ++ [((s.transfer infile d res).1, res)]
          outfile := (s.transfer infile d res).2 }
      else none

/-! ## The program -/

/-- `io_uring_submit`, which consumes `ret` entries or fails. -/
def submit (s : Copy) (ret : Int) : Option Copy :=
  if ret < 0 then some s
  else if (s.sq.length : Int) < ret then none
  else
    some { s with
      sq := s.sq.drop ret.toNat
      inflight := s.inflight ++ s.sq.take ret.toNat }

/-- `queue_prepped(ring, data)` and `io_uring_submit`, whose answer is ignored, then
`io_uring_cqe_seen`. -/
def resubmit (s : Copy) (d : IoBlock) (ret : Int) : Option Copy :=
  if QD ≤ s.sq.length then some { s with pc := .aborted }
  else
    let s := { s with sq := s.sq ++ [d] }
    (s.submit ret).map fun s => { s with pc := .reap true, cq := s.cq.tail }

/-- One turn of the loop that queues reads; `ret` is not 0 when `malloc` fails. -/
def fill (s : Copy) (had_reads ret : Int) : Copy :=
  if s.insize = 0 then { s with pc := .submit had_reads }
  else if (QD : Int) ≤ s.reads + s.writes then { s with pc := .submit had_reads }
  else
    let this_size := min s.insize BS
    if ret ≠ 0 ∨ QD ≤ s.sq.length then { s with pc := .submit had_reads }
    else
      { s with
        sq := s.sq ++ [IoBlock.ofRead this_size s.offset]
        insize := s.insize - this_size
        offset := s.offset + this_size
        reads := s.reads + 1 }

/-- The answer of `io_uring_peek_cqe`. -/
def peek (s : Copy) : Int := if s.cq = [] then -EAGAIN else 0

/-- The reaping loop up to a completion. `io_uring_wait_cqe` answers `ret`. -/
def reap (s : Copy) (got_comp : Bool) (ret : Int) : Option Copy :=
  if s.write_left = 0 then some { s with pc := .outer }
  else
    let ret := if got_comp = true then s.peek else ret
    -- a poll that finds nothing returns here, before the break that is meant for it
    if ret < 0 then some { s with pc := .returned 1 }
    else if s.cq = [] then none
    else some { s with pc := .complete }

/-- The rest of the reaping loop, with the first completion. -/
def complete (s : Copy) (ret : Int) : Option Copy :=
  match s.cq with
  | [] => none
  | (d, res) :: cq =>
      if res < 0 then
        if res = -EAGAIN then s.resubmit d ret else some { s with pc := .returned 1 }
      -- a short result: the rest is queued again
      else if res ≠ d.iov_len then s.resubmit (d.advance res.toNat) ret
      else if d.read = true then
        let s := { s with
          write_left := s.write_left - d.first_len
          reads := s.reads - 1
          writes := s.writes + 1 }
        s.resubmit d.toWrite ret
      else some { s with pc := .reap true, writes := s.writes - 1, cq := cq }

/-- One turn of the last loop. -/
def drain (s : Copy) (ret : Int) : Option Copy :=
  if s.writes = 0 then some { s with pc := .returned 0 }
  else if ret ≠ 0 then some { s with pc := .returned 1 }
  else
    match s.cq with
    | [] => none
    | (_, res) :: cq =>
        if res < 0 then some { s with pc := .returned 1 }
        -- a short write counts as done here
        else some { s with writes := s.writes - 1, cq := cq }

/-- A step of the program. -/
def program (s : Copy) (ret : Int) : Option Copy :=
  match s.pc with
  | .outer =>
      some { s with pc := if s.insize ≠ 0 ∨ s.write_left ≠ 0 then .fill s.reads else .drain }
  | .fill had_reads => some (s.fill had_reads ret)
  | .submit had_reads =>
      if had_reads ≠ s.reads then
        -- a failed submission leaves the main loop
        (s.submit ret).map fun s => { s with pc := if ret < 0 then .drain else .reap false }
      else some { s with pc := .reap false }
  | .reap got_comp => s.reap got_comp ret
  | .complete => s.complete ret
  | .drain => s.drain ret
  | .returned _ => none
  | .aborted => none

def step (s : Copy) : CopyEvent → Option Copy
  | .kernel i res => s.kernel infile i res
  | .step ret => s.program ret

end Copy

end CLanguageLearning.Uring
