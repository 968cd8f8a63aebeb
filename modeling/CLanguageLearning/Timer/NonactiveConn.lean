import CLanguageLearning.Timer.ListMemory

/-!
# The server that closes idle connections

The main loop of `11-3nonactive_conn.cpp` with the timer list of `11-2lst_timer.h`. Each client has a
timer that its data puts off. The connection is closed and its timer freed at the end of the stream,
on an error, or when the timer expires; `users[fd].timer` is never cleared, and the number of a
closed descriptor is used again.

What the system answers is the event of a step: the descriptors that `epoll_wait` reports, the
results of `accept` and `recv`, the address of a new timer and the time. The clock may go back.
-/

set_option autoImplicit false

namespace CLanguageLearning.Timer

open CLanguageLearning.Foundation

def FD_LIMIT : Nat := 65535

def MAX_EVENT_NUMBER : Nat := 1024

def TIMESLOT : Int := 5

/-- The function that all timers are given. -/
def CB_FUNC : Nat := 0

/-- `client_data`, without the address and the buffer, which decide nothing. -/
structure ClientData where
  sockfd : Nat
  timer : Option Nat
  deriving DecidableEq, Repr

/-- What `recv` answers for a client. -/
inductive Recv where
  | data
  | eof
  | again
  | error
  deriving DecidableEq, Repr

/-- The signals that the server handles. -/
inductive Signal where
  | SIGALRM
  | SIGTERM
  deriving DecidableEq, Repr

/-- The descriptors of clients and the timers that have come and gone, oldest first. -/
structure History where
  accepted : List Nat
  closed : List Nat
  allocated : List Nat
  freed : List Nat
  deriving DecidableEq, Repr

/-- The server. `opened` are the connections to clients, and `batch` are the events that the loop has
not come to, each with whether it has `EPOLLIN`; there is no batch before `epoll_wait`. -/
structure NonactiveConn where
  listenfd : Nat
  pipefd : Nat
  timer_lst : SortTimerLst
  users : Nat → ClientData
  opened : Nat → Bool
  batch : Option (List (Nat × Bool))
  timeout : Bool
  stop_server : Bool
  history : History

/-- The answers of the system while the loop handles one event: of `accept`, `new`, `time`, the
`recv` of signals, which has none when it fails, and the `recv` from a client. -/
structure Answers where
  connfd : Nat
  timer : Nat
  cur : Int
  signals : List Signal
  ret : Recv
  deriving DecidableEq, Repr

/-- What can happen next: `epoll_wait` reports events, the loop handles the next of them, or it is
through with them. -/
inductive NonactiveEvent where
  | wait (events : List (Nat × Bool))
  | dispatch (answers : Answers)
  | finish (cur : Int)
  deriving DecidableEq, Repr

namespace NonactiveConn

/-- The server before its first client; the array of clients is not initialised. -/
def start (listenfd pipefd : Nat) (users : Nat → ClientData) : NonactiveConn where
  listenfd := listenfd
  pipefd := pipefd
  timer_lst := .empty
  users := users
  opened := fun _ => false
  batch := none
  timeout := false
  stop_server := false
  history := ⟨[], [], [], []⟩

/-- A connection is accepted. -/
def opening (s : NonactiveConn) (fd : Nat) : NonactiveConn :=
  { s with
    opened := Function.update s.opened fd true
    history := { s.history with accepted := s.history.accepted ++ [fd] } }

/-- `close(fd)`. -/
def closing (s : NonactiveConn) (fd : Nat) : NonactiveConn :=
  { s with
    opened := Function.update s.opened fd false
    history := { s.history with closed := s.history.closed ++ [fd] } }

/-- The timer `x` has been allocated. -/
def allocating (s : NonactiveConn) (x : Nat) : NonactiveConn :=
  { s with history := { s.history with allocated := s.history.allocated ++ [x] } }

/-- The timer `x` has been freed. -/
def freeing (s : NonactiveConn) (x : Nat) : NonactiveConn :=
  { s with history := { s.history with freed := s.history.freed ++ [x] } }

/-- Write to `users[fd]`. -/
def mapUser (s : NonactiveConn) (fd : Nat) (f : ClientData → ClientData) : NonactiveConn :=
  { s with users := Function.update s.users fd (f (s.users fd)) }

end NonactiveConn

/-! ## The functions -/

/-- `users[fd]`, within the array. -/
def user (fd : Nat) : Exec NonactiveConn ClientData := do
  let s ← get
  if fd < FD_LIMIT then return s.users fd else throw .undefined

def modifyUser (fd : Nat) (f : ClientData → ClientData) : Exec NonactiveConn Unit :=
  if fd < FD_LIMIT then modify fun s => s.mapUser fd f else throw .undefined

/-- An operation on `timer_lst`. -/
def onTimers (x : Exec SortTimerLst Unit) : Exec NonactiveConn Unit :=
  fun s => (x.run s.timer_lst).map fun r => ((), { s with timer_lst := r.2 })

/-- The descriptor leaves the epoll table when it is closed; the call of `epoll_ctl` before that has
no effect, as it is given the global `epollfd`, which is not the one of `main`. -/
def cb_func (user_data : Nat) : Exec NonactiveConn Unit := do
  let u ← user user_data
  modify fun s => s.closing u.sockfd

/-- The callbacks of a tick, after each of which its timer is freed. -/
def runCalls : List Call → Exec NonactiveConn Unit
  | [] => return ()
  | c :: calls => do
      if c.cb_func = CB_FUNC then cb_func c.user_data else throw .undefined
      modify fun s => s.freeing c.timer
      runCalls calls

/-- The callbacks do not touch the list, so they are run behind `tick`. -/
def timer_handler (fuel : Nat) (cur : Int) : Exec NonactiveConn Unit := do
  let s ← get
  onTimers (tick cur fuel)
  let s' ← get
  runCalls (s'.timer_lst.calls.drop s.timer_lst.calls.length)

/-- The branch for the listening socket. -/
def acceptClient (fuel : Nat) (a : Answers) : Exec NonactiveConn Unit := do
  modify fun s => s.opening a.connfd
  modifyUser a.connfd fun u => { u with sockfd := a.connfd }
  onTimers (newTimer a.timer (a.cur + 3 * TIMESLOT) CB_FUNC a.connfd)
  modify fun s => s.allocating a.timer
  modifyUser a.connfd fun u => { u with timer := some a.timer }
  onTimers (add_timer fuel (some a.timer))

/-- The client is closed and its timer deleted. -/
def closeClient (sockfd : Nat) (timer : Option Nat) : Exec NonactiveConn Unit := do
  cb_func sockfd
  match timer with
  | none => return ()
  | some x => do
      onTimers (del_timer (some x))
      modify fun s => s.freeing x

/-- The branch for a client. -/
def recvClient (fuel sockfd : Nat) (a : Answers) : Exec NonactiveConn Unit := do
  let u ← user sockfd
  match a.ret with
  | .error => closeClient sockfd u.timer
  | .again => return ()
  | .eof => closeClient sockfd u.timer
  | .data =>
      match u.timer with
      | none => return ()
      | some x => onTimers ((Op.adjust x (a.cur + 3 * TIMESLOT)).exec add_timer fuel)

/-- One turn of the loop over the events. -/
def dispatch (fuel : Nat) (a : Answers) : Exec NonactiveConn Unit := do
  let s ← get
  match s.batch with
  | some ((sockfd, epollin) :: rest) => do
      set { s with batch := some rest }
      if sockfd = s.listenfd then acceptClient fuel a
      else if sockfd = s.pipefd ∧ epollin = true then
        modify fun s => { s with
          timeout := s.timeout || decide (.SIGALRM ∈ a.signals)
          stop_server := s.stop_server || decide (.SIGTERM ∈ a.signals) }
      else if epollin = true then recvClient fuel sockfd a
      else return ()
  | _ => return ()

/-- Behind the loop over the events. -/
def finishBatch (fuel : Nat) (cur : Int) : Exec NonactiveConn Unit := do
  let s ← get
  if s.timeout = true then do
    timer_handler fuel cur
    modify fun s => { s with timeout := false, batch := none }
  else set { s with batch := none }

def NonactiveEvent.exec : NonactiveEvent → Nat → Exec NonactiveConn Unit
  | .wait events, _ => modify fun s => { s with batch := some events }
  | .dispatch a, fuel => Timer.dispatch fuel a
  | .finish cur, fuel => finishBatch fuel cur

namespace NonactiveConn

/-! ## Runs -/

/-- The events that the system can answer with: `epoll_wait` reports open descriptors, each once;
`accept` succeeds with a descriptor that is not in use, and `new` with an address that is not. -/
def Possible (s : NonactiveConn) : NonactiveEvent → Prop
  | .wait events =>
      s.batch = none ∧ s.stop_server = false ∧ events.length ≤ MAX_EVENT_NUMBER ∧
        (events.map Prod.fst).Nodup ∧
        ∀ p ∈ events, p.1 = s.listenfd ∨ p.1 = s.pipefd ∨ s.opened p.1 = true
  | .dispatch a =>
      ∃ sockfd epollin rest, s.batch = some ((sockfd, epollin) :: rest) ∧
        (sockfd = s.listenfd → a.connfd < FD_LIMIT ∧ s.opened a.connfd = false ∧
          s.timer_lst.timers a.timer = none)
  | .finish _ => s.batch = some []

/-- The states of the runs of the server. -/
inductive Reachable : NonactiveConn → Prop where
  | start (listenfd pipefd : Nat) (users : Nat → ClientData) :
      Reachable (start listenfd pipefd users)
  | step {s t : NonactiveConn} (e : NonactiveEvent) (h : Reachable s) (hpossible : s.Possible e)
      (hrun : Returns e.exec s ((), t)) : Reachable t

/-- While the server handles the event, it passes the timer `x` to `adjust_timer` or `del_timer`. -/
def Passes (s : NonactiveConn) : NonactiveEvent → Nat → Prop
  | .dispatch a, x =>
      ∃ sockfd rest, s.batch = some ((sockfd, true) :: rest) ∧ sockfd ≠ s.listenfd ∧
        sockfd ≠ s.pipefd ∧ a.ret ≠ .again ∧ (s.users sockfd).timer = some x
  | _, _ => False

/-- The open connections and the entries of the timers in the list belong to each other, one to
one. -/
structure Corresponds (s : NonactiveConn) (order : List Entry) : Prop where
  nodup : (ids order).Nodup
  timer : ∀ fd, s.opened fd = true →
    ∃ e ∈ order, (s.users fd).timer = some e.id ∧ e.user_data = fd
  client : ∀ e ∈ order,
    s.opened e.user_data = true ∧ (s.users e.user_data).timer = some e.id

/-- Every connection that is not open any more has been closed once, and no other; every timer that
is not in memory any more has been freed once, and no other. -/
structure Balanced (s : NonactiveConn) : Prop where
  connections : ∀ fd, s.history.accepted.count fd =
    s.history.closed.count fd + if s.opened fd = true then 1 else 0
  timers : ∀ x, s.history.allocated.count x =
    s.history.freed.count x + if s.timer_lst.inMemory x = true then 1 else 0

end NonactiveConn

end CLanguageLearning.Timer
