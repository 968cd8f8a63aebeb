import CLanguageLearning.Epoll.EdgeTriggered
import CLanguageLearning.Foundation.EdgeSource

/-!
# A server of channels and an event loop

The echo server of `day06-event-loop`: `EventLoop::loop` takes the channels with events from
`Epoll::poll` and calls their callbacks. The callback of the listening channel accepts a connection
and makes a channel for it; that of a client's channel reads until nothing is left and writes its
whole buffer back after each `read`. Before that it prints the buffer as a string, and when a `read`
has filled it with bytes other than NUL, `printf` reads behind it.

All descriptors are edge-triggered. Clients connect, send and go at any time, also between the calls
that a callback makes; nobody connects between `listen` and the entry of the listening socket. The
states record what each client has sent, what the calls of `read` returned and what was handed to
`write`.
-/

set_option autoImplicit false

namespace CLanguageLearning.EventLoop

open CLanguageLearning.Foundation
open CLanguageLearning.Epoll (Ending)

/-- The size of `buffer` in `handleReadEvent`. -/
def READ_BUFFER : Nat := 1024

/-- The length of `events`. -/
def MAX_EVENTS : Nat := 1000

def EPOLLIN : UInt32 := 1

def EPOLLET : UInt32 := 0x80000000

/-- What is bound in `callback`. -/
inductive Callback where
  | newConnection
  | handleReadEvent (sockfd : Nat)
  deriving DecidableEq, Repr

/-- A channel as `Channel.h` has it, but for the event loop, of which there is one. -/
structure Channel where
  fd : Nat
  events : UInt32
  readEvents : UInt32
  inEpoll : Bool
  callback : Callback
  deriving DecidableEq, Repr

/-- What is behind an open descriptor. -/
inductive File where
  | listener
  | client (c : Nat)
  | other
  deriving DecidableEq, Repr

/-- A connection: what comes from the client, how it ends, what the calls of `read` have returned and
the buffers that have been handed to `write`. -/
structure Client where
  stream : EdgeSource UInt8
  ending : Ending
  chunks : List (List UInt8)
  written : List (List UInt8)
  deriving DecidableEq, Repr

/-- The call whose failure has made `errif` end the program. -/
inductive Failure where
  | epollWait
  | accept
  /-- `EPOLL_CTL_ADD` for a descriptor that has an entry. -/
  | eexist
  /-- `EPOLL_CTL_MOD` for one that has none. -/
  | enoent
  /-- `EPOLL_CTL_ADD` for the new socket, without room for its entry (`ENOSPC`, `ENOMEM`). -/
  | full (fd : Nat)
  deriving DecidableEq, Repr

/-- Where the thread of the server is. -/
inductive Point where
  /-- In `loop`, between two callbacks. -/
  | loop
  /-- In `newConnection`, before `accept`. -/
  | newConnection
  /-- In `newConnection` with the new socket, before its channel is made. -/
  | accepted (fd : Nat)
  /-- In `handleReadEvent`, before `read`. -/
  | read (sockfd : Nat)
  | write (sockfd : Nat) (buffer : List UInt8)
  /-- `errif` has ended the program. -/
  | exited (failure : Failure)
  /-- `SIGPIPE` has ended the program in `write`. -/
  | killed (sockfd : Nat) (buffer : List UInt8)
  /-- `printf` has read behind the buffer; what the program does then is undefined. -/
  | overread (sockfd : Nat) (buffer : List UInt8)
  deriving DecidableEq, Repr

/-- The kernel's part: the open descriptors, the channel that `epollfd` holds for each, the
connections that have not been accepted, the clients. The server's part: its channels by their
address, the rest of `channels` in `loop`. -/
structure Server where
  file : Nat → Option File
  interest : Nat → Option Nat
  queue : EdgeSource Nat
  connected : Nat
  client : Nat → Client
  channels : List Channel
  active : List Nat
  point : Point

/-- What can happen next. -/
inductive Event where
  | connect
  | send (c : Nat) (l : List UInt8)
  /-- The client shuts its end down, or resets the connection. -/
  | finish (c : Nat) (ending : Ending)
  /-- An event with nothing to read is dropped. -/
  | lapse (fd : Nat)
  /-- `epoll_wait`, with what it reports. -/
  | poll (events : List (Nat × UInt32))
  | pollFails
  | handleEvent
  /-- `accept`, with the new descriptor. -/
  | accept (fd : Option Nat)
  | enableReading
  /-- `epoll_ctl` has no room for the new socket. -/
  | ctlFails
  /-- `read` returns `n` bytes, and they are printed. -/
  | read (n : Nat)
  /-- `read` finds nothing, and answers by the state of the connection. -/
  | readNothing
  /-- `read` is interrupted. -/
  | interrupted
  | write
  /-- `write` on a connection that has been reset: `SIGPIPE` ends the program. -/
  | sigpipe
  deriving DecidableEq, Repr

namespace Client

/-- A client that has just connected. -/
def new : Client := ⟨.empty, .again, [], []⟩

/-- `EPOLLIN`: there is something to read, or the end of the stream. -/
def readable (k : Client) : Bool := k.stream.waiting ≠ [] ∨ k.ending ≠ .again

end Client

/-- The buffer behind a `read`: it was zeroed before, and all of it is written. -/
def padded (chunk : List UInt8) : List UInt8 :=
  chunk ++ List.replicate (READ_BUFFER - chunk.length) 0

/-- Behind `read` and `printf`, whose `%s` ends at the first NUL. -/
def afterRead (sockfd : Nat) (chunk : List UInt8) : Point :=
  if 0 ∈ padded chunk then .write sockfd (padded chunk) else .overread sockfd (padded chunk)

namespace Server

/-- Something happens to the connection of the client `c`. -/
def onClient (s : Server) (c : Nat) (f : Client → Client) : Server :=
  { s with client := Function.update s.client c (f (s.client c)) }

/-- Whether the descriptor has an event to deliver. -/
def ready (s : Server) (fd : Nat) : Bool :=
  match s.file fd with
  | some .listener => s.queue.event
  | some (.client c) => (s.client c).stream.event
  | _ => false

/-- Whether there is something behind the descriptor that `EPOLLIN` is about. -/
def readable (s : Server) (fd : Nat) : Bool :=
  match s.file fd with
  | some .listener => s.queue.waiting ≠ []
  | some (.client c) => (s.client c).readable
  | _ => false

/-- The event of the descriptor is delivered or dropped. -/
def deliver (s : Server) (fd : Nat) : Server :=
  match s.file fd with
  | some .listener => { s with queue := s.queue.deliver }
  | some (.client c) => s.onClient c fun k => { k with stream := k.stream.deliver }
  | _ => s

/-- `epoll_ctl` with an `EPOLLET` entry makes an event if there is something to report. -/
def arm (s : Server) (fd : Nat) : Server :=
  match s.file fd with
  | some .listener => { s with queue := s.queue.arm (s.readable fd) }
  | some (.client c) => s.onClient c fun k => { k with stream := k.stream.arm (s.readable fd) }
  | _ => s

/-! ### Channel.cpp, Epoll.cpp -/

/-- `new Channel(loop, fd)` with its `setCallback`. -/
def newChannel (s : Server) (fd : Nat) (callback : Callback) : Server :=
  { s with channels := s.channels ++ [⟨fd, 0, 0, false, callback⟩] }

/-- The channel at the address `p` is written. -/
def onChannel (s : Server) (p : Nat) (f : Channel → Channel) : Server :=
  { s with channels := s.channels.modify p f }

/-- `EPOLL_CTL_ADD` fails for a descriptor that has an entry, `EPOLL_CTL_MOD` for one that has
none. -/
def updateChannel (s : Server) (p : Nat) : Server :=
  match s.channels[p]? with
  | none => s
  | some channel =>
      let entered := { s with interest := Function.update s.interest channel.fd (some p) }
      if channel.inEpoll = false then
        if (s.interest channel.fd).isSome then { s with point := .exited .eexist }
        else (entered.arm channel.fd).onChannel p fun ch => { ch with inEpoll := true }
      else
        if (s.interest channel.fd).isNone then { s with point := .exited .enoent }
        else entered.arm channel.fd

/-- `Channel::enableReading`. -/
def enableReading (s : Server) (p : Nat) : Server :=
  (s.onChannel p fun ch => { ch with events := EPOLLIN ||| EPOLLET }).updateChannel p

/-- A turn of the loop in `poll`. -/
def report (s : Server) (event : Nat × UInt32) : Server :=
  match s.interest event.1 with
  | none => s
  | some p =>
      let t := (s.deliver event.1).onChannel p fun ch => { ch with readEvents := event.2 }
      { t with active := t.active ++ [p] }

/-- `close`, which takes the descriptor out of `epollfd` too. -/
def close (s : Server) (fd : Nat) : Server :=
  { s with file := Function.update s.file fd none,
           interest := Function.update s.interest fd none }

/-! ### Server.cpp, EventLoop.cpp -/

/-- After `Server::Server`, with `others` for what else is open. -/
def start (listenfd : Nat) (others : List Nat) : Server :=
  ((Server.mk
      (fun fd => if fd = listenfd then some .listener else if fd ∈ others then some .other else none)
      (fun _ => none) .empty 0 (fun _ => .new) [] [] .loop).newChannel listenfd
    .newConnection).enableReading 0

/-- Where a callback begins. -/
def Callback.point : Callback → Point
  | .newConnection => .newConnection
  | .handleReadEvent sockfd => .read sockfd

/-- The rest of `newConnection` behind `accept`. -/
def register (s : Server) (fd : Nat) : Server :=
  ({ s with point := .loop }.newChannel fd (.handleReadEvent fd)).enableReading s.channels.length

/-- The branches of `handleReadEvent` when nothing was read. An error is reported once; none of the
branches is for it, and the loop goes on. -/
def readNothing (s : Server) (sockfd c : Nat) : Server :=
  match (s.client c).ending with
  | .again => { s with point := .loop }
  | .eof => { s.close sockfd with point := .loop }
  | .error => s.onClient c fun k => { k with ending := .eof }

/-- What an event does, where it can happen. -/
def step (s : Server) : Event → Option Server
  | .connect =>
      some { s with queue := s.queue.arrive [s.connected], connected := s.connected + 1 }
  | .send c l =>
      if c < s.connected ∧ (s.client c).ending = .again then
        some (s.onClient c fun k => { k with stream := k.stream.arrive l })
      else none
  | .finish c ending =>
      if c < s.connected ∧ (s.client c).ending = .again ∧ ending ≠ .again then
        some (s.onClient c fun k => { k with stream := k.stream.arrive [], ending := ending })
      else none
  | .lapse fd => if s.ready fd = true ∧ s.readable fd = false then some (s.deliver fd) else none
  | .poll events =>
      if s.point = .loop ∧ s.active = [] ∧ events.length ≤ MAX_EVENTS ∧
          (events.map Prod.fst).Nodup ∧
          ∀ event ∈ events, (s.interest event.1).isSome ∧ s.ready event.1 = true then
        some (events.foldl report s)
      else none
  | .pollFails =>
      if s.point = .loop ∧ s.active = [] then some { s with point := .exited .epollWait } else none
  | .handleEvent =>
      match s.point, s.active with
      | .loop, p :: rest =>
          (s.channels[p]?).map fun channel =>
            { s with active := rest, point := Callback.point channel.callback }
      | _, _ => none
  | .accept none =>
      if s.point = .newConnection then some { s with point := .exited .accept } else none
  | .accept (some fd) =>
      match s.point, s.queue.waiting with
      | .newConnection, c :: _ =>
          if s.file fd = none then
            some { s with file := Function.update s.file fd (some (.client c)),
                          queue := s.queue.take 1, point := .accepted fd }
          else none
      | _, _ => none
  | .enableReading =>
      match s.point with
      | .accepted fd => some (s.register fd)
      | _ => none
  | .ctlFails =>
      match s.point with
      | .accepted fd => some { s with point := .exited (.full fd) }
      | _ => none
  | .read n =>
      match s.point with
      | .read sockfd =>
          match s.file sockfd with
          | some (.client c) =>
              let chunk := (s.client c).stream.waiting.take n
              if 0 < n ∧ n ≤ READ_BUFFER ∧ n ≤ (s.client c).stream.waiting.length then
                some { s.onClient c fun k =>
                         { k with stream := k.stream.take n, chunks := k.chunks ++ [chunk] } with
                       point := afterRead sockfd chunk }
              else none
          | _ => none
      | _ => none
  | .readNothing =>
      match s.point with
      | .read sockfd =>
          match s.file sockfd with
          | some (.client c) =>
              if (s.client c).stream.waiting = [] then some (s.readNothing sockfd c) else none
          -- `EBADF` is not among the branches either
          | _ => some s
      | _ => none
  | .interrupted =>
      match s.point with
      | .read _ => some s
      | _ => none
  | .write =>
      match s.point with
      | .write sockfd buffer =>
          match s.file sockfd with
          | some (.client c) =>
              some { s.onClient c fun k => { k with written := k.written ++ [buffer] } with
                     point := .read sockfd }
          | _ => some { s with point := .read sockfd }
      | _ => none
  | .sigpipe =>
      match s.point with
      | .write sockfd buffer => some { s with point := .killed sockfd buffer }
      | _ => none

/-! ### What the events do -/

/-- The events with the conditions under which they happen. -/
inductive Step (s : Server) : Event → Server → Prop
  | connect :
      Step s .connect
        { s with queue := s.queue.arrive [s.connected], connected := s.connected + 1 }
  | send {c : Nat} {l : List UInt8} (hagain : (s.client c).ending = .again) :
      Step s (.send c l) (s.onClient c fun k => { k with stream := k.stream.arrive l })
  | finish {c : Nat} {ending : Ending} (hagain : (s.client c).ending = .again) :
      Step s (.finish c ending)
        (s.onClient c fun k => { k with stream := k.stream.arrive [], ending := ending })
  | lapse {fd : Nat} (hready : s.ready fd = true) (hreadable : s.readable fd = false) :
      Step s (.lapse fd) (s.deliver fd)
  | poll {events : List (Nat × UInt32)} (hloop : s.point = .loop) (hactive : s.active = [])
      (hnodup : (events.map Prod.fst).Nodup)
      (hevents : ∀ event ∈ events, s.ready event.1 = true ∧ ∃ p, s.interest event.1 = some p) :
      Step s (.poll events) (events.foldl report s)
  | pollFails (hloop : s.point = .loop) : Step s .pollFails { s with point := .exited .epollWait }
  | handleEvent {p : Nat} {rest : List Nat} {channel : Channel} (hloop : s.point = .loop)
      (hactive : s.active = p :: rest) (hchannel : s.channels[p]? = some channel) :
      Step s .handleEvent { s with active := rest, point := Callback.point channel.callback }
  | acceptFails (hpoint : s.point = .newConnection) :
      Step s (.accept none) { s with point := .exited .accept }
  | accept {fd c : Nat} {rest : List Nat} (hpoint : s.point = .newConnection)
      (hwaiting : s.queue.waiting = c :: rest) (hfd : s.file fd = none) :
      Step s (.accept (some fd))
        { s with file := Function.update s.file fd (some (.client c)), queue := s.queue.take 1,
                 point := .accepted fd }
  | enableReading {fd : Nat} (hpoint : s.point = .accepted fd) :
      Step s .enableReading (s.register fd)
  | ctlFails {fd : Nat} (hpoint : s.point = .accepted fd) :
      Step s .ctlFails { s with point := .exited (.full fd) }
  | read {fd c n : Nat} (hpoint : s.point = .read fd) (hfd : s.file fd = some (.client c))
      (hpos : 0 < n) (hn : n ≤ READ_BUFFER) (hle : n ≤ (s.client c).stream.waiting.length) :
      Step s (.read n)
        { s.onClient c fun k =>
            { k with stream := k.stream.take n, chunks := k.chunks ++ [k.stream.waiting.take n] } with
          point := afterRead fd ((s.client c).stream.waiting.take n) }
  | readNothing {fd c : Nat} (hpoint : s.point = .read fd) (hfd : s.file fd = some (.client c))
      (hnil : (s.client c).stream.waiting = []) : Step s .readNothing (s.readNothing fd c)
  | readFails : Step s .readNothing s
  | interrupted : Step s .interrupted s
  | write {fd c : Nat} {buffer : List UInt8} (hpoint : s.point = .write fd buffer)
      (hfd : s.file fd = some (.client c)) :
      Step s .write
        { s.onClient c fun k => { k with written := k.written ++ [buffer] } with
          point := .read fd }
  | writeFails {fd : Nat} {buffer : List UInt8} (hpoint : s.point = .write fd buffer)
      (hno : ∀ c, s.file fd ≠ some (.client c)) : Step s .write { s with point := .read fd }
  | sigpipe {fd : Nat} {buffer : List UInt8} (hpoint : s.point = .write fd buffer) :
      Step s .sigpipe { s with point := .killed fd buffer }

theorem step_cases {s t : Server} {e : Event} (hstep : s.step e = some t) : Step s e t := by
  cases e with
  | connect =>
      cases hstep
      exact .connect
  | send c l =>
      obtain ⟨⟨-, hagain⟩, hstep⟩ := Option.ite_none_right_eq_some.mp hstep
      cases hstep
      exact .send hagain
  | finish c ending =>
      obtain ⟨⟨-, hagain, -⟩, hstep⟩ := Option.ite_none_right_eq_some.mp hstep
      cases hstep
      exact .finish hagain
  | lapse fd =>
      obtain ⟨⟨hready, hreadable⟩, hstep⟩ := Option.ite_none_right_eq_some.mp hstep
      cases hstep
      exact .lapse hready hreadable
  | poll events =>
      obtain ⟨⟨hloop, hactive, -, hnodup, hevents⟩, hstep⟩ :=
        Option.ite_none_right_eq_some.mp hstep
      cases hstep
      refine .poll hloop hactive hnodup fun event hevent => ?_
      obtain ⟨hsome, hready⟩ := hevents event hevent
      exact ⟨hready, Option.isSome_iff_exists.mp hsome⟩
  | pollFails =>
      obtain ⟨⟨hloop, -⟩, hstep⟩ := Option.ite_none_right_eq_some.mp hstep
      cases hstep
      exact .pollFails hloop
  | handleEvent =>
      rw [step] at hstep
      split at hstep
      · rename_i p rest hloop hactive
        obtain ⟨channel, hchannel, rfl⟩ := Option.map_eq_some_iff.mp hstep
        exact .handleEvent hloop hactive hchannel
      · cases hstep
  | accept fd =>
      cases fd with
      | none =>
          obtain ⟨hpoint, hstep⟩ := Option.ite_none_right_eq_some.mp hstep
          cases hstep
          exact .acceptFails hpoint
      | some fd =>
          rw [step] at hstep
          split at hstep
          · rename_i c rest hpoint hwaiting
            obtain ⟨hfd, hstep⟩ := Option.ite_none_right_eq_some.mp hstep
            cases hstep
            exact .accept hpoint hwaiting hfd
          · cases hstep
  | enableReading =>
      rw [step] at hstep
      split at hstep
      · rename_i fd hpoint
        cases hstep
        exact .enableReading hpoint
      · cases hstep
  | ctlFails =>
      rw [step] at hstep
      split at hstep
      · rename_i fd hpoint
        cases hstep
        exact .ctlFails hpoint
      · cases hstep
  | read n =>
      rw [step] at hstep
      split at hstep
      · rename_i fd hpoint
        split at hstep
        · rename_i c hfd
          obtain ⟨⟨hpos, hn, hle⟩, hstep⟩ := Option.ite_none_right_eq_some.mp hstep
          cases hstep
          exact .read hpoint hfd hpos hn hle
        · cases hstep
      · cases hstep
  | readNothing =>
      rw [step] at hstep
      split at hstep
      · rename_i fd hpoint
        split at hstep
        · rename_i c hfd
          obtain ⟨hnil, hstep⟩ := Option.ite_none_right_eq_some.mp hstep
          cases hstep
          exact .readNothing hpoint hfd hnil
        · cases hstep
          exact .readFails
      · cases hstep
  | interrupted =>
      rw [step] at hstep
      split at hstep
      · cases hstep
        exact .interrupted
      · cases hstep
  | write =>
      rw [step] at hstep
      split at hstep
      · rename_i fd buffer hpoint
        split at hstep
        · rename_i c hfd
          cases hstep
          exact .write hpoint hfd
        · rename_i hno
          cases hstep
          exact .writeFails hpoint hno
      · cases hstep
  | sigpipe =>
      rw [step] at hstep
      split at hstep
      · rename_i fd buffer hpoint
        cases hstep
        exact .sigpipe hpoint
      · cases hstep

/-! ### What the parts do -/

section Parts

variable {s : Server} {fd p c : Nat} {f : Client → Client}

theorem onClient_self (s : Server) (c : Nat) (f : Client → Client) :
    (s.onClient c f).client c = f (s.client c) := Function.update_self ..

theorem onClient_of_ne {c' : Nat} (hne : c' ≠ c) (s : Server) (f : Client → Client) :
    (s.onClient c f).client c' = s.client c' := Function.update_of_ne hne ..

theorem deliver_client (h : s.file fd = some (.client c)) :
    s.deliver fd = s.onClient c fun k => { k with stream := k.stream.deliver } := by
  rw [deliver, h]

theorem deliver_listener (h : s.file fd = some .listener) :
    s.deliver fd = { s with queue := s.queue.deliver } := by
  rw [deliver, h]

theorem deliver_client_apply (s : Server) (fd c : Nat) :
    (s.deliver fd).client c =
      if s.file fd = some (.client c) then { s.client c with stream := (s.client c).stream.deliver }
      else s.client c := by
  cases hfd : s.file fd with
  | none => simp [deliver, hfd]
  | some f =>
      cases f with
      | listener => simp [deliver, hfd]
      | other => simp [deliver, hfd]
      | client c' =>
          rw [deliver_client hfd]
          by_cases hc : c = c'
          · subst hc
            rw [onClient_self, if_pos rfl]
          · rw [onClient_of_ne hc, if_neg]
            intro heq
            cases heq
            exact hc rfl

theorem deliver_taken (s : Server) (fd : Nat) : (s.deliver fd).queue.taken = s.queue.taken := by
  rw [deliver]
  split <;> rfl

theorem arm_client (h : s.file fd = some (.client c)) :
    s.arm fd = s.onClient c fun k => { k with stream := k.stream.arm k.readable } := by
  rw [arm, h]
  simp only [readable, h]
  rfl

theorem report_eq {mask : UInt32} (hp : s.interest fd = some p) :
    s.report (fd, mask) =
      { s with queue := (s.deliver fd).queue, client := (s.deliver fd).client,
               channels := s.channels.modify p fun ch => { ch with readEvents := mask },
               active := s.active ++ [p] } := by
  rw [report]
  dsimp only
  rw [hp, deliver]
  dsimp only
  split <;> rfl

theorem close_file {fd' : Nat} {f : File} (h : (s.close fd).file fd' = some f) :
    fd' ≠ fd ∧ s.file fd' = some f := by
  rw [close] at h
  dsimp only at h
  rw [Function.update_apply] at h
  split at h
  · cases h
  · exact ⟨‹_›, h⟩

theorem modify_last (l : List Channel) (ch : Channel) (g : Channel → Channel) :
    (l ++ [ch]).modify l.length g = l ++ [g ch] := by
  induction l with
  | nil => rfl
  | cons x l ih =>
      rw [List.cons_append, List.length_cons, List.modify_succ_cons, ih, List.cons_append]

/-- A new channel enters `epollfd`, if its descriptor has no entry. -/
theorem enableReading_new (hnone : s.interest fd = none) (callback : Callback) :
    (s.newChannel fd callback).enableReading s.channels.length =
      { s.arm fd with
        channels := s.channels ++ [⟨fd, EPOLLIN ||| EPOLLET, 0, true, callback⟩],
        interest := Function.update s.interest fd (some s.channels.length) } := by
  have hlast : (s.channels ++ [(⟨fd, EPOLLIN ||| EPOLLET, 0, false, callback⟩ : Channel)])[
      s.channels.length]? = some ⟨fd, EPOLLIN ||| EPOLLET, 0, false, callback⟩ :=
    List.getElem?_concat_length
  rw [enableReading, newChannel, onChannel, updateChannel]
  dsimp only
  rw [modify_last, hlast]
  dsimp only
  rw [if_pos rfl, hnone, Option.isSome_none, if_neg Bool.false_ne_true, onChannel, arm, arm]
  dsimp only
  split <;> simp only [onClient, readable, modify_last]

theorem register_eq (hnone : s.interest fd = none) (hfd : s.file fd = some (.client c)) :
    s.register fd =
      { s.onClient c fun k => { k with stream := k.stream.arm k.readable } with
        point := .loop,
        channels := s.channels ++ [⟨fd, EPOLLIN ||| EPOLLET, 0, true, .handleReadEvent fd⟩],
        interest := Function.update s.interest fd (some s.channels.length) } := by
  have hnew : ({ s with point := .loop } : Server).interest fd = none := hnone
  have hclient : ({ s with point := .loop } : Server).file fd = some (.client c) := hfd
  rw [register]
  refine (enableReading_new hnew _).trans ?_
  rw [arm_client hclient]
  rfl

end Parts

end Server

end CLanguageLearning.EventLoop
