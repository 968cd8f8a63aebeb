import CLanguageLearning.Chat.ThreadedServer
import CLanguageLearning.Foundation.LockedSections

/-!
# The messages of the threaded chat server

`ThreadedServer` takes the critical sections of `main`, `send_message` and `handle_client` as single
steps. Here a section is run statement by statement, with the other threads in between: they accept,
read messages and close. What is reached is what the server with whole sections reaches
(`sections_refine`), and as long as the table is right every message goes once to each client that is
registered, and to all of them in one order (`one_order`).
-/

set_option autoImplicit false

namespace CLanguageLearning.Chat

open CLanguageLearning.Foundation

/-- The length of the buffer of a handler. -/
def BUF_SIZE : Nat := 100

/-- Where a thread is between `pthread_mutex_lock` and `pthread_mutex_unlock`. -/
inductive SectionPoint where
  /-- In `main`, before `client_socks[client_count++] = client_sock`. -/
  | entering (client_sock : Nat)
  /-- In `send_message`, before the test of `i < client_count`. -/
  | sending (msg : List UInt8) (i : Nat)
  /-- In `handle_client`, before the test of the loop that looks for the socket. -/
  | finding (client_sock i : Nat)
  /-- Before the test of the loop that closes the gap. -/
  | shifting (i : Nat)
  /-- Before `client_count--`. -/
  | removing
  | finished
  deriving DecidableEq, Repr

namespace SectionPoint

/-- The thread is before `pthread_mutex_unlock`. -/
def Done (t : ClientTable) : SectionPoint → Prop
  | sending _ i => t.client_count ≤ i
  | finished => True
  | _ => False

instance (t : ClientTable) (p : SectionPoint) : Decidable (p.Done t) := by
  cases p <;> unfold Done <;> infer_instance

/-- One turn of a loop, or one statement. -/
def step : SectionPoint → Exec ClientTable SectionPoint
  | entering client_sock => do
      ClientTable.register client_sock
      return finished
  | sending msg i => do
      let _ ← ClientTable.sockAt i
      return sending msg (i + 1)
  | finding client_sock i => do
      if (i : Int) < (← get).client_count then
        if client_sock = (← ClientTable.sockAt i) then return shifting i
        else return finding client_sock (i + 1)
      else return removing
  | shifting i => do
      if (i : Int) < (← get).client_count - 1 then
        let sock ← ClientTable.sockAt (i + 2)
        ClientTable.setSock (i + 1) sock
        return shifting (i + 1)
      else return removing
  | removing => do
      modify fun t => { t with client_count := t.client_count - 1 }
      return finished
  | finished => return finished

/-- The socket that the step writes to. -/
def target (t : ClientTable) : SectionPoint → Option Nat
  | sending _ i => some (t.client_socks i)
  | _ => none

/-- What is left of a section. -/
def rest : SectionPoint → Exec ClientTable Unit
  | entering client_sock => ClientTable.register client_sock
  | sending _ _ => return ()
  | finding client_sock i => do
      ClientTable.findLoop client_sock ((← get).client_count.toNat - i) i
      modify fun t => { t with client_count := t.client_count - 1 }
  | shifting i => do
      ClientTable.shiftLoop ((← get).client_count.toNat - 1 - i) i
      modify fun t => { t with client_count := t.client_count - 1 }
  | removing => modify fun t => { t with client_count := t.client_count - 1 }
  | finished => return ()

variable {t u : ClientTable} {p p' : SectionPoint} {i sock : Nat}

theorem sockAt_eq_ok {r : Nat × ClientTable} (h : (ClientTable.sockAt i).run t = .ok r) :
    i < MAX_CLIENT ∧ r = (t.client_socks i, t) := by
  by_cases hi : i < MAX_CLIENT
  · rw [ClientTable.sockAt_run hi] at h
    cases h
    exact ⟨hi, rfl⟩
  · rw [ClientTable.sockAt_run_of_le (Nat.le_of_not_lt hi)] at h
    cases h

/-- A statement that is done leaves the rest of its section. -/
theorem rest_run (h : p.step.run t = .ok (p', u)) : p.rest.run t = p'.rest.run u := by
  cases p with
  | entering client_sock =>
      obtain ⟨a, v, hregister, hrest⟩ := run_bind_eq_ok h
      cases hrest
      rw [rest, hregister]
      rfl
  | sending msg i =>
      obtain ⟨a, v, hsock, hrest⟩ := run_bind_eq_ok h
      cases hrest
      obtain ⟨-, hv⟩ := sockAt_eq_ok hsock
      cases hv
      rfl
  | finding client_sock i =>
      rw [step, run_bind_of_ok (run_get t)] at h
      rw [rest, run_bind_of_ok (run_get t)]
      by_cases hi : (i : Int) < t.client_count
      · rw [if_pos hi] at h
        obtain ⟨sock, v, hsock, hrest⟩ := run_bind_eq_ok h
        obtain ⟨hmax, hv⟩ := sockAt_eq_ok hsock
        cases hv
        have hleft : t.client_count.toNat - i = t.client_count.toNat - 1 - i + 1 := by omega
        rw [hleft, ClientTable.findLoop, bind_assoc, run_bind_of_ok hsock]
        by_cases heq : client_sock = t.client_socks i
        · rw [if_pos heq] at hrest ⊢
          cases hrest
          rw [rest, run_bind_of_ok (run_get t)]
        · rw [if_neg heq] at hrest ⊢
          cases hrest
          have hnext : t.client_count.toNat - 1 - i = t.client_count.toNat - (i + 1) := by omega
          rw [rest, run_bind_of_ok (run_get t), hnext]
      · rw [if_neg hi] at h
        cases h
        have hleft : t.client_count.toNat - i = 0 := by omega
        rw [hleft]
        rfl
  | shifting i =>
      rw [step, run_bind_of_ok (run_get t)] at h
      rw [rest, run_bind_of_ok (run_get t)]
      by_cases hi : (i : Int) < t.client_count - 1
      · rw [if_pos hi] at h
        obtain ⟨sock, v, hsock, hrest⟩ := run_bind_eq_ok h
        obtain ⟨hmax, hv⟩ := sockAt_eq_ok (i := i + 2) hsock
        cases hv
        have hset : (ClientTable.setSock ((i + 1 : Nat) : Int) (t.client_socks (i + 2))).run t =
            .ok ((), t.withSock (i + 1) (t.client_socks (i + 2))) :=
          ClientTable.setSock_run (by omega)
        obtain ⟨a, w, hset', hend⟩ := run_bind_eq_ok hrest
        cases hset.symm.trans hset'
        cases hend
        have hleft : t.client_count.toNat - 1 - i = t.client_count.toNat - 1 - (i + 1) + 1 := by
          omega
        rw [hleft, StateT.run_bind, ClientTable.shiftLoop_succ_run hmax, rest,
          run_bind_of_ok (run_get _)]
        rfl
      · rw [if_neg hi] at h
        cases h
        have hleft : t.client_count.toNat - 1 - i = 0 := by omega
        rw [hleft]
        rfl
  | removing =>
      cases h
      rfl
  | finished =>
      cases h
      rfl

/-- Only `send_message` writes. -/
theorem step_ne_sending (hp : ∀ msg i, p ≠ sending msg i) (h : p.step.run t = .ok (p', u)) :
    ∀ msg i, p' ≠ sending msg i := by
  cases p with
  | entering client_sock =>
      obtain ⟨a, v, -, hrest⟩ := run_bind_eq_ok h
      cases hrest
      simp
  | sending msg i => exact absurd rfl (hp msg i)
  | finding client_sock i =>
      rw [step, run_bind_of_ok (run_get t)] at h
      split_ifs at h
      · obtain ⟨sock, v, -, hrest⟩ := run_bind_eq_ok h
        split_ifs at hrest <;> cases hrest <;> simp
      · cases h
        simp
  | shifting i =>
      rw [step, run_bind_of_ok (run_get t)] at h
      split_ifs at h
      · obtain ⟨sock, v, -, hrest⟩ := run_bind_eq_ok h
        obtain ⟨a, w, -, hend⟩ := run_bind_eq_ok hrest
        cases hend
        simp
      · cases h
        simp
  | removing =>
      cases h
      simp
  | finished =>
      cases h
      simp

end SectionPoint

/-- The critical sections. -/
inductive ChatSection where
  | register
  | send (k : Nat)
  | leave (k : Nat)
  deriving DecidableEq, Repr

/-- The step of the server with whole sections. -/
def ChatSection.event : ChatSection → ThreadedEvent
  | register => .register
  | send k => .send k
  | leave k => .leave k

/-- A message that was sent on: the handler, the sockets that it was written to and the sockets that
were registered then. -/
structure Sent where
  handler : Nat
  msg : List UInt8
  sockets : List Nat
  registered : List Nat
  deriving DecidableEq, Repr

/-- The server with its messages. `message k` is what the handler `k` has read and not sent on, the
empty message when its client has left, and `written sock` what was written to a socket. `reads` and
`log` list the messages that were read and those that were sent on; they are not in the source. -/
structure Broadcast where
  server : ThreadedServer
  message : Nat → Option (List UInt8)
  reads : Nat → List (List UInt8)
  written : Nat → List (List UInt8)
  log : List Sent

/-- What a thread does outside of the sections. -/
inductive BroadcastEvent where
  | server (e : ThreadedEvent)
  | read (k : Nat) (msg : List UInt8)
  deriving DecidableEq, Repr

namespace Broadcast

def start : Broadcast := ⟨.start, fun _ => none, fun _ => [], fun _ => [], []⟩

/-- The same threads with another table and other streams. -/
def put (s : Broadcast) (table : ClientTable) (written : Nat → List (List UInt8)) : Broadcast :=
  { s with server := { s.server with table := table }, written := written }

/-- A step that is in no section. -/
def outside (s : Broadcast) : BroadcastEvent → Option Broadcast
  | .server .register | .server (.send _) | .server (.leave _) => none
  | .server e => (s.server.step e).map fun server => { s with server := server }
  | .read k msg =>
      match s.server.handler k, s.message k with
      | .serving _, none =>
          if msg.length ≤ BUF_SIZE then
            some { s with
              message := Function.update s.message k (some msg)
              reads := Function.update s.reads k (s.reads k ++ [msg]) }
          else none
      | _, _ => none

/-- Where a section begins. A handler sends on what it has read, or removes its socket when `read`
has returned 0. -/
def enter (s : Broadcast) : ChatSection → Option SectionPoint
  | .register => if s.server.point = .registering then some (.entering s.server.client_sock) else none
  | .send k =>
      match s.server.handler k, s.message k with
      | .serving _, some (b :: msg) => some (.sending (b :: msg) 0)
      | _, _ => none
  | .leave k =>
      match s.server.handler k, s.message k with
      | .serving sock, some [] => some (.finding sock 0)
      | _, _ => none

/-- The streams after a step. -/
def writes (s : Broadcast) (p : SectionPoint) : Nat → List (List UInt8) :=
  match p with
  | .sending msg i =>
      let sock := s.server.table.client_socks i
      Function.update s.written sock (s.written sock ++ [msg])
  | _ => s.written

/-- A thread gives the mutex up. -/
def unlock (s : Broadcast) (p : SectionPoint) : ChatSection → Option Broadcast
  | .register =>
      some { s with
        server := { s.server with
          registered := s.server.registered ++ [s.server.client_sock]
          point := .creating } }
  | .send k =>
      match p with
      | .sending msg i =>
          let sockets := (List.range i).map s.server.table.client_socks
          some { s with
            message := Function.update s.message k none
            log := s.log ++ [⟨k, msg, sockets, s.server.registered⟩] }
      | _ => none
  | .leave k =>
      match s.server.handler k with
      | .serving sock =>
          some { s with
            server := { s.server.move k (.closing sock) with
              registered := s.server.registered.erase sock } }
      | _ => none

/-- The server with the statements of its critical sections. A run ends where an index leaves the
array. -/
def sections : LockedCode Broadcast BroadcastEvent ChatSection SectionPoint where
  outside := outside
  enter k s := s.enter k
  micro _ p s :=
    if p.Done s.server.table then none
    else
      match p.step.run s.server.table with
      | .ok (p', table) => some (p', s.put table (s.writes p))
      | .error _ => none
  leave k p s := if p.Done s.server.table then s.unlock p k else none

variable {c d s t : Broadcast} {e : BroadcastEvent} {k : ChatSection} {p p' : SectionPoint} {n : Nat}
  {u : ClientTable} {w : Nat → List (List UInt8)}

@[simp] theorem put_put (s : Broadcast) (u u' : ClientTable) (w w' : Nat → List (List UInt8)) :
    (s.put u w).put u' w' = s.put u' w' := rfl

theorem micro_eq_some (h : sections.micro k p s = some (p', t)) :
    ¬ p.Done s.server.table ∧ ∃ u, p.step.run s.server.table = .ok (p', u) ∧
      t = s.put u (s.writes p) := by
  obtain ⟨hdone, hmatch⟩ := Option.ite_none_left_eq_some.mp h
  refine ⟨hdone, ?_⟩
  split at hmatch
  · next p'' u hrun =>
      cases hmatch
      exact ⟨u, hrun, rfl⟩
  · cases hmatch

theorem micro_of_run (hdone : ¬ p.Done s.server.table)
    (hrun : p.step.run s.server.table = .ok (p', u)) :
    sections.micro k p s = some (p', s.put u (s.writes p)) := by
  show (if p.Done s.server.table then none else _) = _
  rw [if_neg hdone, hrun]

theorem writes_congr (htable : d.server.table = c.server.table) (hwritten : d.written = c.written)
    (p : SectionPoint) : d.writes p = c.writes p := by
  cases p <;> simp only [writes, htable, hwritten]

/-- A section changes only the table and the streams, and does the same for other threads with the
same beginning. -/
theorem part_congr (henter : d.enter k = c.enter k) (htable : d.server.table = c.server.table)
    (hwritten : d.written = c.written) (h : sections.part k n c = some (p, s)) :
    sections.part k n d = some (p, d.put s.server.table s.written) ∧
      s = c.put s.server.table s.written := by
  induction n generalizing p s with
  | zero =>
      obtain ⟨r, hr, hrs⟩ := Option.map_eq_some_iff.mp h
      cases hrs
      refine ⟨?_, rfl⟩
      rw [LockedCode.part]
      exact Option.map_eq_some_iff.mpr ⟨p, henter.trans hr, by rw [← htable, ← hwritten]; rfl⟩
  | succ n ih =>
      obtain ⟨⟨q, v⟩, hpart, hmicro⟩ := Option.bind_eq_some_iff.mp h
      obtain ⟨hd, hv⟩ := ih hpart
      obtain ⟨hdone, u, hrun, rfl⟩ := micro_eq_some hmicro
      refine ⟨?_, by rw [hv]; rfl⟩
      rw [LockedCode.part]
      refine Option.bind_eq_some_iff.mpr ⟨_, hd, ?_⟩
      have hnext := micro_of_run (k := k) (s := d.put v.server.table v.written) hdone hrun
      have hsame : (d.put v.server.table v.written).writes q = v.writes q := writes_congr rfl rfl q
      rw [hsame] at hnext
      exact hnext

/-- A step of the server outside of the sections does not depend on the table. -/
theorem step_withTable (s : ThreadedServer) (u : ClientTable) (e : ThreadedEvent)
    (he : ∀ k : ChatSection, e ≠ k.event) :
    ThreadedServer.step { s with table := u } e =
      (s.step e).map fun t => { t with table := u } := by
  by_cases hfault : s.fault = true
  · simp [ThreadedServer.step, hfault]
  · cases e with
    | accept sock =>
        by_cases hfree : s.point = .accepting ∧ s.opened sock = false
        · simp [ThreadedServer.step, hfault, hfree, ThreadedServer.accepted]
        · simp [ThreadedServer.step, hfault, hfree]
    | register => exact absurd rfl (he .register)
    | create =>
        by_cases hpoint : s.point = .creating
        · simp [ThreadedServer.step, hfault, hpoint, ThreadedServer.created, ThreadedServer.move]
        · simp [ThreadedServer.step, hfault, hpoint]
    | start k =>
        by_cases hk : s.handler k = .starting
        · simp [ThreadedServer.step, hfault, hk, ThreadedServer.move]
        · simp [ThreadedServer.step, hfault, hk]
    | send k => exact absurd rfl (he (.send k))
    | leave k => exact absurd rfl (he (.leave k))
    | close k =>
        cases hk : s.handler k with
        | closing sock =>
            simp [ThreadedServer.step, hfault, hk, ThreadedServer.closed, ThreadedServer.move]
        | _ => simp [ThreadedServer.step, hfault, hk]

/-- What is done outside of the sections. -/
inductive Outside (s : Broadcast) : BroadcastEvent → Broadcast → Prop
  | server {e : ThreadedEvent} {server : ThreadedServer} (he : ∀ k : ChatSection, e ≠ k.event)
      (hserver : s.server.step e = some server) :
      Outside s (.server e) { s with server := server }
  | read {k sock : Nat} {msg : List UInt8} (hk : s.server.handler k = .serving sock)
      (hnone : s.message k = none) (hlength : msg.length ≤ BUF_SIZE) :
      Outside s (.read k msg)
        { s with
          message := Function.update s.message k (some msg)
          reads := Function.update s.reads k (s.reads k ++ [msg]) }

theorem outside_iff : s.outside e = some t ↔ s.Outside e t := by
  constructor
  · intro h
    cases e with
    | server e =>
        cases e with
        | register => cases h
        | send k => cases h
        | leave k => cases h
        | _ =>
            obtain ⟨server, hserver, rfl⟩ := Option.map_eq_some_iff.mp h
            exact .server (fun k => by cases k <;> simp [ChatSection.event]) hserver
    | read k msg =>
        rw [outside] at h
        split at h
        · next sock hk hnone =>
            obtain ⟨hlength, ⟨⟩⟩ := Option.ite_none_right_eq_some.mp h
            exact .read hk hnone hlength
        · cases h
  · intro h
    cases h with
    | @server e server he hserver =>
        cases e with
        | register => exact absurd rfl (he .register)
        | send k => exact absurd rfl (he (.send k))
        | leave k => exact absurd rfl (he (.leave k))
        | _ => exact Option.map_eq_some_iff.mpr ⟨server, hserver, rfl⟩
    | read hk hnone hlength =>
        rw [outside, hk, hnone]
        exact if_pos hlength

/-- What is done outside of the sections does not depend on the table and the streams. -/
theorem outside_of_put (h : (c.put u w).outside e = some t) :
    ∃ d, c.outside e = some d ∧ t = d.put u w := by
  cases outside_iff.mp h with
  | server he hserver =>
      have hstep := step_withTable c.server u _ he
      rw [show ThreadedServer.step { c.server with table := u } _ = some _ from hserver] at hstep
      obtain ⟨server, hs, hput⟩ := Option.map_eq_some_iff.mp hstep.symm
      refine ⟨{ c with server := server }, outside_iff.mpr (.server he hs), ?_⟩
      rw [← hput]
      rfl
  | read hk hnone hlength =>
      exact ⟨_, outside_iff.mpr (.read hk hnone hlength), rfl⟩

/-- The threads of `main` and of its handlers: the one that is created next does not exist yet. -/
structure Threads (s : ThreadedServer) : Prop where
  some_accept : s.point ≠ .accepting → s.accepts ≠ []
  absent : ∀ k, s.accepts.length ≤ k → s.handler k = .absent
  next : s.point ≠ .accepting → s.handler (s.accepts.length - 1) = .absent

theorem threads_start : Threads ThreadedServer.start where
  some_accept := fun h => absurd rfl h
  absent := fun _ _ => rfl
  next := fun h => absurd rfl h

/-- A thread that exists goes on. -/
theorem Threads.move {s : ThreadedServer} {k : Nat} {h : Handler} (ht : Threads s)
    (hk : s.handler k ≠ .absent) : Threads (s.move k h) where
  some_accept := ht.some_accept
  absent := by
    intro j hj
    rw [ThreadedServer.move_of_ne s h (by rintro rfl; exact hk (ht.absent j hj))]
    exact ht.absent j hj
  next := by
    intro hp
    have hnext := ht.next hp
    have hne : s.accepts.length - 1 ≠ k := fun heq => hk (heq ▸ hnext)
    exact (ThreadedServer.move_of_ne s h hne).trans hnext

theorem Threads.congr {s t : ThreadedServer} (ht : Threads s) (hhandler : t.handler = s.handler)
    (haccepts : t.accepts = s.accepts) (hpoint : t.point ≠ .accepting → s.point ≠ .accepting) :
    Threads t where
  some_accept := fun hp => haccepts ▸ ht.some_accept (hpoint hp)
  absent := fun k hk => hhandler ▸ ht.absent k (haccepts ▸ hk)
  next := fun hp => by
    rw [hhandler, haccepts]
    exact ht.next (hpoint hp)

theorem Threads.step {s t : ThreadedServer} {e : ThreadedEvent} (ht : Threads s)
    (hstep : s.step e = some t) : Threads t := by
  cases ThreadedServer.Stepped.of_step hstep with
  | @accept sock hpoint hfresh =>
      constructor
      case some_accept => simp [ThreadedServer.accepted]
      case absent =>
        intro k hk
        exact ht.absent k (by simp [ThreadedServer.accepted] at hk; omega)
      case next =>
        intro _
        exact ht.absent _ (by simp [ThreadedServer.accepted])
  | register hpoint =>
      obtain ⟨hhandler, -, -, -, -, haccepts⟩ :=
        ThreadedServer.critical_fields s (ClientTable.register s.client_sock)
      exact ht.congr hhandler haccepts fun _ => by rw [hpoint]; simp
  | create hpoint =>
      have hne : s.accepts ≠ [] := ht.some_accept (by rw [hpoint]; simp)
      have hlength := List.length_pos_iff.mpr hne
      constructor
      case some_accept => exact fun hp => absurd rfl hp
      case absent =>
        intro k hk
        show (s.move _ _).handler k = _
        replace hk : s.accepts.length ≤ k := hk
        rw [ThreadedServer.move_of_ne s _ (by omega)]
        exact ht.absent k hk
      case next => exact fun hp => absurd rfl hp
  | start hk => exact ht.move (by rw [hk]; simp)
  | send hk =>
      obtain ⟨hhandler, -, hpoint, -, -, haccepts⟩ :=
        ThreadedServer.critical_fields s ClientTable.sendMessage
      exact ht.congr hhandler haccepts fun hp => hpoint ▸ hp
  | @leave k sock hk =>
      obtain ⟨hhandler, -, hpoint, -, -, haccepts⟩ :=
        ThreadedServer.critical_fields s (ClientTable.removeSock sock)
      have hsame : Threads (s.critical (ClientTable.removeSock sock)) :=
        ht.congr hhandler haccepts fun hp => hpoint ▸ hp
      have hmove := hsame.move (k := k) (h := .closing sock) (by rw [hhandler, hk]; simp)
      exact hmove.congr rfl rfl id
  | @close k sock hk =>
      have hmove := ht.move (k := k) (h := .done sock) (by rw [hk]; simp)
      exact hmove.congr rfl rfl id

/-- A step outside of the sections leaves a handler alone that is at the beginning of one. -/
theorem handler_outside {j sock : Nat} (ht : Threads c.server) (h : c.Outside e d)
    (hj : c.server.handler j = .serving sock) : d.server.handler j = .serving sock := by
  cases h with
  | server he hserver =>
      cases ThreadedServer.Stepped.of_step hserver with
      | accept hpoint hfresh => exact hj
      | register hpoint => exact absurd rfl (he .register)
      | create hpoint =>
          have hnext := ht.next (by rw [hpoint]; simp)
          have hne : j ≠ c.server.accepts.length - 1 := by
            rintro rfl
            rw [hj] at hnext
            cases hnext
          exact (ThreadedServer.move_of_ne _ _ hne).trans hj
      | start hk =>
          have hne : j ≠ _ := fun hjk => by
            rw [hjk, hk] at hj
            cases hj
          exact (ThreadedServer.move_of_ne _ _ hne).trans hj
      | send hk => exact absurd rfl (he (.send _))
      | leave hk => exact absurd rfl (he (.leave _))
      | close hk =>
          have hne : j ≠ _ := fun hjk => by
            rw [hjk, hk] at hj
            cases hj
          exact (ThreadedServer.move_of_ne _ _ hne).trans hj
  | read hk hnone hlength => exact hj

/-- What a handler has read stays until it is sent on. -/
theorem message_outside {j : Nat} {msg : List UInt8} (h : c.Outside e d)
    (hj : c.message j = some msg) : d.message j = some msg := by
  cases h with
  | server he hserver => exact hj
  | @read k _ _ hk hnone hlength =>
      have hne : j ≠ k := by
        rintro rfl
        rw [hj] at hnone
        cases hnone
      exact (Function.update_of_ne hne _ _).trans hj

/-- A section that is open begins where it did after a step of another thread. -/
theorem enter_outside (ht : Threads c.server) (hopen : c.enter k = some p) (h : c.Outside e d) :
    d.enter k = some p := by
  cases k with
  | register =>
      obtain ⟨hpoint, hp⟩ := Option.ite_none_right_eq_some.mp hopen
      have hmain : d.server.point = .registering ∧ d.server.client_sock = c.server.client_sock := by
        cases h with
        | server he hserver =>
            cases ThreadedServer.Stepped.of_step hserver with
            | accept hfree hfresh => exact absurd (hpoint.symm.trans hfree) (by simp)
            | register hpoint => exact absurd rfl (he .register)
            | create hcreate => exact absurd (hpoint.symm.trans hcreate) (by simp)
            | start hk => exact ⟨hpoint, rfl⟩
            | send hk => exact absurd rfl (he (.send _))
            | leave hk => exact absurd rfl (he (.leave _))
            | close hk => exact ⟨hpoint, rfl⟩
        | read hk hnone hlength => exact ⟨hpoint, rfl⟩
      rw [enter, if_pos hmain.1, hmain.2]
      exact hp
  | send j =>
      rw [enter] at hopen
      split at hopen
      · next sock b msg hj hsome =>
          rw [enter, handler_outside ht h hj, message_outside h hsome]
          exact hopen
      · cases hopen
  | leave j =>
      rw [enter] at hopen
      split at hopen
      · next sock hj hsome =>
          rw [enter, handler_outside ht h hj, message_outside h hsome]
          exact hopen
      · cases hopen

theorem outside_table (h : c.Outside e d) :
    d.server.table = c.server.table ∧ d.written = c.written := by
  cases h with
  | server he hserver =>
      cases ThreadedServer.Stepped.of_step hserver with
      | register hpoint => exact absurd rfl (he .register)
      | send hk => exact absurd rfl (he (.send _))
      | leave hk => exact absurd rfl (he (.leave _))
      | _ => exact ⟨rfl, rfl⟩
  | read hk hnone hlength => exact ⟨rfl, rfl⟩

theorem enter_of_part (h : sections.part k n c = some (p, s)) : ∃ q, c.enter k = some q := by
  induction n generalizing p s with
  | zero =>
      obtain ⟨r, hr, -⟩ := Option.map_eq_some_iff.mp h
      exact ⟨r, hr⟩
  | succ n ih =>
      obtain ⟨⟨q, v⟩, hpart, -⟩ := Option.bind_eq_some_iff.mp h
      exact ih hpart

/-- The steps of the other threads commute with those of a section. -/
theorem commutes : sections.Commutes fun c => Threads c.server := by
  intro c k n p s e t ht hpart houtside
  obtain ⟨-, hs⟩ := part_congr (d := c) rfl rfl rfl hpart
  rw [hs] at houtside
  obtain ⟨d, hd, rfl⟩ := outside_of_put houtside
  have hmoves := outside_iff.mp hd
  obtain ⟨q, hq⟩ := enter_of_part hpart
  obtain ⟨htable, hwritten⟩ := outside_table hmoves
  exact ⟨d, hd, (part_congr ((enter_outside ht hq hmoves).trans hq.symm) htable hwritten hpart).1⟩

/-! ### Whole sections -/

/-- The streams after `msg` was written to `sockets`. -/
def deliver (msg : List UInt8) (sockets : List Nat) (w : Nat → List (List UInt8)) :
    Nat → List (List UInt8) :=
  fun sock => w sock ++ List.replicate (sockets.count sock) msg

theorem deliver_concat (msg : List UInt8) (sockets : List Nat) (sock : Nat)
    (w : Nat → List (List UInt8)) :
    deliver msg (sockets ++ [sock]) w =
      Function.update (deliver msg sockets w) sock (deliver msg sockets w sock ++ [msg]) := by
  funext x
  by_cases hx : x = sock
  · subst hx
    rw [Function.update_self]
    simp [deliver, List.replicate_succ']
  · rw [Function.update_of_ne hx]
    simp [deliver, Ne.symm hx]

/-- What is left of a section, after some of its steps, does what the section does. -/
theorem rest_part (henter : c.enter k = some p) (h : sections.part k n c = some (p', s)) :
    p'.rest.run s.server.table = p.rest.run c.server.table := by
  induction n generalizing p' s with
  | zero =>
      obtain ⟨r, hr, hrs⟩ := Option.map_eq_some_iff.mp h
      cases hrs
      cases henter.symm.trans hr
      rfl
  | succ n ih =>
      obtain ⟨⟨q, v⟩, hpart, hmicro⟩ := Option.bind_eq_some_iff.mp h
      obtain ⟨-, u, hrun, rfl⟩ := micro_eq_some hmicro
      rw [← ih hpart]
      exact (SectionPoint.rest_run hrun).symm

theorem rest_done (h : p.Done u) : p.rest.run u = .ok ((), u) := by
  cases p with
  | sending msg i => rfl
  | finished => rfl
  | _ => cases h

theorem enter_send {j : Nat} (h : c.enter (.send j) = some p) :
    ∃ sock msg, c.server.handler j = .serving sock ∧ c.message j = some msg ∧ p = .sending msg 0 := by
  rw [enter] at h
  split at h
  · next sock b msg hj hsome =>
      cases h
      exact ⟨sock, b :: msg, hj, hsome, rfl⟩
  · cases h

theorem enter_leave {j : Nat} (h : c.enter (.leave j) = some p) :
    ∃ sock, c.server.handler j = .serving sock ∧ p = .finding sock 0 := by
  rw [enter] at h
  split at h
  · next sock hj hsome =>
      cases h
      exact ⟨sock, hj, rfl⟩
  · cases h

/-- The first steps of `send_message`: the message is written to the first sockets of the table. -/
theorem send_part {j : Nat} (h : sections.part (.send j) n c = some (p, s)) :
    ∃ msg, c.message j = some msg ∧ p = .sending msg n ∧
      s = c.put c.server.table
        (deliver msg ((List.range n).map c.server.table.client_socks) c.written) ∧
      (∀ i, i < n → (i : Int) < c.server.table.client_count ∧ i < MAX_CLIENT) := by
  induction n generalizing p s with
  | zero =>
      obtain ⟨r, hr, hrs⟩ := Option.map_eq_some_iff.mp h
      cases hrs
      obtain ⟨-, msg, -, hmsg, rfl⟩ := enter_send hr
      refine ⟨msg, hmsg, rfl, ?_, fun i hi => absurd hi (Nat.not_lt_zero i)⟩
      have hsame : deliver msg [] c.written = c.written := by
        funext x
        simp [deliver]
      rw [List.range_zero, List.map_nil, hsame]
      rfl
  | succ n ih =>
      obtain ⟨⟨q, v⟩, hpart, hmicro⟩ := Option.bind_eq_some_iff.mp h
      obtain ⟨msg, hmsg, rfl, rfl, hbound⟩ := ih hpart
      obtain ⟨hdone, u, hrun, rfl⟩ := micro_eq_some hmicro
      obtain ⟨a, w, hsock, hrest⟩ := run_bind_eq_ok hrun
      obtain ⟨hmax, hw⟩ := SectionPoint.sockAt_eq_ok hsock
      cases hw
      cases hrest
      refine ⟨msg, hmsg, rfl, ?_, fun i hi => ?_⟩
      · rw [List.range_succ, List.map_append, List.map_singleton, deliver_concat]
        rfl
      · rcases Nat.lt_or_eq_of_le (Nat.le_of_lt_succ hi) with hi | rfl
        · exact hbound i hi
        · exact ⟨lt_of_not_ge hdone, hmax⟩

/-- The loop of `send_message` inside the array. -/
theorem sendLoop_run_map {left i : Nat} (h : i + left ≤ MAX_CLIENT) :
    (ClientTable.sendLoop left i).run u = .ok ((List.range' i left).map u.client_socks, u) := by
  induction left generalizing i with
  | zero => rfl
  | succ left ih =>
      have hsock : (ClientTable.sockAt (i : Int)).run u = .ok (u.client_socks i, u) :=
        ClientTable.sockAt_run (by omega)
      rw [ClientTable.sendLoop, run_bind_of_ok hsock, run_bind_of_ok (ih (by omega))]
      rfl

/-- `send_message` after as many turns as there are clients. -/
theorem sendMessage_run_of_bound (hcount : u.client_count ≤ n)
    (hbound : ∀ i, i < n → (i : Int) < u.client_count ∧ i < MAX_CLIENT) :
    ClientTable.sendMessage.run u = .ok ((List.range n).map u.client_socks, u) := by
  have hn : u.client_count.toNat = n := by
    cases n with
    | zero => omega
    | succ n =>
        have := (hbound n (Nat.lt_succ_self n)).1
        omega
  have hmax : 0 + n ≤ MAX_CLIENT := by
    cases n with
    | zero => exact Nat.zero_le _
    | succ n =>
        have := (hbound n (Nat.lt_succ_self n)).2
        omega
  rw [ClientTable.sendMessage, run_bind_of_ok (run_get u), hn, sendLoop_run_map hmax,
    List.range_eq_range']

/-- What a whole section does to the messages. -/
inductive Whole (c : Broadcast) : ChatSection → Broadcast → Prop
  | register {t : Broadcast} (hmessage : t.message = c.message) (hreads : t.reads = c.reads)
      (hwritten : t.written = c.written) (hlog : t.log = c.log) : Whole c .register t
  | leave {k : Nat} {t : Broadcast} (hmessage : t.message = c.message) (hreads : t.reads = c.reads)
      (hwritten : t.written = c.written) (hlog : t.log = c.log) : Whole c (.leave k) t
  | send {k : Nat} {msg : List UInt8} {sockets : List Nat} {t : Broadcast}
      (hmsg : c.message k = some msg) (hmessage : t.message = Function.update c.message k none)
      (hreads : t.reads = c.reads)
      (hsockets : ClientTable.sendMessage.run c.server.table = .ok (sockets, c.server.table))
      (hwritten : t.written = deliver msg sockets c.written)
      (hlog : t.log = c.log ++ [⟨k, msg, sockets, c.server.registered⟩]) : Whole c (.send k) t

/-- A section that only changes the table leaves the streams alone. -/
theorem written_part (hk : ∀ j, k ≠ .send j) (h : sections.part k n c = some (p, s)) :
    s.written = c.written ∧ ∀ msg i, p ≠ .sending msg i := by
  induction n generalizing p s with
  | zero =>
      obtain ⟨r, hr, hrs⟩ := Option.map_eq_some_iff.mp h
      cases hrs
      refine ⟨rfl, ?_⟩
      rintro msg i rfl
      cases k with
      | register => exact absurd (Option.ite_none_right_eq_some.mp hr).2 (by simp)
      | send j => exact hk j rfl
      | leave j =>
          obtain ⟨sock, -, hp⟩ := enter_leave hr
          cases hp
  | succ n ih =>
      obtain ⟨⟨q, v⟩, hpart, hmicro⟩ := Option.bind_eq_some_iff.mp h
      obtain ⟨hwritten, hq⟩ := ih hpart
      obtain ⟨-, u, hrun, rfl⟩ := micro_eq_some hmicro
      refine ⟨?_, SectionPoint.step_ne_sending hq hrun⟩
      rw [← hwritten]
      cases q with
      | sending msg i => exact absurd rfl (hq msg i)
      | _ => rfl

/-- A whole section is the step of the server, and sends what `Whole` says. -/
theorem whole (hfault : c.server.fault = false)
    (h : sections.serialStep c (.whole k n) = some t) :
    c.server.step k.event = some t.server ∧ Whole c k t := by
  obtain ⟨⟨p, s⟩, hpart, hleave⟩ := Option.bind_eq_some_iff.mp h
  obtain ⟨hdone, hunlock⟩ := Option.ite_none_right_eq_some.mp hleave
  obtain ⟨q, hq⟩ := enter_of_part hpart
  obtain ⟨-, hs⟩ := part_congr (d := c) rfl rfl rfl hpart
  have hrest := (rest_part hq hpart).symm.trans (rest_done hdone)
  have hopen : ¬ c.server.fault = true := by rw [hfault]; simp
  cases k with
  | register =>
      obtain ⟨hwritten, -⟩ := written_part (by simp) hpart
      obtain ⟨hpoint, hq⟩ := Option.ite_none_right_eq_some.mp hq
      cases hq
      cases hunlock
      replace hrest : (ClientTable.register c.server.client_sock).run c.server.table =
        .ok ((), s.server.table) := hrest
      rw [hs]
      refine ⟨?_, .register rfl rfl hwritten rfl⟩
      simp only [ChatSection.event, ThreadedServer.step]
      rw [if_neg hopen, if_pos hpoint, ThreadedServer.entered, ThreadedServer.critical_of_ok hrest]
      rfl
  | send j =>
      obtain ⟨msg, hmsg, rfl, hput, hbound⟩ := send_part hpart
      obtain ⟨sock, -, hj, -, -⟩ := enter_send hq
      cases hunlock
      have hcount : c.server.table.client_count ≤ n := by
        rw [hput] at hdone
        exact hdone
      have hsend := sendMessage_run_of_bound hcount hbound
      rw [hput]
      refine ⟨?_, .send hmsg rfl rfl hsend rfl rfl⟩
      simp only [ChatSection.event, ThreadedServer.step, hj]
      rw [if_neg hopen, ThreadedServer.critical_of_ok hsend]
      rfl
  | leave j =>
      obtain ⟨hwritten, -⟩ := written_part (by simp) hpart
      obtain ⟨sock, hj, rfl⟩ := enter_leave hq
      have hremove : (ClientTable.removeSock sock).run c.server.table = .ok ((), s.server.table) := by
        rw [← hrest, SectionPoint.rest, ClientTable.removeSock, run_bind_of_ok (run_get _),
          run_bind_of_ok (run_get _), Nat.sub_zero]
      have hjs : s.server.handler j = .serving sock := by
        rw [hs]
        exact hj
      rw [unlock, hjs] at hunlock
      cases hunlock
      rw [hs]
      refine ⟨?_, .leave rfl rfl hwritten rfl⟩
      simp only [ChatSection.event, ThreadedServer.step, hj]
      rw [if_neg hopen, ThreadedServer.left, ThreadedServer.critical_of_ok hremove]
      rfl

/-- The events of the server with whole sections. -/
def atomic : SerialEvent BroadcastEvent ChatSection → List ThreadedEvent
  | .outside (.server e) => [e]
  | .outside (.read _ _) => []
  | .whole k _ => [k.event]

/-- The threads, with the table inside its bounds. -/
structure Going (c : Broadcast) : Prop where
  threads : Threads c.server
  fault : c.server.fault = false

theorem going_start : start.Going := ⟨threads_start, rfl⟩

section Runs

variable {l : List (LockedEvent BroadcastEvent ChatSection)}
  {f : SerialEvent BroadcastEvent ChatSection} {x : Locked Broadcast ChatSection SectionPoint}

/-- A step of the system with whole sections is a step of the server, or none. -/
theorem atomic_step (hc : c.Going) (h : sections.serialStep c f = some t) :
    runEvents ThreadedServer.step c.server (atomic f) = some t.server := by
  cases f with
  | outside e =>
      cases outside_iff.mp h with
      | server he hserver => exact runEvents_cons_eq_some.mpr ⟨_, hserver, rfl⟩
      | read hk hnone hlength => rfl
  | whole k n => exact runEvents_cons_eq_some.mpr ⟨_, (whole hc.fault h).1, rfl⟩

theorem Going.step (hc : c.Going) (h : sections.serialStep c f = some t) : t.Going := by
  have hthreads : Threads t.server :=
    invariant (fun _ _ _ ht hstep => Threads.step ht hstep) hc.threads (atomic_step hc h)
  refine ⟨hthreads, ?_⟩
  cases f with
  | outside e =>
      cases outside_iff.mp h with
      | server he hserver =>
          cases ThreadedServer.Stepped.of_step hserver with
          | register hpoint => exact absurd rfl (he .register)
          | send hk => exact absurd rfl (he (.send _))
          | leave hk => exact absurd rfl (he (.leave _))
          | _ => exact hc.fault
      | read hk hnone hlength => exact hc.fault
  | whole k n =>
      obtain ⟨⟨p, s⟩, hpart, hleave⟩ := Option.bind_eq_some_iff.mp h
      obtain ⟨-, hunlock⟩ := Option.ite_none_right_eq_some.mp hleave
      obtain ⟨-, hs⟩ := part_congr (d := c) rfl rfl rfl hpart
      have hsame : s.server.fault = false := by
        rw [hs]
        exact hc.fault
      cases k with
      | register =>
          cases hunlock
          exact hsame
      | send j =>
          obtain ⟨msg, -, rfl, -, -⟩ := send_part hpart
          cases hunlock
          exact hsame
      | leave j =>
          rw [unlock] at hunlock
          split at hunlock
          · cases hunlock
            exact hsame
          · cases hunlock

/-- A run of the threads, statement by statement. -/
theorem run_serial (hrun : runEvents sections.step ⟨start, none⟩ l = some x) :
    ∃ c, runEvents sections.serialStep start (LockedCode.serial none l) = some c ∧ c.Going ∧
      sections.Ahead c x (LockedCode.pending none l) :=
  LockedCode.runEvents_serial (I := Going)
    (fun c k n r s e t hc => commutes c k n r s e t hc.threads)
    (fun _ _ _ hc h => Going.step hc h) going_start (p := none) rfl hrun

theorem atomic_run {c : Broadcast} {fs : List (SerialEvent BroadcastEvent ChatSection)}
    (hc : c.Going) (h : runEvents sections.serialStep c fs = some t) :
    runEvents ThreadedServer.step c.server (fs.flatMap atomic) = some t.server := by
  induction fs generalizing c with
  | nil =>
      cases h
      rfl
  | cons f fs ih =>
      obtain ⟨d, hd, hrest⟩ := runEvents_cons_eq_some.mp h
      rw [List.flatMap_cons]
      exact runEvents_append.mpr ⟨d.server, atomic_step hc hd, ih (hc.step hd) hrest⟩

/-- Whenever the mutex is free, the server that runs its sections statement by statement is in a state
that the server with whole sections reaches. -/
theorem sections_refine (hrun : runEvents sections.step ⟨start, none⟩ l = some x)
    (hfree : x.inside = none) :
    runEvents ThreadedServer.step .start ((LockedCode.serial none l).flatMap atomic) =
      some x.shared.server := by
  obtain ⟨c, hserial, -, hahead⟩ := run_serial hrun
  have hx := LockedCode.Ahead.eq_of_free hahead hfree
  rw [← hx]
  exact atomic_run going_start hserial

/-- Two clients come, and `main` is in its critical section for the second one. -/
theorem sections_refine_two_clients : ∃ x,
    runEvents sections.step ⟨start, none⟩ [.outside (.server (.accept 5)), .enter .register, .micro,
      .leave, .outside (.server .create), .outside (.server (.accept 6)), .enter .register,
      .outside (.server (.start 0)), .micro, .leave] = some x ∧
      runEvents ThreadedServer.step .start [.accept 5, .register, .create, .accept 6, .start 0,
        .register] = some x.shared.server := by
  refine ⟨_, rfl, ?_⟩
  exact sections_refine (l := [.outside (.server (.accept 5)), .enter .register, .micro, .leave,
    .outside (.server .create), .outside (.server (.accept 6)), .enter .register,
    .outside (.server (.start 0)), .micro, .leave]) rfl rfl

/-! ### The order of the messages -/

/-- What the sockets were sent, and what became of the messages that were read. -/
structure Streams (c : Broadcast) : Prop where
  written : ∀ sock, c.written sock =
    c.log.flatMap fun m => List.replicate (m.sockets.count sock) m.msg
  reads : ∀ k, c.reads k =
    (c.log.filter fun m => m.handler == k).map Sent.msg ++ (c.message k).toList

theorem streams_start : start.Streams := ⟨fun _ => rfl, fun _ => rfl⟩

theorem Streams.congr (h : c.Streams) (hmessage : t.message = c.message) (hreads : t.reads = c.reads)
    (hwritten : t.written = c.written) (hlog : t.log = c.log) : t.Streams where
  written := by
    rw [hwritten, hlog]
    exact h.written
  reads := by
    rw [hreads, hlog, hmessage]
    exact h.reads

theorem Streams.step (hc : c.Going) (h : c.Streams) (hstep : sections.serialStep c f = some t) :
    t.Streams := by
  cases f with
  | outside e =>
      cases outside_iff.mp hstep with
      | server he hserver => exact h.congr rfl rfl rfl rfl
      | @read k sock msg hk hnone hlength =>
          refine ⟨h.written, fun j => ?_⟩
          by_cases hj : j = k
          · subst hj
            simp only [Function.update_self]
            rw [h.reads j, hnone]
            simp
          · simp only [Function.update_of_ne hj]
            exact h.reads j
  | whole k n =>
      cases (whole hc.fault hstep).2 with
      | register hmessage hreads hwritten hlog => exact h.congr hmessage hreads hwritten hlog
      | leave hmessage hreads hwritten hlog => exact h.congr hmessage hreads hwritten hlog
      | @send k msg sockets _ hmsg hmessage hreads hsockets hwritten hlog =>
          constructor
          case written =>
            intro sock
            rw [hwritten, hlog, List.flatMap_append, ← h.written sock]
            simp [deliver]
          case reads =>
            intro j
            rw [hreads, hlog, hmessage, h.reads j]
            by_cases hj : j = k
            · subst hj
              rw [hmsg, Function.update_self]
              simp
            · rw [Function.update_of_ne hj]
              simp [Ne.symm hj]

/-- Every message goes to the registered sockets, each of them once. -/
structure Fair (c : Broadcast) : Prop where
  registered : c.server.Registered
  apart : c.server.Apart
  log : ∀ m ∈ c.log, m.sockets = m.registered ∧ m.registered.Nodup

theorem Fair.step (hc : c.Going) (h : c.Fair) (hstep : sections.serialStep c f = some t)
    (horder : ∀ e ∈ atomic f, c.server.InOrder e) : t.Fair := by
  have hstep' : ∀ e, atomic f = [e] → t.server.Registered ∧ t.server.Apart := by
    intro e he
    have hserver := atomic_step hc hstep
    rw [he] at hserver
    obtain ⟨u, hu, hrest⟩ := runEvents_cons_eq_some.mp hserver
    cases hrest
    have hregistered := (h.registered.step_iff h.apart hu).mpr (horder e (by rw [he]; simp))
    exact ⟨hregistered, h.apart.step h.registered hu hregistered⟩
  cases f with
  | outside e =>
      cases outside_iff.mp hstep with
      | server he hserver =>
          obtain ⟨hregistered, hapart⟩ := hstep' _ rfl
          exact ⟨hregistered, hapart, h.log⟩
      | read hk hnone hlength => exact ⟨h.registered, h.apart, h.log⟩
  | whole k n =>
      obtain ⟨hregistered, hapart⟩ := hstep' _ rfl
      refine ⟨hregistered, hapart, ?_⟩
      cases (whole hc.fault hstep).2 with
      | register hmessage hreads hwritten hlog =>
          rw [hlog]
          exact h.log
      | leave hmessage hreads hwritten hlog =>
          rw [hlog]
          exact h.log
      | @send k msg sockets _ hmsg hmessage hreads hsockets hwritten hlog =>
          intro m hm
          rw [hlog, List.mem_append, List.mem_singleton] at hm
          rcases hm with hm | rfl
          · exact h.log m hm
          · cases (ClientTable.sendMessage_run h.registered.holds).symm.trans hsockets
            exact ⟨rfl, h.registered.once⟩

theorem fair_start : start.Fair :=
  ⟨ThreadedServer.registered_start, ThreadedServer.apart_start, fun _ hm => absurd hm List.not_mem_nil⟩

/-- Along a run of the server in which the table stays right. -/
theorem Fair.run {fs : List (SerialEvent BroadcastEvent ChatSection)} (hc : c.Going) (h : c.Fair)
    (hrun : runEvents sections.serialStep c fs = some t)
    (horder : Along ThreadedServer.step ThreadedServer.InOrder c.server (fs.flatMap atomic)) :
    t.Fair := by
  induction fs generalizing c with
  | nil =>
      cases hrun
      exact h
  | cons f fs ih =>
      obtain ⟨d, hd, hrest⟩ := runEvents_cons_eq_some.mp hrun
      have hserver := atomic_step hc hd
      rw [List.flatMap_cons] at horder
      have hsplit : (∀ e ∈ atomic f, c.server.InOrder e) ∧
          Along ThreadedServer.step ThreadedServer.InOrder d.server (fs.flatMap atomic) := by
        rcases hf : atomic f with - | ⟨e, es⟩
        · rw [hf] at hserver horder
          have hcd : c.server = d.server := Option.some.inj hserver
          rw [← hcd]
          exact ⟨fun _ he => absurd he List.not_mem_nil, horder⟩
        · have hes : es = [] := by
            cases f with
            | outside e => cases e <;> simp_all [atomic]
            | whole k n => simp_all [atomic]
          subst hes
          rw [hf] at hserver horder
          obtain ⟨u, hu, hend⟩ := runEvents_cons_eq_some.mp hserver
          cases hend
          refine ⟨fun e' he => ?_, horder.tail hu⟩
          rw [List.mem_singleton.mp he]
          exact horder.head
      exact ih (hc.step hd) (h.step hc hd hsplit.1) hrest hsplit.2

theorem flatMap_replicate_count {log : List Sent} (h : ∀ m ∈ log, m.sockets = m.registered ∧
      m.registered.Nodup) (sock : Nat) :
    (log.flatMap fun m => List.replicate (m.sockets.count sock) m.msg) =
      (log.filter fun m => decide (sock ∈ m.registered)).map Sent.msg := by
  induction log with
  | nil => rfl
  | cons m log ih =>
      obtain ⟨hsockets, hnodup⟩ := h m List.mem_cons_self
      rw [List.flatMap_cons, ih fun m hm => h m (List.mem_cons_of_mem _ hm), hsockets]
      by_cases hmem : sock ∈ m.registered
      · rw [List.count_eq_one_of_mem hnodup hmem]
        simp [hmem]
      · rw [List.count_eq_zero_of_not_mem hmem]
        simp [hmem]

/-- What a client of the chat sees: every socket was written the messages that were sent on while it
was registered, each of them once and all sockets in the one order of `log`; and what a handler has
read went out in the order in which it was read, none of it twice, and all but the last is out. -/
theorem one_order (hrun : runEvents sections.step ⟨start, none⟩ l = some x)
    (hfree : x.inside = none) (horder : Along ThreadedServer.step ThreadedServer.InOrder .start
      ((LockedCode.serial none l).flatMap atomic)) :
    (∀ sock, x.shared.written sock =
        (x.shared.log.filter fun m => decide (sock ∈ m.registered)).map Sent.msg) ∧
      ∀ k, x.shared.reads k =
        (x.shared.log.filter fun m => m.handler == k).map Sent.msg ++
          (x.shared.message k).toList := by
  obtain ⟨c, hserial, -, hahead⟩ := run_serial hrun
  have hx := LockedCode.Ahead.eq_of_free hahead hfree
  subst hx
  have hfair : x.shared.Fair := fair_start.run going_start hserial horder
  have hstreams : x.shared.Going ∧ x.shared.Streams :=
    invariant (I := fun c => c.Going ∧ c.Streams)
      (fun _ _ _ hc h => ⟨hc.1.step h, hc.2.step hc.1 h⟩) ⟨going_start, streams_start⟩ hserial
  refine ⟨fun sock => ?_, hstreams.2.reads⟩
  rw [hstreams.2.written sock]
  exact flatMap_replicate_count hfair.log sock

/-- Two clients come, and the first one sends a message. -/
theorem one_order_two_clients : ∃ x,
    runEvents sections.step ⟨start, none⟩ [.outside (.server (.accept 5)), .enter .register, .micro,
      .leave, .outside (.server .create), .outside (.server (.start 0)),
      .outside (.server (.accept 6)), .enter .register, .micro, .leave, .outside (.read 0 [104, 105]),
      .enter (.send 0), .micro, .outside (.server .create), .micro, .leave] = some x ∧
      x.shared.log = [⟨0, [104, 105], [5, 6], [5, 6]⟩] ∧ x.shared.written 5 = [[104, 105]] ∧
      x.shared.written 6 = [[104, 105]] := by
  have hall := one_order (l := [.outside (.server (.accept 5)), .enter .register, .micro,
    .leave, .outside (.server .create), .outside (.server (.start 0)),
    .outside (.server (.accept 6)), .enter .register, .micro, .leave, .outside (.read 0 [104, 105]),
    .enter (.send 0), .micro, .outside (.server .create), .micro, .leave]) rfl rfl
    ⟨trivial, by decide, trivial, trivial, trivial, by decide, trivial, trivial, trivial⟩
  exact ⟨_, rfl, rfl, hall.1 5, hall.1 6⟩

end Runs

end Broadcast

end CLanguageLearning.Chat
