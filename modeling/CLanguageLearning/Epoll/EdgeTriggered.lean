import CLanguageLearning.Foundation.Exec
import CLanguageLearning.Epoll.OneshotServer

/-!
# Reading until nothing is left

The edge-triggered server of `9-3mtlt.cpp`, with the part of the kernel that its calls work on: the
table of descriptors, the connections behind them, and the queue of those not accepted yet. An event
that has been delivered does not come again for what was there already, so `et` has to read each
client until nothing is left, and to accept connections until none is waiting.

It accepts one for each event. When a client has ended its stream it closes the descriptor and does
not leave the loop, so it calls `recv` and `close` once more (`drains_iff`).
-/

set_option autoImplicit false

namespace CLanguageLearning.Epoll

open CLanguageLearning.Foundation

def BUFFER_SIZE : Nat := 10

/-- What `recv` answers when nothing is unread. -/
inductive Ending where
  | again
  | eof
  | error
  deriving DecidableEq, Repr

structure Connection where
  unread : List UInt8
  ending : Ending
  deriving DecidableEq, Repr

/-- An open descriptor: the connection if it is a client's socket, the flag `O_NONBLOCK`, and the
entry of `epollfd`, which tells whether it is edge-triggered. -/
structure Descriptor where
  connection : Option Nat
  nonblocking : Bool
  registered : Option Bool
  deriving DecidableEq, Repr

/-- `misused` are the descriptors that were not open when a call was made on them. -/
structure Kernel where
  table : List (Option Descriptor)
  conn : Nat → Connection
  pending : List Nat
  misused : List Nat

namespace Kernel

def descriptor (k : Kernel) (fd : Nat) : Option Descriptor := k.table[fd]?.join

/-- The connection behind a descriptor. -/
def connectionOf (k : Kernel) (fd : Nat) : Option Nat := (k.descriptor fd).bind Descriptor.connection

def put (k : Kernel) (fd : Nat) (d : Option Descriptor) : Kernel :=
  { k with table := (k.table ++ [none]).set fd d }

/-- The lowest descriptor that is not open. -/
def lowest (k : Kernel) : Nat := k.table.findIdx Option.isNone

def misuse (k : Kernel) (fd : Nat) : Kernel := { k with misused := k.misused ++ [fd] }

/-- The kernel when `rest` is what is still unread of a connection. -/
def leave (k : Kernel) (id : Nat) (rest : List UInt8) : Kernel :=
  { k with conn := Function.update k.conn id { k.conn id with unread := rest } }

end Kernel

/-- `accept(listenfd, …)`, `none` for -1. -/
def accept (listenfd : Nat) : Exec Kernel (Option Nat) := do
  let k ← get
  match k.pending with
  | [] =>
      -- a descriptor that is not `O_NONBLOCK` waits for a connection
      if (k.descriptor listenfd).any Descriptor.nonblocking then return none else throw .diverged
  | id :: rest =>
      set { k.put k.lowest (some ⟨some id, false, none⟩) with pending := rest }
      return some k.lowest

/-- `recv(sockfd, buf, n, 0)`. -/
def recv (sockfd n : Nat) : Exec Kernel Recv := do
  let k ← get
  match k.descriptor sockfd with
  | none =>
      set (k.misuse sockfd)
      return .error
  | some d =>
      match d.connection with
      | none => return .error
      | some id =>
          let c := k.conn id
          if c.unread ≠ [] then
            set (k.leave id (c.unread.drop n))
            return .data
          else
            match c.ending with
            | .again => if d.nonblocking then return .again else throw .diverged
            | .eof => return .eof
            | .error => return .error

def close (fd : Nat) : Exec Kernel Unit :=
  modify fun k =>
    match k.descriptor fd with
    | none => k.misuse fd
    | some _ => k.put fd none

/-- `epoll_ctl(epollfd, EPOLL_CTL_ADD, fd, …)`, which does not change an entry. -/
def ctlAdd (fd : Nat) (enable_et : Bool) : Exec Kernel Unit :=
  modify fun k =>
    match k.descriptor fd with
    | none => k.misuse fd
    | some d => k.put fd (some { d with registered := d.registered <|> some enable_et })

def setnonblocking (fd : Nat) : Exec Kernel Unit :=
  modify fun k =>
    match k.descriptor fd with
    | none => k.misuse fd
    | some d => k.put fd (some { d with nonblocking := true })

/-- `addfd(epollfd, fd, enable_et)`; for the descriptor -1 both calls fail. -/
def addfd (fd : Option Nat) (enable_et : Bool) : Exec Kernel Unit :=
  match fd with
  | none => return ()
  | some fd => do
      ctlAdd fd enable_et
      setnonblocking fd

/-- `while (1)` of `et`. -/
def recvLoop : Nat → Nat → Exec Kernel Unit
  | 0, _ => throw .diverged
  | fuel + 1, sockfd => do
      let ret ← recv sockfd (BUFFER_SIZE - 1)
      match ret with
      | .again => return ()
      | .error => close sockfd
      | .eof => do
          close sockfd
          recvLoop fuel sockfd
      | .data => recvLoop fuel sockfd

/-- One turn of the loop over the events. -/
def etEvent (fuel listenfd : Nat) (event : Nat × Bool) : Exec Kernel Unit :=
  if event.1 = listenfd then do
    let connfd ← accept listenfd
    addfd connfd true
  else if event.2 then recvLoop fuel event.1
  else return ()

/-- `et(events, number, epollfd, listenfd)`, each event with whether it has `EPOLLIN`. -/
def et (fuel listenfd : Nat) (events : List (Nat × Bool)) : Exec Kernel Unit :=
  events.forM (etEvent fuel listenfd)

/-! ## What `main` sees to -/

namespace Kernel

/-- The listening socket is registered edge-triggered; every other registered descriptor is that of a
client, and none of them blocks. -/
structure Served (k : Kernel) (listenfd : Nat) : Prop where
  listening : ∃ d, k.descriptor listenfd = some d ∧ d.nonblocking = true ∧ d.registered = some true
  client : ∀ fd d, k.descriptor fd = some d → d.registered ≠ none → fd ≠ listenfd →
    d.nonblocking = true ∧ ∃ id, d.connection = some id

/-- Events as `epoll_wait` delivers them: of registered descriptors, of each at most one. -/
structure Delivered (k : Kernel) (events : List (Nat × Bool)) : Prop where
  nodup : (events.map Prod.fst).Nodup
  registered : ∀ event ∈ events, ∃ d, k.descriptor event.1 = some d ∧ d.registered ≠ none

/-- Turns enough for the loop to read every client of the batch. -/
def Enough (k : Kernel) (fuel : Nat) (events : List (Nat × Bool)) : Prop :=
  ∀ event ∈ events, ∀ id, k.connectionOf event.1 = some id → (k.conn id).unread.length + 2 ≤ fuel

/-- The client behind a descriptor has ended its stream. -/
def atEof (k : Kernel) (fd : Nat) : Bool :=
  (k.connectionOf fd).any fun id => (k.conn id).ending = .eof

end Kernel

/-- The kernels before a batch of `main`: `addfd` has been called for the listening socket, clients
have connected and sent, and `et` has dealt with batches of events. -/
inductive Reached (listenfd : Nat) : Kernel → Prop where
  | start {k k' : Kernel} {d : Descriptor} (hopen : k.descriptor listenfd = some d)
      (hnone : ∀ fd d, k.descriptor fd = some d → d.registered = none)
      (hrun : (addfd (some listenfd) true).run k = .ok ((), k')) : Reached listenfd k'
  | arrive {k k' : Kernel} (h : Reached listenfd k) (htable : k'.table = k.table) :
      Reached listenfd k'
  | et {k k' : Kernel} {fuel : Nat} {events : List (Nat × Bool)} (h : Reached listenfd k)
      (hevents : k.Delivered events) (hfuel : k.Enough fuel events)
      (hrun : (et fuel listenfd events).run k = .ok ((), k')) : Reached listenfd k'

/-- Nothing is left of what the events reported: no connection waits, and of no client's socket that
is still open anything is unread. -/
structure Drained (k k' : Kernel) (listenfd : Nat) (events : List (Nat × Bool)) : Prop where
  pending : listenfd ∈ events.map Prod.fst → k'.pending = []
  unread : ∀ fd id, (fd, true) ∈ events → fd ≠ listenfd → k.connectionOf fd = some id →
    (∃ fd', k'.connectionOf fd' = some id) → (k'.conn id).unread = []

/-- `et` returns, nothing is left, and no call has been made on a closed descriptor. -/
def Drains (fuel : Nat) (k : Kernel) (listenfd : Nat) (events : List (Nat × Bool)) : Prop :=
  ∃ k', (et fuel listenfd events).run k = .ok ((), k') ∧ Drained k k' listenfd events ∧
    k'.misused = k.misused

/-! ## The table of descriptors -/

namespace Kernel

variable {k k' : Kernel} {fd j listenfd : Nat} {d : Descriptor} {o : Option Descriptor}

theorem lt_length (h : k.descriptor fd = some d) : fd < k.table.length := by
  by_contra hge
  rw [descriptor, List.getElem?_eq_none (Nat.not_lt.mp hge)] at h
  cases h

theorem descriptor_put (h : fd ≤ k.table.length) (o : Option Descriptor) (j : Nat) :
    (k.put fd o).descriptor j = if j = fd then o else k.descriptor j := by
  rw [put, descriptor, descriptor]
  have hlen : fd < (k.table ++ [none]).length := by
    rw [List.length_append, List.length_singleton]
    omega
  by_cases hj : j = fd
  · rw [if_pos hj, hj, List.getElem?_set_self hlen, Option.join_some]
  · rw [if_neg hj, List.getElem?_set_ne (Ne.symm hj)]
    rcases Nat.lt_trichotomy j k.table.length with hlt | heq | hgt
    · rw [List.getElem?_append_left hlt]
    · rw [heq, List.getElem?_concat_length, List.getElem?_eq_none (Nat.le_refl _)]
      rfl
    · rw [List.getElem?_eq_none (by simp; omega), List.getElem?_eq_none hgt.le]

theorem descriptor_lowest (k : Kernel) : k.descriptor k.lowest = none := by
  rw [descriptor, lowest]
  by_cases h : k.table.findIdx Option.isNone < k.table.length
  · have hnone := List.findIdx_getElem (w := h)
    rw [List.getElem?_eq_getElem h, Option.isNone_iff_eq_none.mp hnone]
    rfl
  · rw [List.getElem?_eq_none (Nat.not_lt.mp h)]
    rfl

theorem lowest_le (k : Kernel) : k.lowest ≤ k.table.length := List.findIdx_le_length

/-- The kernel after the loop for a client: its descriptor stays open, or it is closed, and then used
twice more if the stream has ended. -/
def afterLoop (k : Kernel) (fd id : Nat) : Kernel :=
  match (k.conn id).ending with
  | .again => k.leave id []
  | .error => (k.leave id []).put fd none
  | .eof => { (k.leave id []).put fd none with misused := k.misused ++ [fd, fd] }

theorem leave_of_nil {id : Nat} (h : (k.conn id).unread = []) : k.leave id [] = k := by
  rw [leave, ← h, Function.update_eq_self]

@[simp] theorem leave_conn (k : Kernel) (id : Nat) (rest : List UInt8) :
    (k.leave id rest).conn id = { k.conn id with unread := rest } := Function.update_self ..

@[simp] theorem leave_ending (k : Kernel) (id j : Nat) (rest : List UInt8) :
    ((k.leave id rest).conn j).ending = (k.conn j).ending := by
  by_cases hj : j = id <;> simp [leave, hj]

theorem leave_unread (k : Kernel) (id j : Nat) :
    ((k.leave id []).conn j).unread = [] ∨ ((k.leave id []).conn j).unread = (k.conn j).unread := by
  by_cases hj : j = id <;> simp [leave, hj]

@[simp] theorem leave_leave (k : Kernel) (id : Nat) (rest rest' : List UInt8) :
    (k.leave id rest).leave id rest' = k.leave id rest' := by
  rw [leave, leave_conn]
  simp [leave]

theorem afterLoop_leave (k : Kernel) (fd id : Nat) (rest : List UInt8) :
    (k.leave id rest).afterLoop fd id = k.afterLoop fd id := by
  rw [afterLoop, afterLoop, leave_conn, leave_leave]
  rfl

theorem afterLoop_conn (k : Kernel) (fd id : Nat) :
    (k.afterLoop fd id).conn = (k.leave id []).conn := by
  rw [afterLoop]
  split <;> rfl

theorem afterLoop_pending (k : Kernel) (fd id : Nat) : (k.afterLoop fd id).pending = k.pending := by
  rw [afterLoop]
  split <;> rfl

theorem afterLoop_misused (k : Kernel) (fd id : Nat) : (k.afterLoop fd id).misused =
    k.misused ++ if (k.conn id).ending = .eof then [fd, fd] else [] := by
  rw [afterLoop]
  split <;> next hending => simp [hending, leave, put]

/-- The descriptor of the client is the only one that the loop may close. -/
theorem afterLoop_descriptor (hd : k.descriptor fd = some d) (id j : Nat) :
    (k.afterLoop fd id).descriptor j = k.descriptor j ∨
      j = fd ∧ (k.afterLoop fd id).descriptor j = none := by
  have hput : ((k.leave id []).put fd none).descriptor j = k.descriptor j ∨
      j = fd ∧ ((k.leave id []).put fd none).descriptor j = none := by
    rw [descriptor_put (k := k.leave id []) (lt_length hd).le none j]
    split_ifs with hj
    · exact Or.inr ⟨hj, rfl⟩
    · exact Or.inl rfl
  rw [afterLoop]
  split
  · exact Or.inl rfl
  · exact hput
  · exact hput

end Kernel

/-! ## One event -/

section Event

variable {k k' : Kernel} {fd id n fuel listenfd : Nat} {d : Descriptor} {events : List (Nat × Bool)}

theorem recv_data (hd : k.descriptor fd = some d) (hid : d.connection = some id)
    (h : (k.conn id).unread ≠ []) :
    (recv fd n).run k = .ok (.data, k.leave id ((k.conn id).unread.drop n)) := by
  simp only [recv, StateT.run_bind, StateT.run_get, except_pure, ok_bind, hd, hid]
  rw [if_pos h]
  rfl

/-- What `recv` answers at the end of what is there. -/
def Ending.ret : Ending → Recv
  | again => .again
  | eof => .eof
  | error => .error

theorem recv_ending (hd : k.descriptor fd = some d) (hid : d.connection = some id)
    (hnonblocking : d.nonblocking = true) (h : (k.conn id).unread = []) :
    (recv fd n).run k = .ok ((k.conn id).ending.ret, k) := by
  simp only [recv, StateT.run_bind, StateT.run_get, except_pure, ok_bind, hd, hid]
  rw [if_neg (not_not.mpr h)]
  cases (k.conn id).ending with
  | again => simp [hnonblocking, Ending.ret]
  | eof => rfl
  | error => rfl

theorem close_run (hd : k.descriptor fd = some d) : (close fd).run k = .ok ((), k.put fd none) := by
  simp [close, hd]

/-- The loop on a descriptor that is not open calls `recv` and `close`. -/
theorem recvLoop_closed (hd : k.descriptor fd = none) (fuel : Nat) :
    (recvLoop (fuel + 1) fd).run k = .ok ((), { k with misused := k.misused ++ [fd, fd] }) := by
  have hrecv : (recv fd (BUFFER_SIZE - 1)).run k = .ok (.error, k.misuse fd) := by
    simp only [recv, StateT.run_bind, StateT.run_get, except_pure, ok_bind, hd]
    rfl
  have hclose : (close fd).run (k.misuse fd) = .ok ((), (k.misuse fd).misuse fd) := by
    have hd' : (k.misuse fd).descriptor fd = none := hd
    simp [close, hd']
  rw [recvLoop, run_bind_of_ok hrecv, hclose]
  simp [Kernel.misuse]

/-- The loop reads a client until nothing is left. -/
theorem recvLoop_run (hd : k.descriptor fd = some d) (hid : d.connection = some id)
    (hnonblocking : d.nonblocking = true) (hfuel : (k.conn id).unread.length + 2 ≤ fuel) :
    (recvLoop fuel fd).run k = .ok ((), k.afterLoop fd id) := by
  induction fuel generalizing k with
  | zero => omega
  | succ fuel ih =>
      rw [recvLoop]
      by_cases hunread : (k.conn id).unread = []
      · rw [run_bind_of_ok (recv_ending hd hid hnonblocking hunread), Kernel.afterLoop,
          Kernel.leave_of_nil hunread]
        cases (k.conn id).ending with
        | again => rfl
        | error => exact close_run hd
        | eof =>
            -- there is no `break` behind this `close`
            have hclosed : (k.put fd none).descriptor fd = none := by
              rw [Kernel.descriptor_put (Kernel.lt_length hd).le, if_pos rfl]
            obtain ⟨fuel, rfl⟩ : ∃ m, fuel = m + 1 := ⟨fuel - 1, by omega⟩
            exact (run_bind_of_ok (close_run hd) _).trans (recvLoop_closed hclosed fuel)
      · rw [run_bind_of_ok (recv_data hd hid hunread)]
        have hpos := List.length_pos_iff.mpr hunread
        have hless : ((k.conn id).unread.drop (BUFFER_SIZE - 1)).length + 2 ≤ fuel := by
          rw [List.length_drop, BUFFER_SIZE]
          omega
        have hrest := ih (k := k.leave id ((k.conn id).unread.drop (BUFFER_SIZE - 1))) hd
          (by rwa [Kernel.leave_conn])
        rw [Kernel.afterLoop_leave] at hrest
        exact hrest

theorem ctlAdd_run (hd : k.descriptor fd = some d) (enable_et : Bool) :
    (ctlAdd fd enable_et).run k =
      .ok ((), k.put fd (some { d with registered := d.registered <|> some enable_et })) := by
  simp [ctlAdd, hd]

theorem setnonblocking_run (hd : k.descriptor fd = some d) :
    (setnonblocking fd).run k = .ok ((), k.put fd (some { d with nonblocking := true })) := by
  simp [setnonblocking, hd]

theorem addfd_run (hd : k.descriptor fd = some d) (enable_et : Bool) :
    ∃ k', (addfd (some fd) enable_et).run k = .ok ((), k') ∧
      (∀ j, k'.descriptor j = if j = fd then
        some ⟨d.connection, true, d.registered <|> some enable_et⟩ else k.descriptor j) ∧
      k'.conn = k.conn ∧ k'.pending = k.pending ∧ k'.misused = k.misused := by
  have hput := Kernel.descriptor_put (Kernel.lt_length hd).le
    (some { d with registered := d.registered <|> some enable_et })
  have hd' := hput fd
  rw [if_pos rfl] at hd'
  refine ⟨_, (run_bind_of_ok (ctlAdd_run hd enable_et) _).trans (setnonblocking_run hd'), ?_, rfl,
    rfl, rfl⟩
  intro j
  rw [Kernel.descriptor_put (Kernel.lt_length hd').le, hput]
  split_ifs <;> rfl

/-- An event of the listening socket: one connection is accepted, if one is waiting. -/
theorem accept_addfd_run (hd : k.descriptor listenfd = some d) (hnonblocking : d.nonblocking = true) :
    ∃ k', (do let connfd ← accept listenfd; addfd connfd true : Exec Kernel Unit).run k =
        .ok ((), k') ∧
      (∀ j d, k.descriptor j = some d → k'.descriptor j = some d) ∧
      (∀ j d, k'.descriptor j = some d → k.descriptor j = some d ∨
        d.nonblocking = true ∧ ∃ id, d.connection = some id) ∧
      k'.conn = k.conn ∧ k'.pending = k.pending.tail ∧ k'.misused = k.misused := by
  cases hpending : k.pending with
  | nil =>
      have haccept : (accept listenfd).run k = .ok (none, k) := by
        simp [accept, hpending, hd, hnonblocking]
      exact ⟨k, run_bind_of_ok haccept _, fun _ _ h => h, fun _ _ h => Or.inl h, rfl, hpending, rfl⟩
  | cons id rest =>
      have haccept : (accept listenfd).run k = .ok (some k.lowest,
          { k.put k.lowest (some ⟨some id, false, none⟩) with pending := rest }) := by
        simp [accept, hpending]
      have hput : ∀ j, Kernel.descriptor
          { k.put k.lowest (some ⟨some id, false, none⟩) with pending := rest } j =
            if j = k.lowest then some ⟨some id, false, none⟩ else k.descriptor j :=
        fun j => Kernel.descriptor_put k.lowest_le _ j
      have hlowest := hput k.lowest
      rw [if_pos rfl] at hlowest
      obtain ⟨k', hrun, htable, hconn, hrest, hmisused⟩ := addfd_run hlowest true
      refine ⟨k', (run_bind_of_ok haccept _).trans hrun, ?_, ?_, hconn, hrest, hmisused⟩
      · -- the new descriptor was not open
        intro j d hj
        have hne : j ≠ k.lowest := by
          rintro rfl
          rw [k.descriptor_lowest] at hj
          cases hj
        rw [htable, if_neg hne, hput, if_neg hne, hj]
      · intro j d hj
        rw [htable] at hj
        split_ifs at hj with hlow
        · cases hj
          exact Or.inr ⟨rfl, id, rfl⟩
        · rw [hput, if_neg hlow] at hj
          exact Or.inl hj

/-- What is called on a descriptor after the event has closed it. -/
def stale (k : Kernel) (listenfd : Nat) (event : Nat × Bool) : List Nat :=
  if event.1 ≠ listenfd ∧ event.2 = true ∧ k.atEof event.1 = true then [event.1, event.1] else []

/-- What becomes of an event: no other descriptor is closed, no stream changes its ending, and what
was unread is unread or has been read. -/
structure Handled (k k' : Kernel) (listenfd : Nat) (event : Nat × Bool) : Prop where
  served : k'.Served listenfd
  others : ∀ fd d, fd ≠ event.1 → k.descriptor fd = some d → k'.descriptor fd = some d
  ending : ∀ id, (k'.conn id).ending = (k.conn id).ending
  unread : ∀ id, (k'.conn id).unread = [] ∨ (k'.conn id).unread = (k.conn id).unread
  read : ∀ id, event.1 ≠ listenfd → event.2 = true → k.connectionOf event.1 = some id →
    (k'.conn id).unread = []
  pending : k'.pending = if event.1 = listenfd then k.pending.tail else k.pending
  misused : k'.misused = k.misused ++ stale k listenfd event

theorem Kernel.Served.listen (h : k.Served listenfd) {epollin : Bool} :
    ∃ k', (etEvent fuel listenfd (listenfd, epollin)).run k = .ok ((), k') ∧
      Handled k k' listenfd (listenfd, epollin) := by
  obtain ⟨d, hd, hnonblocking, hregistered⟩ := h.listening
  obtain ⟨k', hrun, hkept, hnew, hconn, hpending, hmisused⟩ := accept_addfd_run hd hnonblocking
  refine ⟨k', by rwa [etEvent, if_pos rfl], ?_⟩
  constructor
  · refine ⟨⟨d, hkept _ _ hd, hnonblocking, hregistered⟩, fun fd d' hd' hreg hne => ?_⟩
    rcases hnew fd d' hd' with hold | hclient
    · exact h.client fd d' hold hreg hne
    · exact hclient
  · exact fun fd d' _ hd' => hkept fd d' hd'
  · exact fun id => by rw [hconn]
  · exact fun id => Or.inr (by rw [hconn])
  · exact fun id hne => absurd rfl hne
  · rw [hpending, if_pos rfl]
  · simp [hmisused, stale]

theorem connectionOf_eq (hd : k.descriptor fd = some d) : k.connectionOf fd = d.connection := by
  rw [Kernel.connectionOf, hd, Option.bind_some]

theorem Kernel.Served.loop (h : k.Served listenfd) (hne : fd ≠ listenfd)
    (hd : k.descriptor fd = some d) (hnonblocking : d.nonblocking = true)
    (hid : d.connection = some id) (hfuel : (k.conn id).unread.length + 2 ≤ fuel) :
    (etEvent fuel listenfd (fd, true)).run k = .ok ((), k.afterLoop fd id) ∧
      Handled k (k.afterLoop fd id) listenfd (fd, true) := by
  have hconnection : k.connectionOf fd = some id := (connectionOf_eq hd).trans hid
  have hconn := Kernel.afterLoop_conn k fd id
  have htable := Kernel.afterLoop_descriptor hd id
  refine ⟨?_, ?_⟩
  · rw [etEvent, if_neg hne, if_pos rfl]
    exact recvLoop_run hd hid hnonblocking hfuel
  constructor
  · refine ⟨?_, fun j d' hd' => ?_⟩
    · obtain ⟨d', hd', hlisten⟩ := h.listening
      refine ⟨d', ?_, hlisten⟩
      rcases htable listenfd with hsame | ⟨heq, -⟩
      · rw [hsame, hd']
      · exact absurd heq.symm hne
    · rcases htable j with hsame | ⟨-, hclosed⟩
      · rw [hsame] at hd'
        exact h.client j d' hd'
      · rw [hclosed] at hd'
        cases hd'
  · intro j d' hj hd'
    rcases htable j with hsame | ⟨heq, -⟩
    · rw [hsame, hd']
    · exact absurd heq hj
  · intro id'
    rw [hconn, Kernel.leave_ending]
  · intro id'
    rw [hconn]
    exact k.leave_unread id id'
  · intro id' _ _ hid'
    have hsame : id = id' := Option.some.inj (hconnection.symm.trans hid')
    rw [hconn, ← hsame, Kernel.leave_conn]
  · rw [Kernel.afterLoop_pending, if_neg hne]
  · rw [Kernel.afterLoop_misused, stale, Kernel.atEof, hconnection]
    simp [hne]

/-- Every event of a batch is dealt with. -/
theorem Kernel.Served.event (h : k.Served listenfd) {event : Nat × Bool}
    (hevent : ∃ d, k.descriptor event.1 = some d ∧ d.registered ≠ none)
    (hfuel : ∀ id, k.connectionOf event.1 = some id → (k.conn id).unread.length + 2 ≤ fuel) :
    ∃ k', (etEvent fuel listenfd event).run k = .ok ((), k') ∧ Handled k k' listenfd event := by
  obtain ⟨fd, epollin⟩ := event
  by_cases hne : fd = listenfd
  · subst hne
    exact h.listen
  obtain ⟨d, hd, hregistered⟩ := hevent
  obtain ⟨hnonblocking, id, hid⟩ := h.client fd d hd hregistered hne
  cases epollin with
  | true =>
      have hrun := h.loop hne hd hnonblocking hid (hfuel id ((connectionOf_eq hd).trans hid))
      exact ⟨_, hrun.1, hrun.2⟩
  | false =>
      refine ⟨k, by simp [etEvent, hne], h, fun _ _ _ hd' => hd', fun _ => rfl,
        fun _ => Or.inr rfl, ?_, by simp [hne], by simp [stale]⟩
      intro _ _ hepollin
      cases hepollin

/-! ## A batch -/

theorem Handled.connectionOf {event : Nat × Bool} (h : Handled k k' listenfd event)
    (hne : fd ≠ event.1) (hd : k.descriptor fd = some d) :
    k'.connectionOf fd = k.connectionOf fd := by
  rw [connectionOf_eq hd, connectionOf_eq (h.others fd d hne hd)]

theorem Handled.atEof {event : Nat × Bool} (h : Handled k k' listenfd event)
    (hne : fd ≠ event.1) (hd : k.descriptor fd = some d) : k'.atEof fd = k.atEof fd := by
  rw [Kernel.atEof, Kernel.atEof, h.connectionOf hne hd]
  simp only [h.ending]

/-- The rest of a batch after its first event. -/
theorem Handled.rest {event : Nat × Bool} (h : Handled k k' listenfd event)
    (hevents : k.Delivered (event :: events)) (hfuel : k.Enough fuel (event :: events)) :
    k'.Delivered events ∧ k'.Enough fuel events ∧
      ∀ e ∈ events, k'.connectionOf e.1 = k.connectionOf e.1 ∧
        stale k' listenfd e = stale k listenfd e := by
  have hnodup := List.nodup_cons.mp hevents.nodup
  have hopen : ∀ e ∈ events, e.1 ≠ event.1 ∧ ∃ d, k.descriptor e.1 = some d ∧ d.registered ≠ none :=
    fun e he => ⟨fun heq => hnodup.1 (heq ▸ List.mem_map_of_mem he),
      hevents.registered e (List.mem_cons_of_mem _ he)⟩
  have hsame : ∀ e ∈ events, k'.connectionOf e.1 = k.connectionOf e.1 := by
    intro e he
    obtain ⟨hne, d, hd, -⟩ := hopen e he
    exact h.connectionOf hne hd
  refine ⟨⟨hnodup.2, ?_⟩, ?_, ?_⟩
  · intro e he
    obtain ⟨hne, d, hd, hreg⟩ := hopen e he
    exact ⟨d, h.others e.1 d hne hd, hreg⟩
  · intro e he id hid
    rw [hsame e he] at hid
    have hmore := hfuel e (List.mem_cons_of_mem _ he) id hid
    rcases h.unread id with hnil | hold
    · rw [hnil, List.length_nil]
      omega
    · rwa [hold]
  · intro e he
    obtain ⟨hne, d, hd, -⟩ := hopen e he
    refine ⟨hsame e he, ?_⟩
    rw [stale, stale, h.atEof hne hd]

/-- A batch accepts one connection if it has an event of the listening socket, reads every client to
its end, and leaves the listening socket and the clients as `main` wants them. -/
theorem et_run (h : k.Served listenfd) (hevents : k.Delivered events)
    (hfuel : k.Enough fuel events) :
    ∃ k', (et fuel listenfd events).run k = .ok ((), k') ∧ k'.Served listenfd ∧
      (∀ id, (k'.conn id).unread = [] ∨ (k'.conn id).unread = (k.conn id).unread) ∧
      (∀ fd id, (fd, true) ∈ events → fd ≠ listenfd → k.connectionOf fd = some id →
        (k'.conn id).unread = []) ∧
      k'.pending = (if listenfd ∈ events.map Prod.fst then k.pending.tail else k.pending) ∧
      k'.misused = k.misused ++ events.flatMap (stale k listenfd) := by
  -- what has been read stays read, and later events find their descriptors as before
  induction events generalizing k with
  | nil => exact ⟨k, rfl, h, fun _ => Or.inr rfl, by simp, by simp, by simp⟩
  | cons event events ih =>
      obtain ⟨k₁, hrun, hfirst⟩ := h.event
        (hevents.registered event List.mem_cons_self) (hfuel event List.mem_cons_self)
      obtain ⟨hevents₁, hfuel₁, hsame⟩ := hfirst.rest hevents hfuel
      obtain ⟨k', hrun', hserved, hunread, hread, hpending, hmisused⟩ :=
        ih hfirst.served hevents₁ hfuel₁
      refine ⟨k', (run_bind_of_ok hrun _).trans hrun', hserved, ?_, ?_, ?_, ?_⟩
      · intro id
        rcases hunread id with hnil | hold
        · exact Or.inl hnil
        · rw [hold]
          exact hfirst.unread id
      · intro fd id hmem hne hid
        rcases List.mem_cons.mp hmem with rfl | hlater
        · rcases hunread id with hnil | hold
          · exact hnil
          · rw [hold]
            exact hfirst.read id hne rfl hid
        · refine hread fd id hlater hne ?_
          rw [← hid]
          exact (hsame _ hlater).1
      · -- the listening socket has one event at most
        have hnotMem := (List.nodup_cons.mp hevents.nodup).1
        rw [hpending, hfirst.pending, List.map_cons]
        by_cases heq : event.1 = listenfd
        · rw [heq] at hnotMem
          simp [heq, hnotMem]
        · have heq' : listenfd ≠ event.1 := Ne.symm heq
          simp [heq, heq']
      · rw [hmisused, hfirst.misused, List.flatMap_cons, List.append_assoc]
        congr 2
        exact List.flatMap_congr fun e he => (hsame e he).2

theorem Reached.served (h : Reached listenfd k) : k.Served listenfd := by
  induction h with
  | @start k k' d hopen hnone hrun =>
      obtain ⟨t, hrun', htable, -⟩ := addfd_run hopen true
      cases hrun.symm.trans hrun'
      refine ⟨⟨_, (htable listenfd).trans (if_pos rfl), rfl, ?_⟩, fun fd d' hd' hreg hne => ?_⟩
      · rw [hnone listenfd d hopen]
        rfl
      · rw [htable, if_neg hne] at hd'
        exact absurd (hnone fd d' hd') hreg
  | arrive _ htable ih =>
      obtain ⟨hlistening, hclient⟩ := ih
      simp only [Kernel.descriptor, ← htable] at hlistening hclient
      exact ⟨hlistening, hclient⟩
  | et _ hevents hfuel hrun ih =>
      obtain ⟨t, hrun', hserved, -⟩ := et_run ih hevents hfuel
      cases hrun.symm.trans hrun'
      exact hserved

theorem flatMap_stale_eq_nil_iff : events.flatMap (stale k listenfd) = [] ↔
    ∀ fd, (fd, true) ∈ events → fd ≠ listenfd → k.atEof fd = false := by
  rw [List.flatMap_eq_nil_iff]
  constructor
  · intro h fd hmem hne
    by_contra heof
    have hstale := h _ hmem
    rw [stale, if_pos ⟨hne, rfl, by simpa using heof⟩] at hstale
    cases hstale
  · rintro h ⟨fd, epollin⟩ hmem
    refine if_neg ?_
    rintro ⟨hne, hepollin, heof⟩
    cases hepollin
    rw [h fd hmem hne] at heof
    cases heof

/-- Before any batch of `main`: `et` drains what its events report, and makes no call on a descriptor
that it has closed, exactly if at most one connection waits when the listening socket has an event,
and no client of the batch has ended its stream. -/
theorem drains_iff (h : Reached listenfd k) (hevents : k.Delivered events)
    (hfuel : k.Enough fuel events) :
    Drains fuel k listenfd events ↔
      (listenfd ∈ events.map Prod.fst → k.pending.length ≤ 1) ∧
        ∀ fd, (fd, true) ∈ events → fd ≠ listenfd → k.atEof fd = false := by
  obtain ⟨k', hrun, -, -, hread, hpending, hmisused⟩ := et_run h.served hevents hfuel
  have hqueue : (listenfd ∈ events.map Prod.fst → k'.pending = []) ↔
      (listenfd ∈ events.map Prod.fst → k.pending.length ≤ 1) := by
    apply imp_congr_right
    intro hmem
    rw [hpending, if_pos hmem, ← List.length_eq_zero_iff, List.length_tail]
    omega
  have hcalls : k'.misused = k.misused ↔
      ∀ fd, (fd, true) ∈ events → fd ≠ listenfd → k.atEof fd = false := by
    rw [hmisused, List.append_right_eq_self, flatMap_stale_eq_nil_iff]
  rw [← hqueue, ← hcalls]
  constructor
  · rintro ⟨t, hrun', hdrained, hsame⟩
    cases hrun.symm.trans hrun'
    exact ⟨hdrained.pending, hsame⟩
  · rintro ⟨hnone, hsame⟩
    exact ⟨k', hrun, ⟨hnone, fun fd id hmem hne hid _ => hread fd id hmem hne hid⟩, hsame⟩

/-- The listening socket, behind the standard streams, and the connections that wait for it. -/
def listening (pending : List Nat) : Kernel where
  table := List.replicate 3 (some ⟨none, false, none⟩) ++ [some ⟨none, true, some true⟩, none, none]
  conn := fun _ => ⟨[], .again⟩
  pending := pending
  misused := []

theorem reached_listening (pending : List Nat) : Reached 3 (listening pending) := by
  have hstart : Reached 3 (listening []) := by
    refine Reached.start (k := { listening [] with
      table := List.replicate 4 (some ⟨none, false, none⟩) }) (d := ⟨none, false, none⟩) rfl ?_ rfl
    intro fd d hd
    rw [Kernel.descriptor, List.getElem?_replicate] at hd
    split_ifs at hd
    · cases hd
      rfl
    · cases hd
  exact Reached.arrive hstart rfl

theorem delivered_listening (pending : List Nat) : (listening pending).Delivered [(3, true)] := by
  refine ⟨List.nodup_singleton 3, fun event hevent => ?_⟩
  rw [List.mem_singleton.mp hevent]
  exact ⟨⟨none, true, some true⟩, rfl, by simp⟩

theorem enough_listening (pending : List Nat) : (listening pending).Enough 2 [(3, true)] :=
  fun _ _ _ _ => Nat.le_refl 2

/-- The first connection has the descriptor 4, with more to read than a buffer holds, and a second one
waits. -/
def oneClient : Kernel where
  table := List.replicate 3 (some ⟨none, false, none⟩) ++
    [some ⟨none, true, some true⟩, some ⟨some 0, true, some true⟩] ++ List.replicate 4 none
  conn := fun _ => ⟨List.replicate 12 97, .again⟩
  pending := [1]
  misused := []

theorem reached_oneClient : Reached 3 oneClient :=
  Reached.arrive (Reached.et (reached_listening [0]) (delivered_listening [0])
    (enough_listening [0]) rfl) rfl

theorem drains_iff_one_client : Drains 14 oneClient 3 [(4, true), (3, true)] := by
  have hevents : oneClient.Delivered [(4, true), (3, true)] := by
    refine ⟨by decide, fun event hevent => ?_⟩
    rcases List.mem_pair.mp hevent with rfl | rfl
    · exact ⟨⟨some 0, true, some true⟩, rfl, by simp⟩
    · exact ⟨⟨none, true, some true⟩, rfl, by simp⟩
  have hfuel : oneClient.Enough 14 [(4, true), (3, true)] := fun _ _ _ _ => Nat.le_refl 14
  refine (drains_iff reached_oneClient hevents hfuel).mpr
    ⟨fun _ => Nat.le_refl 1, fun fd hfd hne => ?_⟩
  rcases List.mem_pair.mp hfd with heq | heq
  · cases heq
    rfl
  · cases heq
    exact absurd rfl hne

/-- Of two connections that wait the second one is left in the queue. -/
theorem second_connection_waits :
    Reached 3 (listening [0, 1]) ∧ (listening [0, 1]).Delivered [(3, true)] ∧
      (∃ k, (et 2 3 [(3, true)]).run (listening [0, 1]) = .ok ((), k) ∧ k.pending = [1]) ∧
      ¬ Drains 2 (listening [0, 1]) 3 [(3, true)] := by
  have hrun : ∃ k, (et 2 3 [(3, true)]).run (listening [0, 1]) = .ok ((), k) ∧ k.pending = [1] :=
    ⟨_, rfl, rfl⟩
  refine ⟨reached_listening _, delivered_listening _, hrun, ?_⟩
  rintro ⟨k', hrun', hdrained, -⟩
  obtain ⟨k, hrun, hpending⟩ := hrun
  cases hrun.symm.trans hrun'
  rw [hdrained.pending (by simp)] at hpending
  cases hpending

end Event

end CLanguageLearning.Epoll
