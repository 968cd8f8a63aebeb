import CLanguageLearning.Foundation.Transitions
import Mathlib.Data.List.Nodup
import Mathlib.Data.List.Range

/-!
# The echo server on a ring

`tcp_server_iouring.c`: one loop submits the prepared requests, takes at most ten completions and
answers each of them. A completed read is answered by a send of the bytes that were read. A
completed send is answered by another send, of the whole buffer, where a read belongs
(`echoes_iff`).

A request uses the row of its connection in `buffer_table`. The histories `received`, `handed` and
`sent` are those of the connection that a descriptor has now; they begin when it is accepted.
-/

set_option autoImplicit false

namespace CLanguageLearning.Uring

open CLanguageLearning.Foundation

/-- The entries of the submission queue. -/
def ENTRIES_LENGTH : Nat := 4096

def MAX_CONNECTIONS : Nat := 1024

def BUFFER_LENGTH : Nat := 1024

inductive EventType where
  | READ
  | WRITE
  | ACCEPT
  deriving DecidableEq, Repr

/-- A request with its `connection_information`. -/
structure Request where
  connectionfd : Nat
  type : EventType
  len : Nat
  deriving DecidableEq, Repr

/-- A completion with the `connection_information` of its request. -/
structure Completion where
  connectionfd : Nat
  type : EventType
  res : Int
  deriving DecidableEq, Repr

/-- Where `main` is in its loop. -/
inductive Loop where
  /-- Before `io_uring_submit`. -/
  | submitting
  /-- Before `io_uring_peek_batch_cqe`. -/
  | peeking
  /-- In the loop over the completions. -/
  | handling
  /-- There was no free submission entry. -/
  | faulted
  deriving DecidableEq, Repr

/-- The variables of `main`, the ring, the open descriptors and the histories: the bytes that have
arrived on a connection, the bytes that were handed over for sending, and the number of bytes whose
sending `main` has been told of. -/
structure EchoServer where
  loop : Loop
  listenfd : Nat
  sq : List Request
  inflight : List Request
  cq : List Completion
  cqe_count : Nat
  count : Nat
  buffer_table : Nat → List UInt8
  opened : Nat → Bool
  received : Nat → List UInt8
  handed : Nat → List UInt8
  sent : Nat → Nat

/-- What can happen next: a step of `main`, or the completion of the `i`-th request that has been
submitted. -/
inductive EchoEvent where
  | submit (ret : Nat)
  | peek
  | handle
  | advance
  /-- A connection is accepted, with a descriptor that fits into the table. -/
  | accepted (i fd : Nat)
  | received (i : Nat) (data : List UInt8)
  /-- A read ends with 0 or an error. -/
  | ended (i : Nat) (res : Int)
  /-- A send takes some of the bytes, or ends with an error. -/
  | written (i : Nat) (res : Int)
  deriving DecidableEq, Repr

namespace EchoServer

/-- `io_uring_get_sqe` and the preparation of the entry. -/
def prepare (s : EchoServer) (r : Request) : EchoServer :=
  if s.sq.length < ENTRIES_LENGTH then { s with sq := s.sq ++ [r] }
  else { s with loop := .faulted }

def set_read_event (s : EchoServer) (fd len : Nat) : EchoServer :=
  s.prepare ⟨fd, .READ, len⟩

def set_write_event (s : EchoServer) (fd len : Nat) : EchoServer :=
  { s with
    handed := Function.update s.handed fd (s.handed fd ++ (s.buffer_table fd).take len) }.prepare
      ⟨fd, .WRITE, len⟩

def set_accept_event (s : EchoServer) (fd : Nat) : EchoServer :=
  s.prepare ⟨fd, .ACCEPT, 0⟩

/-- The ring with the first accept. -/
def start (listenfd : Nat) : EchoServer :=
  set_accept_event
    { loop := .submitting
      listenfd
      sq := []
      inflight := []
      cq := []
      cqe_count := 0
      count := 0
      buffer_table _ := List.replicate BUFFER_LENGTH 0
      opened fd := decide (fd = listenfd)
      received _ := []
      handed _ := []
      sent _ := 0 } listenfd

def close (s : EchoServer) (fd : Nat) : EchoServer :=
  { s with opened := Function.update s.opened fd false }

/-- `sent` after a completion of a send. -/
def told (s : EchoServer) (c : Completion) : EchoServer :=
  { s with sent := Function.update s.sent c.connectionfd (s.sent c.connectionfd + c.res.toNat) }

/-- `main` goes on to the next completion. -/
def next (s : EchoServer) : EchoServer := { s with count := s.count + 1 }

/-- The body of the loop over the completions. -/
def answer (s : EchoServer) (c : Completion) : EchoServer :=
  match c.type with
  | .ACCEPT => (s.set_read_event c.res.toNat 1024).set_accept_event s.listenfd
  | .READ =>
      if c.res = 0 then s.close c.connectionfd
      else if c.res < 0 then s.close c.connectionfd
      else s.set_write_event c.connectionfd c.res.toNat
  -- whatever was sent, the whole buffer is sent again
  | .WRITE => (s.told c).set_write_event c.connectionfd 1024

/-- The kernel completes the `i`-th submitted request, which is `r`. -/
def complete (s : EchoServer) (i : Nat) (r : Request) (res : Int) : EchoServer :=
  { s with
    inflight := s.inflight.eraseIdx i
    cq := s.cq ++ [⟨r.connectionfd, r.type, res⟩] }

def step (s : EchoServer) : EchoEvent → Option EchoServer
  | .submit ret =>
      match s.loop with
      | .submitting =>
          -- the call may take fewer requests than are prepared
          some { s with
            sq := s.sq.drop ret
            inflight := s.inflight ++ s.sq.take ret
            loop := .peeking }
      | _ => none
  | .peek =>
      match s.loop with
      -- `io_uring_peek_batch_cqe` fills an array of ten
      | .peeking => some { s with cqe_count := min s.cq.length 10, count := 0, loop := .handling }
      | _ => none
  | .handle =>
      match s.loop with
      | .handling =>
          if s.count < s.cqe_count then
            (s.cq[s.count]?).map fun c => s.next.answer c
          else none
      | _ => none
  | .advance =>
      match s.loop with
      | .handling =>
          if s.count < s.cqe_count then none
          -- `io_uring_cq_advance`
          else some { s with cq := s.cq.drop s.count, count := 0, loop := .submitting }
      | _ => none
  | .accepted i fd =>
      match s.inflight[i]? with
      | some r =>
          if r.type = .ACCEPT ∧ s.opened fd = false ∧ fd < MAX_CONNECTIONS then
            -- the histories of an earlier connection with this number end here
            some { s.complete i r fd with
              opened := Function.update s.opened fd true
              received := Function.update s.received fd []
              handed := Function.update s.handed fd []
              sent := Function.update s.sent fd 0 }
          else none
      | none => none
  | .received i data =>
      match s.inflight[i]? with
      | some r =>
          if r.type = .READ ∧ data ≠ [] ∧ data.length ≤ r.len then
            -- the bytes are written over the start of the connection's row
            some { s.complete i r data.length with
              buffer_table := Function.update s.buffer_table r.connectionfd
                (data ++ (s.buffer_table r.connectionfd).drop data.length)
              received := Function.update s.received r.connectionfd
                (s.received r.connectionfd ++ data) }
          else none
      | none => none
  | .ended i res =>
      match s.inflight[i]? with
      | some r => if r.type = .READ ∧ res ≤ 0 then some (s.complete i r res) else none
      | none => none
  | .written i res =>
      match s.inflight[i]? with
      | some r => if r.type = .WRITE ∧ res ≤ r.len then some (s.complete i r res) else none
      | none => none

/-- The requests that are prepared or submitted. -/
def posted (s : EchoServer) : List Request := s.sq ++ s.inflight

/-- The completions that `main` has not come to. -/
def unhandled (s : EchoServer) : List Completion := s.cq.drop s.count

/-- A read of the connection is posted, or done and not handled. -/
def Reading (s : EchoServer) (fd : Nat) : Prop :=
  (∃ r ∈ s.posted, r.type = .READ ∧ r.connectionfd = fd) ∨
    ∃ c ∈ s.unhandled, c.type = .READ ∧ c.connectionfd = fd

/-- On every connection only bytes that have arrived are handed over for sending, in their order,
and when all of them have been sent the next read is posted. -/
def Echoes (s : EchoServer) : Prop :=
  ∀ fd, s.opened fd = true → s.handed fd <+: s.received fd ∧
    (s.received fd ≠ [] → s.sent fd = (s.received fd).length → s.Reading fd)

/-- `main` does not come to the completion of a send. -/
def NoSendHandled (s : EchoServer) : EchoEvent → Prop
  | .handle => ∀ c ∈ s.cq[s.count]?, c.type ≠ .WRITE
  | _ => True

end EchoServer

/-! ## One request for each connection -/

/-- The connection that a request works for. -/
def Request.owner (r : Request) : Option Nat :=
  match r.type with
  | .ACCEPT => none
  | _ => some r.connectionfd

/-- The connection that a completion is about. -/
def Completion.owner (c : Completion) : Option Nat :=
  match c.type with
  | .ACCEPT => some c.res.toNat
  | _ => some c.connectionfd

theorem Request.owner_of_ne {r : Request} (hr : r.type ≠ .ACCEPT) :
    r.owner = some r.connectionfd := by
  unfold Request.owner
  split
  · exact absurd ‹_› hr
  · rfl

theorem Completion.owner_of_ne {c : Completion} (hc : c.type ≠ .ACCEPT) :
    c.owner = some c.connectionfd := by
  unfold Completion.owner
  split
  · exact absurd ‹_› hc
  · rfl

theorem Completion.owner_of_accept {c : Completion} (hc : c.type = .ACCEPT) :
    c.owner = some c.res.toNat := by
  rw [Completion.owner, hc]

/-- Requests are for connections, or accepts. -/
theorem Request.length_eq (l : List Request) :
    l.length = (l.filterMap Request.owner).length + l.countP (·.type = .ACCEPT) := by
  rw [List.length_filterMap_eq_countP, Nat.add_comm, List.length_eq_countP_add_countP
    (fun r : Request => decide (r.type = .ACCEPT))]
  congr 1
  refine List.countP_congr fun r _ => ?_
  unfold Request.owner
  cases hr : r.type <;> simp

namespace EchoServer

/-- The connections that have a request. -/
def busy (s : EchoServer) : List Nat :=
  s.posted.filterMap Request.owner ++ s.unhandled.filterMap Completion.owner

/-- What has happened on the connection of a request. -/
def RequestDue (s : EchoServer) (r : Request) : Prop :=
  match r.type with
  | .ACCEPT => True
  | .READ => r.len ≤ BUFFER_LENGTH ∧ s.received r.connectionfd = [] ∧ s.handed r.connectionfd = []
  | .WRITE => s.handed r.connectionfd = s.received r.connectionfd

/-- What has happened on the connection of a completion. -/
def CompletionDue (s : EchoServer) (c : Completion) : Prop :=
  match c.type with
  | .ACCEPT => s.received c.res.toNat = [] ∧ s.handed c.res.toNat = []
  | .READ => s.received c.connectionfd = (s.buffer_table c.connectionfd).take c.res.toNat ∧
      s.handed c.connectionfd = []
  | .WRITE => s.handed c.connectionfd = s.received c.connectionfd

/-- Accepts that are posted, or done and not handled. -/
def accepts (s : EchoServer) : Nat :=
  s.posted.countP (·.type = .ACCEPT) + s.unhandled.countP (·.type = .ACCEPT)

/-- A server that has handled no completion of a send: every connection has at most one request. -/
structure Serving (s : EchoServer) : Prop where
  nodup : s.busy.Nodup
  opened : ∀ fd ∈ s.busy, s.opened fd = true
  lt : ∀ fd ∈ s.busy, fd < MAX_CONNECTIONS
  accepts_le : s.accepts ≤ 1
  requests : ∀ r ∈ s.posted, s.RequestDue r
  completions : ∀ c ∈ s.unhandled, s.CompletionDue c
  handed : ∀ fd, s.handed fd <+: s.received fd
  sent : ∀ fd, s.sent fd = 0
  buffer : ∀ fd, (s.buffer_table fd).length = BUFFER_LENGTH
  count : s.loop ≠ .handling → s.count = 0
  count_le : s.count ≤ s.cq.length

theorem Serving.echoes {s : EchoServer} (h : s.Serving) : s.Echoes := by
  refine fun fd _ => ⟨h.handed fd, fun hne hall => ?_⟩
  rw [h.sent, eq_comm, List.length_eq_zero_iff] at hall
  exact absurd hall hne

section Runs

variable {s t : EchoServer} {r : Request} {c : Completion} {i fd : Nat}

/-- The submission queue has room for two more requests. -/
theorem Serving.room (h : s.Serving) : s.sq.length + 2 ≤ ENTRIES_LENGTH := by
  have hbusy : s.busy.length ≤ MAX_CONNECTIONS := by
    have hsub : s.busy ⊆ List.range MAX_CONNECTIONS := fun fd hfd => List.mem_range.mpr (h.lt fd hfd)
    have hle := (h.nodup.subperm hsub).length_le
    rwa [List.length_range] at hle
  have hposted := Request.length_eq s.posted
  have haccepts := h.accepts_le
  rw [busy, List.length_append] at hbusy
  rw [accepts] at haccepts
  have hsq : s.sq.length ≤ s.posted.length := by
    rw [posted, List.length_append]
    exact Nat.le_add_right ..
  have : MAX_CONNECTIONS + 3 ≤ ENTRIES_LENGTH := by decide
  omega

/-- A request of another connection is due as before. -/
theorem RequestDue.frame (h : s.RequestDue r) (hr : r.owner ≠ some fd)
    (hrec : ∀ x, x ≠ fd → t.received x = s.received x)
    (hhand : ∀ x, x ≠ fd → t.handed x = s.handed x) : t.RequestDue r := by
  unfold RequestDue at h ⊢
  unfold Request.owner at hr
  cases htype : r.type with
  | ACCEPT => trivial
  | READ | WRITE =>
      simp only [htype, ne_eq, Option.some.injEq] at h hr ⊢
      rwa [hrec _ hr, hhand _ hr]

theorem CompletionDue.frame (h : s.CompletionDue c) (hc : c.owner ≠ some fd)
    (hrec : ∀ x, x ≠ fd → t.received x = s.received x)
    (hhand : ∀ x, x ≠ fd → t.handed x = s.handed x)
    (hbuf : ∀ x, x ≠ fd → t.buffer_table x = s.buffer_table x) : t.CompletionDue c := by
  unfold CompletionDue at h ⊢
  unfold Completion.owner at hc
  cases htype : c.type with
  | ACCEPT | WRITE =>
      simp only [htype, ne_eq, Option.some.injEq] at h hc ⊢
      rwa [hrec _ hc, hhand _ hc]
  | READ =>
      simp only [htype, ne_eq, Option.some.injEq] at h hc ⊢
      rwa [hrec _ hc, hhand _ hc, hbuf _ hc]

/-- The requests and completions of the other connections are due as before. -/
theorem Serving.frame (h : s.Serving) (posted : List Request) (unhandled : List Completion)
    (hposted : posted ⊆ s.posted) (hunhandled : unhandled ⊆ s.unhandled)
    (hfd : fd ∉ posted.filterMap Request.owner ++ unhandled.filterMap Completion.owner)
    (hrec : ∀ x, x ≠ fd → t.received x = s.received x)
    (hhand : ∀ x, x ≠ fd → t.handed x = s.handed x)
    (hbuf : ∀ x, x ≠ fd → t.buffer_table x = s.buffer_table x) :
    (∀ r ∈ posted, t.RequestDue r) ∧ ∀ c ∈ unhandled, t.CompletionDue c := by
  rw [List.mem_append, not_or, List.mem_filterMap, List.mem_filterMap] at hfd
  constructor
  · intro r hr
    exact (h.requests r (hposted hr)).frame (fun ho => hfd.1 ⟨r, hr, ho⟩) hrec hhand
  · intro c hc
    exact (h.completions c (hunhandled hc)).frame (fun ho => hfd.2 ⟨c, hc, ho⟩) hrec hhand hbuf

/-! ### Completed requests -/

theorem complete_posted (hi : s.inflight[i]? = some r) (res : Int) :
    s.posted.Perm (r :: (s.complete i r res).posted) := by
  obtain ⟨hlt, rfl⟩ := List.getElem?_eq_some_iff.mp hi
  have hperm := (List.getElem_cons_eraseIdx_perm hlt).symm
  exact (hperm.append_left s.sq).trans List.perm_middle

theorem complete_unhandled (hle : s.count ≤ s.cq.length) (i : Nat) (r : Request) (res : Int) :
    (s.complete i r res).unhandled = s.unhandled ++ [⟨r.connectionfd, r.type, res⟩] :=
  List.drop_append_of_le_length hle

/-- The connections with a request, when one of the requests is completed. -/
theorem complete_busy (hle : s.count ≤ s.cq.length) (hi : s.inflight[i]? = some r) (res : Int)
    (hr : r.type ≠ .ACCEPT) :
    s.busy.Perm (r.connectionfd ::
      ((s.complete i r res).posted.filterMap Request.owner ++
        s.unhandled.filterMap Completion.owner)) ∧
    (s.complete i r res).busy.Perm (r.connectionfd ::
      ((s.complete i r res).posted.filterMap Request.owner ++
        s.unhandled.filterMap Completion.owner)) := by
  have howner : Completion.owner ⟨r.connectionfd, r.type, res⟩ = some r.connectionfd :=
    Completion.owner_of_ne hr
  constructor
  · have hperm := (complete_posted hi res).filterMap Request.owner
    rw [List.filterMap_cons_some (Request.owner_of_ne hr)] at hperm
    exact hperm.append_right _
  · rw [busy, complete_unhandled hle, List.filterMap_append, List.filterMap_cons_some howner,
      List.filterMap_nil, ← List.append_assoc]
    exact List.perm_append_singleton ..

theorem complete_accepts (hle : s.count ≤ s.cq.length) (hi : s.inflight[i]? = some r)
    (res : Int) : (s.complete i r res).accepts = s.accepts := by
  rw [accepts, accepts, complete_unhandled hle, (complete_posted hi res).countP_eq,
    List.countP_append, List.countP_cons, List.countP_cons, List.countP_nil]
  dsimp only
  omega

/-- The kernel completes a read or a send. -/
theorem Serving.complete (h : s.Serving) (hi : s.inflight[i]? = some r) (hr : r.type ≠ .ACCEPT)
    {res : Int} {buffer_table received : Nat → List UInt8}
    (hrec : ∀ x, x ≠ r.connectionfd → received x = s.received x)
    (hbuf : ∀ x, x ≠ r.connectionfd → buffer_table x = s.buffer_table x)
    (hhanded : s.handed r.connectionfd <+: received r.connectionfd)
    (hlength : (buffer_table r.connectionfd).length = BUFFER_LENGTH)
    (hdue : CompletionDue { s.complete i r res with buffer_table, received }
      ⟨r.connectionfd, r.type, res⟩) :
    Serving { s.complete i r res with buffer_table, received } := by
  obtain ⟨hold, hnew⟩ := complete_busy h.count_le hi res hr
  -- the connection is busy before with the request and after with its completion
  have hsame := hnew.trans hold.symm
  have hfd := (List.nodup_cons.mp (hold.nodup_iff.mp h.nodup)).1
  obtain ⟨hrequests, hcompletions⟩ := h.frame (t := { s.complete i r res with
    buffer_table, received }) (s.complete i r res).posted s.unhandled
    (fun x hx => (complete_posted hi res).mem_iff.mpr (List.mem_cons_of_mem r hx))
    (List.Subset.refl _) hfd hrec (fun _ _ => rfl) hbuf
  constructor
  case nodup => exact hsame.nodup_iff.mpr h.nodup
  case opened => exact fun fd hfd => h.opened fd (hsame.mem_iff.mp hfd)
  case lt => exact fun fd hfd => h.lt fd (hsame.mem_iff.mp hfd)
  case accepts_le => exact (complete_accepts h.count_le hi res).trans_le h.accepts_le
  case requests => exact hrequests
  case completions =>
    intro c hc
    change c ∈ (s.complete i r res).unhandled at hc
    rw [complete_unhandled h.count_le, List.mem_append, List.mem_singleton] at hc
    rcases hc with hc | rfl
    · exact hcompletions c hc
    · exact hdue
  case handed =>
    intro x
    rcases eq_or_ne x r.connectionfd with rfl | hx
    · exact hhanded
    · change s.handed x <+: received x
      rw [hrec x hx]
      exact h.handed x
  case sent => exact h.sent
  case buffer =>
    intro x
    rcases eq_or_ne x r.connectionfd with rfl | hx
    · exact hlength
    · exact (congrArg List.length (hbuf x hx)).trans (h.buffer x)
  case count => exact h.count
  case count_le =>
    change s.count ≤ (s.cq ++ [_]).length
    rw [List.length_append]
    exact Nat.le_add_right_of_le h.count_le

/-- The kernel completes the accept. -/
theorem Serving.accepted (h : s.Serving) (hi : s.inflight[i]? = some r) (hr : r.type = .ACCEPT)
    (hfd : s.opened fd = false) (hlt : fd < MAX_CONNECTIONS) :
    Serving { s.complete i r fd with
      opened := Function.update s.opened fd true
      received := Function.update s.received fd []
      handed := Function.update s.handed fd []
      sent := Function.update s.sent fd 0 } := by
  -- a number that is not open has no request
  have hnot : fd ∉ s.busy := fun hmem => by
    rw [h.opened fd hmem] at hfd
    cases hfd
  have howner : Completion.owner ⟨r.connectionfd, r.type, fd⟩ = some fd :=
    Completion.owner_of_accept hr
  have hposted := (complete_posted hi fd).filterMap Request.owner
  rw [List.filterMap_cons_none (by rw [Request.owner, hr])] at hposted
  have hbusy : (s.complete i r fd).busy.Perm (fd :: s.busy) := by
    rw [busy, complete_unhandled h.count_le, List.filterMap_append, List.filterMap_cons_some howner,
      List.filterMap_nil, ← List.append_assoc]
    exact (List.perm_append_singleton ..).trans ((hposted.symm.append_right _).cons fd)
  have hrec : ∀ x, x ≠ fd → Function.update s.received fd [] x = s.received x :=
    fun x hx => Function.update_of_ne hx ..
  have hhand : ∀ x, x ≠ fd → Function.update s.handed fd [] x = s.handed x :=
    fun x hx => Function.update_of_ne hx ..
  obtain ⟨hrequests, hcompletions⟩ := h.frame (t := { s.complete i r fd with
      opened := Function.update s.opened fd true
      received := Function.update s.received fd []
      handed := Function.update s.handed fd []
      sent := Function.update s.sent fd 0 }) (s.complete i r fd).posted s.unhandled
    (fun x hx => (complete_posted hi fd).mem_iff.mpr (List.mem_cons_of_mem r hx))
    (List.Subset.refl _) (fun hmem => hnot ((hposted.append_right _).mem_iff.mpr hmem)) hrec hhand
    (fun _ _ => rfl)
  constructor
  case nodup => exact hbusy.nodup_iff.mpr (List.nodup_cons.mpr ⟨hnot, h.nodup⟩)
  case opened =>
    intro x hx
    change Function.update s.opened fd true x = true
    rcases List.mem_cons.mp (hbusy.mem_iff.mp hx) with rfl | hx
    · exact Function.update_self ..
    · rw [Function.update_of_ne fun hxf : x = fd => hnot (hxf ▸ hx)]
      exact h.opened x hx
  case lt =>
    intro x hx
    rcases List.mem_cons.mp (hbusy.mem_iff.mp hx) with rfl | hx
    · exact hlt
    · exact h.lt x hx
  case accepts_le => exact (complete_accepts h.count_le hi fd).trans_le h.accepts_le
  case requests => exact hrequests
  case completions =>
    intro c hc
    change c ∈ (s.complete i r fd).unhandled at hc
    rw [complete_unhandled h.count_le, List.mem_append, List.mem_singleton] at hc
    rcases hc with hc | rfl
    · exact hcompletions c hc
    · simp [CompletionDue, hr]
  case handed =>
    intro x
    change Function.update s.handed fd [] x <+: Function.update s.received fd [] x
    rcases eq_or_ne x fd with rfl | hx
    · simp
    · rw [hrec x hx, hhand x hx]
      exact h.handed x
  case sent =>
    intro x
    change Function.update s.sent fd 0 x = 0
    rcases eq_or_ne x fd with rfl | hx
    · exact Function.update_self ..
    · rw [Function.update_of_ne hx]
      exact h.sent x
  case buffer => exact h.buffer
  case count => exact h.count
  case count_le =>
    change s.count ≤ (s.cq ++ [_]).length
    rw [List.length_append]
    exact Nat.le_add_right_of_le h.count_le

/-! ### Answers -/

/-- The completion that `main` comes to is the first that it has not come to. -/
theorem unhandled_next (hc : s.cq[s.count]? = some c) : s.unhandled = c :: s.next.unhandled := by
  obtain ⟨hlt, rfl⟩ := List.getElem?_eq_some_iff.mp hc
  exact List.drop_eq_getElem_cons hlt

/-- The connections with a request, when a completion is taken. -/
theorem busy_next (hc : s.cq[s.count]? = some c) (hfd : c.owner = some fd) :
    s.busy.Perm (fd :: s.next.busy) := by
  rw [busy, unhandled_next hc, List.filterMap_cons_some hfd]
  exact List.perm_middle

theorem accepts_next (hc : s.cq[s.count]? = some c) :
    s.accepts = s.next.accepts + if c.type = .ACCEPT then 1 else 0 := by
  rw [accepts, unhandled_next hc, List.countP_cons]
  simp [accepts, posted, next, Nat.add_assoc]

theorem set_write_event_of_room (hroom : s.sq.length < ENTRIES_LENGTH) (fd len : Nat) :
    s.set_write_event fd len =
      { s with
        handed := Function.update s.handed fd (s.handed fd ++ (s.buffer_table fd).take len)
        sq := s.sq ++ [⟨fd, .WRITE, len⟩] } :=
  if_pos hroom

theorem set_read_event_of_room (hroom : s.sq.length < ENTRIES_LENGTH) (fd len : Nat) :
    s.set_read_event fd len = { s with sq := s.sq ++ [⟨fd, .READ, len⟩] } :=
  if_pos hroom

theorem set_accept_event_of_room (hroom : s.sq.length < ENTRIES_LENGTH) (fd : Nat) :
    s.set_accept_event fd = { s with sq := s.sq ++ [⟨fd, .ACCEPT, 0⟩] } :=
  if_pos hroom

/-- The connection is closed. -/
theorem Serving.close (h : s.Serving) (hloop : s.loop = .handling) (hc : s.cq[s.count]? = some c)
    (hread : c.type = .READ) : (s.next.close c.connectionfd).Serving := by
  have hbusy := busy_next hc (Completion.owner_of_ne (by rw [hread]; decide))
  obtain ⟨hnot, hnodup⟩ := List.nodup_cons.mp (hbusy.nodup_iff.mp h.nodup)
  have hin : ∀ x ∈ s.next.busy, x ∈ s.busy :=
    fun x hx => hbusy.mem_iff.mpr (List.mem_cons_of_mem _ hx)
  constructor
  case nodup => exact hnodup
  case opened =>
    intro x hx
    change Function.update s.opened c.connectionfd false x = true
    rw [Function.update_of_ne fun hxc : x = c.connectionfd => hnot (hxc ▸ hx)]
    exact h.opened x (hin x hx)
  case lt => exact fun x hx => h.lt x (hin x hx)
  case accepts_le => exact Nat.le_of_add_right_le ((accepts_next hc).symm.trans_le h.accepts_le)
  case requests => exact h.requests
  case completions =>
    intro d hd
    refine h.completions d ?_
    rw [unhandled_next hc]
    exact List.mem_cons_of_mem c hd
  case handed => exact h.handed
  case sent => exact h.sent
  case buffer => exact h.buffer
  case count => exact fun hne => absurd hloop hne
  case count_le => exact (List.getElem?_eq_some_iff.mp hc).1

/-- A completion is answered by requests of which one is for its connection. -/
theorem Serving.answered (h : s.Serving) (hloop : s.loop = .handling)
    (hc : s.cq[s.count]? = some c) (hfd : c.owner = some fd) {added : List Request}
    {handed : Nat → List UInt8} (howner : added.filterMap Request.owner = [fd])
    (haccepts : added.countP (·.type = .ACCEPT) = if c.type = .ACCEPT then 1 else 0)
    (hhand : ∀ x, x ≠ fd → handed x = s.handed x) (hhanded : handed fd <+: s.received fd)
    (hdue : ∀ r ∈ added, RequestDue { s.next with sq := s.sq ++ added, handed } r) :
    Serving { s.next with sq := s.sq ++ added, handed } := by
  have hold := busy_next hc hfd
  obtain ⟨hnot, -⟩ := List.nodup_cons.mp (hold.nodup_iff.mp h.nodup)
  -- the completion that is taken makes room for the connection's next request
  have hposted : (s.sq ++ added ++ s.inflight).Perm (added ++ s.posted) := by
    rw [posted, ← List.append_assoc]
    exact List.perm_append_comm.append_right _
  have hsame : (busy { s.next with sq := s.sq ++ added, handed }).Perm s.busy := by
    have hperm := hposted.filterMap Request.owner
    rw [List.filterMap_append (l := added), howner] at hperm
    exact (hperm.append_right _).trans hold.symm
  obtain ⟨hrequests, hcompletions⟩ := h.frame
    (t := { s.next with sq := s.sq ++ added, handed }) s.posted s.next.unhandled
    (List.Subset.refl _)
    (by rw [unhandled_next hc]; exact List.subset_cons_self ..) hnot (fun _ _ => rfl) hhand
    (fun _ _ => rfl)
  constructor
  case nodup => exact hsame.nodup_iff.mpr h.nodup
  case opened => exact fun x hx => h.opened x (hsame.mem_iff.mp hx)
  case lt => exact fun x hx => h.lt x (hsame.mem_iff.mp hx)
  case accepts_le =>
    refine le_of_eq_of_le ?_ h.accepts_le
    change (s.sq ++ added ++ s.inflight).countP _ + s.next.unhandled.countP _ = _
    rw [accepts_next hc, hposted.countP_eq, List.countP_append, haccepts, accepts]
    change _ + s.posted.countP _ + _ = s.posted.countP _ + _ + _
    omega
  case requests =>
    intro r hr
    rcases List.mem_append.mp (hposted.mem_iff.mp hr) with hr | hr
    · exact hdue r hr
    · exact hrequests r hr
  case completions => exact hcompletions
  case handed =>
    intro x
    change handed x <+: s.received x
    rcases eq_or_ne x fd with rfl | hx
    · exact hhanded
    · rw [hhand x hx]
      exact h.handed x
  case sent => exact h.sent
  case buffer => exact h.buffer
  case count => exact fun hne => absurd hloop hne
  case count_le => exact (List.getElem?_eq_some_iff.mp hc).1

/-- The bytes that were read are handed over for sending. -/
theorem Serving.write (h : s.Serving) (hloop : s.loop = .handling) (hc : s.cq[s.count]? = some c)
    (hread : c.type = .READ) : (s.next.set_write_event c.connectionfd c.res.toNat).Serving := by
  have hdue := h.completions c (by rw [unhandled_next hc]; exact List.mem_cons_self)
  rw [CompletionDue, hread] at hdue
  -- all that came before was handed over, so what was read is the rest
  have hnew : s.handed c.connectionfd ++ (s.buffer_table c.connectionfd).take c.res.toNat =
      s.received c.connectionfd := by
    rw [hdue.2, hdue.1, List.nil_append]
  have hroom : s.sq.length < ENTRIES_LENGTH := Nat.lt_of_succ_lt h.room
  rw [set_write_event_of_room (s := s.next) hroom]
  refine h.answered hloop hc (Completion.owner_of_ne (by rw [hread]; decide)) rfl ?_ ?_ ?_ ?_
  · rw [hread]
    rfl
  · exact fun x hx => Function.update_of_ne hx ..
  · change Function.update s.handed _ (s.handed _ ++ (s.buffer_table _).take _) _ <+: _
    rw [Function.update_self, hnew]
  · intro r hr
    rw [List.mem_singleton.mp hr]
    change Function.update s.handed _ (s.handed _ ++ (s.buffer_table _).take _) _ = _
    rw [Function.update_self, hnew]
    rfl

/-- A connection is given a read, and the next accept is posted. -/
theorem Serving.admit (h : s.Serving) (hloop : s.loop = .handling) (hc : s.cq[s.count]? = some c)
    (haccept : c.type = .ACCEPT) :
    ((s.next.set_read_event c.res.toNat 1024).set_accept_event s.listenfd).Serving := by
  have hdue := h.completions c (by rw [unhandled_next hc]; exact List.mem_cons_self)
  rw [CompletionDue, haccept] at hdue
  have hroom : s.sq.length + 1 < ENTRIES_LENGTH := h.room
  rw [set_read_event_of_room (s := s.next) (Nat.lt_of_succ_lt hroom), set_accept_event_of_room]
  · change Serving { s.next with
      sq := s.sq ++ [⟨c.res.toNat, .READ, 1024⟩] ++ [⟨s.listenfd, .ACCEPT, 0⟩] }
    rw [List.append_assoc]
    refine h.answered hloop hc (Completion.owner_of_accept haccept) rfl ?_ (fun _ _ => rfl)
      (h.handed _) ?_
    · rw [haccept]
      rfl
    · intro r hr
      rcases List.mem_pair.mp hr with rfl | rfl
      · exact ⟨le_refl BUFFER_LENGTH, hdue⟩
      · trivial
  · change (s.sq ++ [_]).length < ENTRIES_LENGTH
    rw [List.length_append]
    exact hroom

/-- After the completion of a send more bytes have been handed over than have arrived. -/
theorem Serving.not_echoes_of_write (h : s.Serving) (hc : s.cq[s.count]? = some c)
    (hwrite : c.type = .WRITE) : ¬ (s.next.answer c).Echoes := by
  have hmem : c ∈ s.unhandled := by
    rw [unhandled_next hc]
    exact List.mem_cons_self
  have hdue := h.completions c hmem
  rw [CompletionDue, hwrite] at hdue
  have hopened : s.opened c.connectionfd = true := by
    refine h.opened _ (List.mem_append_right _ (List.mem_filterMap.mpr ⟨c, hmem, ?_⟩))
    exact Completion.owner_of_ne (by rw [hwrite]; decide)
  intro hechoes
  rw [answer, hwrite] at hechoes
  dsimp only at hechoes
  rw [set_write_event_of_room (s := s.next.told c) (Nat.lt_of_succ_lt h.room)] at hechoes
  have hprefix := (hechoes c.connectionfd hopened).1.length_le
  change (Function.update s.handed _ _ _).length ≤ (s.received _).length at hprefix
  rw [Function.update_self] at hprefix
  change (s.handed c.connectionfd ++ (s.buffer_table c.connectionfd).take 1024).length ≤ _
    at hprefix
  rw [List.length_append, List.length_take, h.buffer, hdue, BUFFER_LENGTH] at hprefix
  omega

/-! ### Runs -/

/-- A step that moves requests and completions, but not between the two kinds. -/
theorem Serving.same (h : s.Serving) {loop : Loop} {sq inflight : List Request}
    {cq : List Completion} {cqe_count count : Nat} (hposted : (sq ++ inflight).Perm s.posted)
    (hunhandled : cq.drop count = s.unhandled) (hcount : loop ≠ .handling → count = 0)
    (hle : count ≤ cq.length) :
    Serving { s with loop, sq, inflight, cq, cqe_count, count } := by
  have hbusy : (busy { s with loop, sq, inflight, cq, cqe_count, count }).Perm s.busy := by
    change ((sq ++ inflight).filterMap _ ++ (cq.drop count).filterMap _).Perm _
    rw [hunhandled]
    exact (hposted.filterMap _).append_right _
  constructor
  case nodup => exact hbusy.nodup_iff.mpr h.nodup
  case opened => exact fun x hx => h.opened x (hbusy.mem_iff.mp hx)
  case lt => exact fun x hx => h.lt x (hbusy.mem_iff.mp hx)
  case accepts_le =>
    change (sq ++ inflight).countP _ + (cq.drop count).countP _ ≤ 1
    rw [hunhandled, hposted.countP_eq]
    exact h.accepts_le
  case requests => exact fun r hr => h.requests r (hposted.mem_iff.mp hr)
  case completions =>
    intro c hc
    change c ∈ cq.drop count at hc
    rw [hunhandled] at hc
    exact h.completions c hc
  case handed => exact h.handed
  case sent => exact h.sent
  case buffer => exact h.buffer
  case count => exact hcount
  case count_le => exact hle

/-- The kernel puts the bytes that have arrived into the buffer. -/
theorem Serving.received (h : s.Serving) (hi : s.inflight[i]? = some r) (hr : r.type = .READ)
    {data : List UInt8} (hdata : data.length ≤ r.len) :
    Serving { s.complete i r data.length with
      buffer_table := Function.update s.buffer_table r.connectionfd
        (data ++ (s.buffer_table r.connectionfd).drop data.length)
      received := Function.update s.received r.connectionfd
        (s.received r.connectionfd ++ data) } := by
  have hmem : r ∈ s.posted := List.mem_append_right _ (List.mem_of_getElem? hi)
  have hdue := h.requests r hmem
  rw [RequestDue, hr] at hdue
  obtain ⟨hlen, hrec, hhand⟩ := hdue
  refine h.complete hi (by rw [hr]; decide) (fun x hx => Function.update_of_ne hx ..)
    (fun x hx => Function.update_of_ne hx ..) ?_ ?_ ?_
  · rw [hhand]
    exact List.nil_prefix
  · rw [Function.update_self, List.length_append, List.length_drop, h.buffer]
    omega
  · rw [hr]
    refine ⟨?_, hhand⟩
    dsimp only
    rw [Function.update_self, Function.update_self, hrec, Int.toNat_natCast, List.nil_append,
      List.take_left]

/-- The kernel ends a read without data, or a send. -/
theorem Serving.ended (h : s.Serving) (hi : s.inflight[i]? = some r) (hr : r.type ≠ .ACCEPT)
    {res : Int} (hres : r.type = .READ → res ≤ 0) : (s.complete i r res).Serving := by
  have hmem : r ∈ s.posted := List.mem_append_right _ (List.mem_of_getElem? hi)
  have hdue := h.requests r hmem
  refine h.complete hi hr (fun _ _ => rfl) (fun _ _ => rfl) (h.handed _) (h.buffer _) ?_
  cases htype : r.type with
  | ACCEPT => exact absurd htype hr
  | READ =>
      rw [RequestDue, htype] at hdue
      obtain ⟨-, hrec, hhand⟩ := hdue
      refine ⟨?_, hhand⟩
      dsimp only
      rw [hrec, Int.toNat_of_nonpos (hres htype), List.take_zero]
  | WRITE =>
      rw [RequestDue, htype] at hdue
      exact hdue

theorem Serving.answer (h : s.Serving) (hloop : s.loop = .handling) (hc : s.cq[s.count]? = some c)
    (hne : c.type ≠ .WRITE) : (s.next.answer c).Serving := by
  cases htype : c.type with
  | WRITE => exact absurd htype hne
  | ACCEPT =>
      rw [EchoServer.answer, htype]
      exact h.admit hloop hc htype
  | READ =>
      rw [EchoServer.answer, htype]
      dsimp only
      split
      · exact h.close hloop hc htype
      · split
        · exact h.close hloop hc htype
        · exact h.write hloop hc htype

/-- Without the completion of a send the server keeps serving. -/
theorem Serving.step {e : EchoEvent} (h : s.Serving) (hno : s.NoSendHandled e)
    (hstep : s.step e = some t) : t.Serving := by
  cases e with
  | submit ret =>
      simp only [EchoServer.step] at hstep
      split at hstep <;> cases hstep
      next hloop =>
        refine h.same ?_ rfl (fun _ => h.count (by rw [hloop]; decide)) h.count_le
        have hparts : (s.sq.drop ret ++ s.sq.take ret).Perm s.sq :=
          List.perm_append_comm.trans (List.Perm.of_eq (List.take_append_drop ret s.sq))
        exact (List.perm_append_comm_assoc ..).trans
          ((hparts.append_left s.inflight).trans List.perm_append_comm)
  | peek =>
      simp only [EchoServer.step] at hstep
      split at hstep <;> cases hstep
      next hloop =>
        refine h.same (List.Perm.refl _) ?_ (fun hne => absurd rfl hne) (Nat.zero_le _)
        rw [unhandled, h.count (by rw [hloop]; decide)]
  | handle =>
      simp only [EchoServer.step] at hstep
      split at hstep
      next hloop =>
        rcases Option.ite_none_right_eq_some.mp hstep with ⟨-, hmap⟩
        obtain ⟨c, hc, rfl⟩ := Option.map_eq_some_iff.mp hmap
        exact h.answer hloop hc (hno c hc)
      next => cases hstep
  | advance =>
      simp only [EchoServer.step] at hstep
      split at hstep
      next =>
        rcases Option.ite_none_left_eq_some.mp hstep with ⟨-, hsome⟩
        cases hsome
        exact h.same (List.Perm.refl _) rfl (fun _ => rfl) (Nat.zero_le _)
      next => cases hstep
  | accepted i fd =>
      simp only [EchoServer.step] at hstep
      split at hstep
      next r hi =>
        rcases Option.ite_none_right_eq_some.mp hstep with ⟨⟨hr, hfd, hlt⟩, hsome⟩
        cases hsome
        exact h.accepted hi hr hfd hlt
      next => cases hstep
  | received i data =>
      simp only [EchoServer.step] at hstep
      split at hstep
      next r hi =>
        rcases Option.ite_none_right_eq_some.mp hstep with ⟨⟨hr, -, hlen⟩, hsome⟩
        cases hsome
        exact h.received hi hr hlen
      next => cases hstep
  | ended i res =>
      simp only [EchoServer.step] at hstep
      split at hstep
      next r hi =>
        rcases Option.ite_none_right_eq_some.mp hstep with ⟨⟨hr, hres⟩, hsome⟩
        cases hsome
        exact h.ended hi (by rw [hr]; decide) fun _ => hres
      next => cases hstep
  | written i res =>
      simp only [EchoServer.step] at hstep
      split at hstep
      next r hi =>
        rcases Option.ite_none_right_eq_some.mp hstep with ⟨⟨hr, -⟩, hsome⟩
        cases hsome
        exact h.ended hi (by rw [hr]; decide) fun hread => by rw [hr] at hread; cases hread
      next => cases hstep

/-- The echo is right after a step exactly when the step handles no completion of a send. -/
theorem Serving.step_iff {e : EchoEvent} (h : s.Serving) (hstep : s.step e = some t) :
    t.Echoes ↔ s.NoSendHandled e := by
  refine ⟨fun hechoes => ?_, fun hno => (h.step hno hstep).echoes⟩
  cases e with
  | handle =>
      intro c hc hwrite
      simp only [EchoServer.step] at hstep
      split at hstep
      next =>
        rcases Option.ite_none_right_eq_some.mp hstep with ⟨-, hmap⟩
        rw [Option.mem_def.mp hc] at hmap
        cases hmap
        exact h.not_echoes_of_write hc hwrite hechoes
      next => cases hstep
  | _ => trivial

theorem serving_start (listenfd : Nat) : (start listenfd).Serving := by
  constructor
  case nodup => exact List.nodup_nil
  case opened => exact fun fd hfd => absurd hfd List.not_mem_nil
  case lt => exact fun fd hfd => absurd hfd List.not_mem_nil
  case accepts_le => exact le_refl 1
  case requests =>
    intro r hr
    rw [List.mem_singleton.mp hr]
    trivial
  case completions => exact fun c hc => absurd hc List.not_mem_nil
  case handed => exact fun _ => List.nil_prefix
  case sent => exact fun _ => rfl
  case buffer => exact fun _ => List.length_replicate
  case count => exact fun _ => rfl
  case count_le => exact Nat.zero_le _

/-- For any number of connections and every order of completions, with reads of every length and
sends that may be partial: what is handed over for sending is always a prefix of what has arrived,
and a read follows a chunk that was sent, exactly as long as no completion of a send is handled. -/
theorem echoes_iff {listenfd : Nat} {l : List EchoEvent}
    (hrun : runEvents step (start listenfd) l = some t) :
    (Along step (fun s _ => s.Echoes) (start listenfd) l ∧ t.Echoes) ↔
      Along step NoSendHandled (start listenfd) l :=
  always_iff_along_of
    (fun _ _ _ h _ hstep ht => h.step ((h.step_iff hstep).mp ht) hstep)
    (fun _ _ _ h _ hstep => h.step_iff hstep) (serving_start listenfd)
    (serving_start listenfd).echoes hrun

/-- A client sends two bytes, and the server hands them over. -/
theorem echoes_iff_two_bytes : ∃ t : EchoServer,
    runEvents step (start 3) [.submit 1, .accepted 0 5, .peek, .handle, .advance, .submit 2,
      .received 0 [104, 105], .peek, .handle, .advance] = some t ∧
      t.handed 5 = [104, 105] ∧ t.Echoes := by
  have hall : ∀ t : EchoServer,
      runEvents step (start 3) [.submit 1, .accepted 0 5, .peek, .handle, .advance, .submit 2,
        .received 0 [104, 105], .peek, .handle, .advance] = some t → t.Echoes := by
    intro t hrun
    refine ((echoes_iff hrun).mpr ⟨trivial, trivial, trivial, ?_, trivial, trivial, trivial, trivial,
      ?_, trivial, trivial⟩).2
    · rintro c ⟨⟩ ⟨⟩
    · rintro c ⟨⟩ ⟨⟩
  exact ⟨_, rfl, rfl, hall _ rfl⟩

/-- The two bytes have been sent: the server hands over the whole buffer, and posts no read. -/
theorem whole_buffer_sent : ∃ t : EchoServer,
    runEvents step (start 3) [.submit 1, .accepted 0 5, .peek, .handle, .advance, .submit 2,
      .received 0 [104, 105], .peek, .handle, .advance, .submit 1, .written 1 2, .peek, .handle] =
        some t ∧ t.received 5 = [104, 105] ∧ t.sent 5 = 2 ∧ ¬ t.Echoes := by
  have hserving : ∀ s : EchoServer,
      runEvents step (start 3) [.submit 1, .accepted 0 5, .peek, .handle, .advance, .submit 2,
        .received 0 [104, 105], .peek, .handle, .advance, .submit 1, .written 1 2, .peek] =
          some s → s.Serving := by
    intro s hs
    refine invariant_along (C := NoSendHandled)
      (fun _ _ _ h hno hstep => h.step hno hstep) (serving_start 3) ?_ hs
    refine ⟨trivial, trivial, trivial, ?_, trivial, trivial, trivial, trivial, ?_, trivial, trivial,
      trivial, trivial, trivial⟩
    · rintro c ⟨⟩ ⟨⟩
    · rintro c ⟨⟩ ⟨⟩
  exact ⟨_, rfl, rfl, rfl, (hserving _ rfl).not_echoes_of_write (c := ⟨5, .WRITE, 2⟩) rfl rfl⟩

end Runs

end EchoServer

end CLanguageLearning.Uring
