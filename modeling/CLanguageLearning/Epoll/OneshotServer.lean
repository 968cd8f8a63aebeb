import CLanguageLearning.Foundation.Transitions

/-!
# The server with EPOLLONESHOT

The main loop of `9-4oneshot.cpp` and its workers. An event of a client disarms its descriptor and is
handed to a new worker, which reads until there is nothing left and then calls `reset_oneshot`. That
function adds the descriptor to the epoll table once more, where it still is, so nothing is armed
again (`dead_socket`).

The loop fills `fds_for_new_worker` and then calls `pthread_create`; a worker that has not read the
record by the time it is filled again will serve the wrong socket. The record has the same place on
the stack of `main` in every turn of the loop.

A descriptor of a client is held by its entry in the epoll table while it is armed, by an event that
has been delivered, or by a worker. As long as nobody lets go of it there is exactly one holder
(`Exclusive`), and `live_iff` says when it is let go of.
-/

set_option autoImplicit false

namespace CLanguageLearning.Epoll

open CLanguageLearning.Foundation

def MAX_EVENT_NUMBER : Nat := 1024

/-- A worker with the socket it has read from its argument. -/
inductive Worker where
  | absent
  /-- Before it reads its argument. -/
  | starting
  | serving (sockfd : Nat)
  | done
  deriving DecidableEq, Repr

/-- What `recv` answers. -/
inductive Recv where
  | data
  | eof
  | again
  | error
  deriving DecidableEq, Repr

/-- The server. `opened`, `registered` and `armed` are about the clients' sockets, `batch` are the
delivered events that the loop is not done with, each with whether it has `EPOLLIN`. `sockfd` is the
member of `fds_for_new_worker`; the loop is `launching` when it has filled the record and has not
called `pthread_create` yet. -/
structure OneshotServer where
  listenfd : Nat
  opened : Nat → Bool
  registered : Nat → Bool
  armed : Nat → Bool
  batch : List (Nat × Bool)
  sockfd : Nat
  launching : Bool
  worker : Nat → Worker
  created : Nat

/-- What can happen next: `epoll_wait` delivers events; the loop comes to the next event, with the
answer of `accept` if it is one of the listening socket, and fills the record if it is one of a
client; it calls `pthread_create`, which may fail; a worker reads its argument; a worker calls
`recv`. -/
inductive OneshotEvent where
  | wait (events : List (Nat × Bool))
  | dispatch (connfd : Option Nat)
  | create (made : Bool)
  | start (k : Nat)
  | recv (k : Nat) (ret : Recv)
  deriving DecidableEq, Repr

namespace OneshotServer

/-- The server before its first client. -/
def start (listenfd : Nat) : OneshotServer where
  listenfd := listenfd
  opened := fun _ => false
  registered := fun _ => false
  armed := fun _ => false
  batch := []
  sockfd := 0
  launching := false
  worker := fun _ => .absent
  created := 0

/-- `epoll_ctl` with `EPOLL_CTL_ADD`, which fails for a descriptor that is not open or is registered
already. -/
def ctlAdd (s : OneshotServer) (fd : Nat) : OneshotServer :=
  if s.opened fd = false ∨ s.registered fd = true then s
  else { s with
    registered := Function.update s.registered fd true
    armed := Function.update s.armed fd true }

/-- `addfd` with `oneshot`. -/
def addfd (s : OneshotServer) (fd : Nat) : OneshotServer := s.ctlAdd fd

def reset_oneshot (s : OneshotServer) (fd : Nat) : OneshotServer := s.ctlAdd fd

/-- `close` of a client's socket, which takes it out of the epoll table. -/
def close (s : OneshotServer) (fd : Nat) : OneshotServer :=
  { s with
    opened := Function.update s.opened fd false
    registered := Function.update s.registered fd false
    armed := Function.update s.armed fd false }

/-- The worker `k` goes on. -/
def move (s : OneshotServer) (k : Nat) (w : Worker) : OneshotServer :=
  { s with worker := Function.update s.worker k w }

@[simp] theorem move_self (s : OneshotServer) (k : Nat) (w : Worker) :
    (s.move k w).worker k = w := Function.update_self ..

theorem move_of_ne (s : OneshotServer) {j k : Nat} (w : Worker) (hjk : j ≠ k) :
    (s.move k w).worker j = s.worker j := Function.update_of_ne hjk ..

/-- The events are delivered, each disarms its descriptor. -/
def delivered (s : OneshotServer) (events : List (Nat × Bool)) : OneshotServer :=
  { s with
    batch := events
    armed := fun fd => s.armed fd && decide (fd ∉ events.map Prod.fst) }

/-- A new client, in the turn for the first event. -/
def accepted (s : OneshotServer) (connfd : Nat) : OneshotServer :=
  addfd { s with opened := Function.update s.opened connfd true } connfd

/-- The record is filled for a new worker. -/
def filled (s : OneshotServer) (sockfd : Nat) : OneshotServer :=
  { s with sockfd := sockfd, launching := true }

/-- A new worker is given the address of the record, and the turn is over. -/
def spawned (s : OneshotServer) (rest : List (Nat × Bool)) : OneshotServer :=
  { s with
    batch := rest
    launching := false
    worker := Function.update s.worker s.created .starting
    created := s.created + 1 }

def step (s : OneshotServer) : OneshotEvent → Option OneshotServer
  | .wait events =>
      if s.batch = [] ∧ events.length ≤ MAX_EVENT_NUMBER ∧ (events.map Prod.fst).Nodup ∧
          ∀ p ∈ events, p.1 = s.listenfd ∨ s.registered p.1 = true ∧ s.armed p.1 = true then
        some (s.delivered events)
      else none
  | .dispatch connfd =>
      match s.launching, s.batch with
      | false, (sockfd, epollin) :: rest =>
          if sockfd = s.listenfd then
            match connfd with
            | none => some { s with batch := rest }
            | some c =>
                if c ≠ s.listenfd ∧ s.opened c = false then some ({ s with batch := rest }.accepted c)
                else none
          else if epollin then some (s.filled sockfd)
          else some { s with batch := rest }
      | _, _ => none
  | .create made =>
      match s.launching, s.batch with
      | true, _ :: rest =>
          if made then some (s.spawned rest)
          -- nobody looks at the result of `pthread_create`
          else some { s with batch := rest, launching := false }
      | _, _ => none
  | .start k =>
      if s.worker k = .starting then some (s.move k (.serving s.sockfd)) else none
  | .recv k ret =>
      match s.worker k with
      | .serving sockfd =>
          match ret with
          | .data => some s
          | .eof => some ((s.close sockfd).move k .done)
          | .again => some ((s.reset_oneshot sockfd).move k .done)
          | .error => some s
      | _ => none

/-- Who is to see that a socket is read again. -/
inductive Holder where
  | armed
  | event
  | worker (k : Nat)
  deriving DecidableEq

/-- The socket is armed, or an event of it awaits the end of its turn, or the worker serves it or is
about to read it from its argument. -/
def Holds (s : OneshotServer) : Holder → Nat → Prop
  | .armed, fd => s.armed fd = true
  | .event, fd => fd ≠ s.listenfd ∧ fd ∈ s.batch.map Prod.fst
  | .worker k, fd => s.worker k = .serving fd ∨ s.worker k = .starting ∧ s.sockfd = fd

/-- No data of an open socket can remain unread forever. -/
def Live (s : OneshotServer) : Prop :=
  ∀ fd, s.opened fd = true → s.registered fd = true → ∃ h, s.Holds h fd

/-- No `recv` finds nothing to read, every event of a client has `EPOLLIN`, every worker has read its
argument before the record is filled again, and `pthread_create` does not fail. -/
def Keeps (s : OneshotServer) : OneshotEvent → Prop
  | .dispatch _ =>
      match s.batch with
      | [] => True
      | (sockfd, epollin) :: _ =>
          sockfd = s.listenfd ∨ epollin = true ∧ ∀ k, k < s.created → s.worker k ≠ .starting
  | .create made => made = true
  | .recv _ ret => ret ≠ .again
  | _ => True

instance (s : OneshotServer) (e : OneshotEvent) : Decidable (s.Keeps e) := by
  unfold Keeps
  split
  · split <;> infer_instance
  · infer_instance
  · infer_instance
  · infer_instance

/-- A client's socket that is held is open and has one holder. When the record has been filled, then
for the event whose turn it is, and no worker is still to read what was there before. -/
structure Exclusive (s : OneshotServer) : Prop where
  one : ∀ h h' fd, s.Holds h fd → s.Holds h' fd → h = h'
  opened : ∀ h fd, s.Holds h fd → s.opened fd = true
  registered : s.registered = s.opened
  nodup : (s.batch.map Prod.fst).Nodup
  absent : ∀ k, s.created ≤ k → s.worker k = .absent
  filled : s.launching = true → (∃ epollin rest, s.batch = (s.sockfd, epollin) :: rest) ∧
    s.sockfd ≠ s.listenfd ∧ ∀ k, s.worker k ≠ .starting
  listen : s.opened s.listenfd = false

section Steps

variable {s t : OneshotServer} {e : OneshotEvent} {fd k c sockfd listenfd : Nat} {h : Holder}
  {rest events : List (Nat × Bool)} {epollin : Bool}

/-- What a step can do. -/
inductive Stepped (s : OneshotServer) : OneshotEvent → OneshotServer → Prop
  | wait {events : List (Nat × Bool)} (hbatch : s.batch = [])
      (hnodup : (events.map Prod.fst).Nodup)
      (harmed : ∀ p ∈ events, p.1 = s.listenfd ∨ s.armed p.1 = true) :
      Stepped s (.wait events) (s.delivered events)
  | refuse {epollin : Bool} {rest : List (Nat × Bool)} (hfree : s.launching = false)
      (hbatch : s.batch = (s.listenfd, epollin) :: rest) :
      Stepped s (.dispatch none) { s with batch := rest }
  | accept {c : Nat} {epollin : Bool} {rest : List (Nat × Bool)} (hfree : s.launching = false)
      (hbatch : s.batch = (s.listenfd, epollin) :: rest) (hfresh : s.opened c = false)
      (hlisten : c ≠ s.listenfd) :
      Stepped s (.dispatch (some c)) ({ s with batch := rest }.accepted c)
  | fill (connfd : Option Nat) {sockfd : Nat} {rest : List (Nat × Bool)}
      (hfree : s.launching = false) (hbatch : s.batch = (sockfd, true) :: rest)
      (hclient : sockfd ≠ s.listenfd) : Stepped s (.dispatch connfd) (s.filled sockfd)
  | ignore (connfd : Option Nat) {sockfd : Nat} {rest : List (Nat × Bool)}
      (hfree : s.launching = false) (hbatch : s.batch = (sockfd, false) :: rest)
      (hclient : sockfd ≠ s.listenfd) : Stepped s (.dispatch connfd) { s with batch := rest }
  | spawn {sockfd : Nat} {epollin : Bool} {rest : List (Nat × Bool)} (hfull : s.launching = true)
      (hbatch : s.batch = (sockfd, epollin) :: rest) : Stepped s (.create true) (s.spawned rest)
  | spawnFails {sockfd : Nat} {epollin : Bool} {rest : List (Nat × Bool)}
      (hfull : s.launching = true) (hbatch : s.batch = (sockfd, epollin) :: rest) :
      Stepped s (.create false) { s with batch := rest, launching := false }
  | start {k : Nat} (hk : s.worker k = .starting) :
      Stepped s (.start k) (s.move k (.serving s.sockfd))
  | receive (k : Nat) {ret : Recv} (hret : ret = .data ∨ ret = .error) : Stepped s (.recv k ret) s
  | close {k sockfd : Nat} (hk : s.worker k = .serving sockfd) :
      Stepped s (.recv k .eof) ((s.close sockfd).move k .done)
  | reset {k sockfd : Nat} (hk : s.worker k = .serving sockfd) :
      Stepped s (.recv k .again) ((s.reset_oneshot sockfd).move k .done)

theorem Stepped.of_step (hstep : s.step e = some t) : s.Stepped e t := by
  cases e with
  | wait events =>
      simp only [step, Option.ite_none_right_eq_some, Option.some.injEq] at hstep
      obtain ⟨⟨hbatch, -, hnodup, harmed⟩, rfl⟩ := hstep
      exact .wait hbatch hnodup fun p hp => (harmed p hp).imp_right And.right
  | dispatch connfd =>
      rw [step] at hstep
      split at hstep
      · next sockfd epollin rest hfree hbatch =>
        split at hstep
        · next hlisten =>
          subst hlisten
          split at hstep
          · cases hstep
            exact .refuse hfree hbatch
          · next c =>
            simp only [Option.ite_none_right_eq_some, Option.some.injEq] at hstep
            obtain ⟨⟨hne, hfresh⟩, rfl⟩ := hstep
            exact .accept hfree hbatch hfresh hne
        · next hclient =>
          cases epollin with
          | true =>
              cases hstep
              exact .fill connfd hfree hbatch hclient
          | false =>
              cases hstep
              exact .ignore connfd hfree hbatch hclient
      · cases hstep
  | create made =>
      rw [step] at hstep
      split at hstep
      · next p rest hfull hbatch =>
        cases made with
        | true =>
            cases hstep
            exact .spawn hfull hbatch
        | false =>
            cases hstep
            exact .spawnFails hfull hbatch
      · cases hstep
  | start k =>
      simp only [step, Option.ite_none_right_eq_some, Option.some.injEq] at hstep
      obtain ⟨hk, rfl⟩ := hstep
      exact .start hk
  | recv k ret =>
      rw [step] at hstep
      split at hstep
      · next sockfd hk =>
        cases ret with
        | data =>
            cases hstep
            exact .receive k (.inl rfl)
        | eof =>
            cases hstep
            exact .close hk
        | again =>
            cases hstep
            exact .reset hk
        | error =>
            cases hstep
            exact .receive k (.inr rfl)
      · cases hstep

theorem exclusive_start : (start listenfd).Exclusive := by
  have hno : ∀ h fd, ¬ (start listenfd).Holds h fd := by
    intro h fd hh
    cases h with
    | armed => cases hh
    | event => exact List.not_mem_nil hh.2
    | worker k => rcases hh with hh | ⟨hh, -⟩ <;> cases hh
  exact ⟨fun h _ fd hh => absurd hh (hno h fd), fun h fd hh => absurd hh (hno h fd), rfl,
    List.nodup_nil, fun _ _ => rfl, fun hfull => Bool.noConfusion hfull, rfl⟩

theorem live_start : (start listenfd).Live := by
  intro fd hopen
  cases hopen

/-- The holders after a step come from different holders before it. -/
theorem Exclusive.of_map (hs : s.Exclusive) (φ : Holder → Holder)
    (hφ : ∀ h fd, t.Holds h fd → s.Holds (φ h) fd)
    (hinj : ∀ h h' fd, t.Holds h fd → t.Holds h' fd → φ h = φ h' → h = h')
    (hopened : t.opened = s.opened) (hregistered : t.registered = s.registered)
    (hnodup : (t.batch.map Prod.fst).Nodup) (habsent : ∀ k, t.created ≤ k → t.worker k = .absent)
    (hfilled : t.launching = true → (∃ epollin rest, t.batch = (t.sockfd, epollin) :: rest) ∧
      t.sockfd ≠ t.listenfd ∧ ∀ k, t.worker k ≠ .starting)
    (hlisten : t.listenfd = s.listenfd) : t.Exclusive where
  one := fun h h' fd hh hh' => hinj h h' fd hh hh' (hs.one _ _ fd (hφ h fd hh) (hφ h' fd hh'))
  opened := by
    intro h fd hh
    rw [hopened]
    exact hs.opened _ fd (hφ h fd hh)
  registered := by rw [hopened, hregistered, hs.registered]
  nodup := hnodup
  absent := habsent
  filled := hfilled
  listen := by rw [hopened, hlisten, hs.listen]

/-- A step that leaves the holders of a socket as they are. -/
theorem Live.of_holds (hs : s.Live) (hholds : ∀ h fd, s.opened fd = true → s.Holds h fd →
      ∃ h', t.Holds h' fd)
    (hopened : t.opened = s.opened) (hregistered : t.registered = s.registered) : t.Live := by
  intro fd hopen hreg
  rw [hopened] at hopen
  rw [hregistered] at hreg
  obtain ⟨h, hh⟩ := hs fd hopen hreg
  exact hholds h fd hopen hh

/-! ## The main loop -/

theorem Exclusive.delivered (hs : s.Exclusive) (hbatch : s.batch = [])
    (hnodup : (events.map Prod.fst).Nodup)
    (harmed : ∀ p ∈ events, p.1 = s.listenfd ∨ s.armed p.1 = true) :
    (s.delivered events).Exclusive := by
  have hevent : ∀ fd, (s.delivered events).Holds .event fd → s.armed fd = true := by
    rintro fd ⟨hne, hmem⟩
    obtain ⟨p, hp, rfl⟩ := List.mem_map.mp hmem
    exact (harmed p hp).resolve_left hne
  have hclear : ∀ fd, (s.delivered events).Holds .armed fd → s.armed fd = true ∧
      ¬ (s.delivered events).Holds .event fd := by
    intro fd hh
    change (s.armed fd && decide (fd ∉ events.map Prod.fst)) = true at hh
    rw [Bool.and_eq_true, decide_eq_true_eq] at hh
    exact ⟨hh.1, fun hev => hh.2 hev.2⟩
  refine hs.of_map (fun h => if h = .event then .armed else h) ?_ ?_ rfl rfl hnodup hs.absent ?_ rfl
  · intro h fd hh
    cases h with
    | armed => exact (hclear fd hh).1
    | event => exact hevent fd hh
    | worker k => exact hh
  · intro h h' fd hh hh' heq
    cases h <;> cases h' <;> simp at heq ⊢
    · exact (hclear fd hh).2 hh'
    · exact (hclear fd hh').2 hh
    · exact heq
  · intro hfull
    obtain ⟨⟨epollin, rest, hturn⟩, -⟩ := hs.filled hfull
    rw [hbatch] at hturn
    cases hturn

theorem Live.delivered (hlive : s.Live) (hs : s.Exclusive) (hbatch : s.batch = []) :
    (s.delivered events).Live := by
  refine hlive.of_holds ?_ rfl rfl
  intro h fd hopen hh
  cases h with
  | armed =>
      by_cases hmem : fd ∈ events.map Prod.fst
      · refine ⟨.event, ?_, hmem⟩
        rintro rfl
        rw [show (s.delivered events).listenfd = s.listenfd from rfl, hs.listen] at hopen
        cases hopen
      · refine ⟨.armed, ?_⟩
        change s.armed fd = true at hh
        show (s.armed fd && decide (fd ∉ events.map Prod.fst)) = true
        rw [hh, decide_eq_true hmem, Bool.and_self]
  | event =>
      have hmem := hh.2
      rw [hbatch] at hmem
      cases hmem
  | worker k => exact ⟨.worker k, hh⟩

/-- An event of the listening socket holds no client's socket. -/
theorem holds_rest (hbatch : s.batch = (s.listenfd, epollin) :: rest) :
    { s with batch := rest }.Holds h fd ↔ s.Holds h fd := by
  cases h with
  | armed => exact Iff.rfl
  | event =>
      show fd ≠ s.listenfd ∧ fd ∈ rest.map Prod.fst ↔ fd ≠ s.listenfd ∧ fd ∈ s.batch.map Prod.fst
      rw [hbatch, List.map_cons, List.mem_cons]
      exact and_congr_right fun hne => (or_iff_right hne).symm
  | worker k => exact Iff.rfl

theorem Exclusive.listened (hs : s.Exclusive) (hfree : s.launching = false)
    (hbatch : s.batch = (s.listenfd, epollin) :: rest) : Exclusive { s with batch := rest } := by
  have hnodup := hs.nodup
  rw [hbatch, List.map_cons, List.nodup_cons] at hnodup
  exact hs.of_map id (fun h fd hh => (holds_rest hbatch).mp hh) (fun _ _ _ _ _ heq => heq) rfl rfl
    hnodup.2 hs.absent (fun hfull => Bool.noConfusion (hfree.symm.trans hfull)) rfl

theorem Live.listened (hlive : s.Live) (hbatch : s.batch = (s.listenfd, epollin) :: rest) :
    Live { s with batch := rest } :=
  hlive.of_holds (fun h _ _ hh => ⟨h, (holds_rest hbatch).mpr hh⟩) rfl rfl

/-- A new client is registered and armed. -/
theorem Exclusive.accepted_eq (hs : s.Exclusive) (hfresh : s.opened c = false) :
    s.accepted c = { s with
      opened := Function.update s.opened c true
      registered := Function.update s.registered c true
      armed := Function.update s.armed c true } := by
  rw [accepted, addfd, ctlAdd]
  refine if_neg ?_
  rintro (hclosed | hreg)
  · change Function.update s.opened c true c = false at hclosed
    rw [Function.update_self] at hclosed
    cases hclosed
  · change s.registered c = true at hreg
    rw [hs.registered, hfresh] at hreg
    cases hreg

theorem Exclusive.holds_accepted (hs : s.Exclusive) (hfresh : s.opened c = false) :
    (s.accepted c).Holds h fd ↔ if fd = c then h = .armed else s.Holds h fd := by
  rw [hs.accepted_eq hfresh]
  split
  · next hfd =>
    subst hfd
    have hno : ∀ h, ¬ s.Holds h fd := by
      intro h hh
      have hopen := hs.opened h fd hh
      rw [hfresh] at hopen
      cases hopen
    cases h with
    | armed => exact iff_of_true (Function.update_self ..) rfl
    | event => exact iff_of_false (hno .event) (fun h => by cases h)
    | worker k => exact iff_of_false (hno (.worker k)) (fun h => by cases h)
  · next hfd =>
    cases h with
    | armed =>
        show Function.update s.armed c true fd = true ↔ s.armed fd = true
        rw [Function.update_of_ne hfd]
    | event => exact Iff.rfl
    | worker k => exact Iff.rfl

theorem Exclusive.accepted (hs : s.Exclusive) (hfresh : s.opened c = false)
    (hne : c ≠ s.listenfd) : (s.accepted c).Exclusive where
  one := by
    intro h h' fd hh hh'
    rw [hs.holds_accepted hfresh] at hh hh'
    split at hh
    · next hfd =>
      rw [if_pos hfd] at hh'
      rw [hh, hh']
    · next hfd =>
      rw [if_neg hfd] at hh'
      exact hs.one h h' fd hh hh'
  opened := by
    intro h fd hh
    rw [hs.holds_accepted hfresh] at hh
    rw [hs.accepted_eq hfresh]
    show Function.update s.opened c true fd = true
    split at hh
    · next hfd => rw [hfd, Function.update_self]
    · next hfd => rw [Function.update_of_ne hfd, hs.opened h fd hh]
  registered := by
    rw [hs.accepted_eq hfresh]
    show Function.update s.registered c true = Function.update s.opened c true
    rw [hs.registered]
  nodup := by
    rw [hs.accepted_eq hfresh]
    exact hs.nodup
  absent := by
    rw [hs.accepted_eq hfresh]
    exact hs.absent
  filled := by
    rw [hs.accepted_eq hfresh]
    exact hs.filled
  listen := by
    rw [hs.accepted_eq hfresh]
    show Function.update s.opened c true s.listenfd = false
    rw [Function.update_of_ne hne.symm, hs.listen]

theorem Live.accepted (hlive : s.Live) (hs : s.Exclusive) (hfresh : s.opened c = false) :
    (s.accepted c).Live := by
  intro fd hopen hreg
  by_cases hfd : fd = c
  · exact ⟨.armed, (hs.holds_accepted hfresh).mpr (by rw [if_pos hfd])⟩
  · rw [hs.accepted_eq hfresh] at hopen hreg
    change Function.update s.opened c true fd = true at hopen
    change Function.update s.registered c true fd = true at hreg
    rw [Function.update_of_ne hfd] at hopen hreg
    obtain ⟨h, hh⟩ := hlive fd hopen hreg
    exact ⟨h, (hs.holds_accepted hfresh).mpr (by rwa [if_neg hfd])⟩

/-- The event of a client, in the turn for it. -/
theorem holds_event (hbatch : s.batch = (sockfd, epollin) :: rest) (hne : sockfd ≠ s.listenfd) :
    s.Holds .event sockfd :=
  ⟨hne, by rw [hbatch]; exact List.mem_cons_self⟩

/-- The holders after the turn for an event of a client. -/
theorem Exclusive.holds_dropped (hs : s.Exclusive) (hbatch : s.batch = (sockfd, epollin) :: rest) :
    { s with batch := rest }.Holds h fd ↔ s.Holds h fd ∧ ¬ (h = .event ∧ fd = sockfd) := by
  have hnodup := hs.nodup
  rw [hbatch, List.map_cons, List.nodup_cons] at hnodup
  cases h with
  | armed => exact (and_iff_left fun hand => by cases hand.1).symm
  | event =>
      show fd ≠ s.listenfd ∧ fd ∈ rest.map Prod.fst ↔
        (fd ≠ s.listenfd ∧ fd ∈ s.batch.map Prod.fst) ∧ ¬ (Holder.event = .event ∧ fd = sockfd)
      rw [hbatch, List.map_cons, List.mem_cons]
      constructor
      · rintro ⟨hlisten, hmem⟩
        refine ⟨⟨hlisten, .inr hmem⟩, ?_⟩
        rintro ⟨-, rfl⟩
        exact hnodup.1 hmem
      · rintro ⟨⟨hlisten, heq | hmem⟩, hno⟩
        · exact absurd ⟨rfl, heq⟩ hno
        · exact ⟨hlisten, hmem⟩
  | worker k => exact (and_iff_left fun hand => by cases hand.1).symm

/-- Without a worker for its event a socket is held by nobody. -/
theorem Exclusive.not_live_dropped (hs : s.Exclusive)
    (hbatch : s.batch = (sockfd, epollin) :: rest) (hne : sockfd ≠ s.listenfd) :
    ¬ Live { s with batch := rest } := by
  have hevent := holds_event hbatch hne
  have hopen := hs.opened _ _ hevent
  intro hlive
  have hreg : s.registered sockfd = true := by rw [hs.registered, hopen]
  obtain ⟨h, hh⟩ := hlive sockfd hopen hreg
  rw [hs.holds_dropped hbatch] at hh
  exact hh.2 ⟨hs.one _ _ _ hh.1 hevent, rfl⟩

/-- The record does not matter as long as no worker is to read it. -/
theorem holds_filled (hnone : ∀ k, s.worker k ≠ .starting) :
    (s.filled sockfd).Holds h fd ↔ s.Holds h fd := by
  cases h with
  | armed => exact Iff.rfl
  | event => exact Iff.rfl
  | worker k =>
      show s.worker k = .serving fd ∨ s.worker k = .starting ∧ sockfd = fd ↔
        s.worker k = .serving fd ∨ s.worker k = .starting ∧ s.sockfd = fd
      rw [or_iff_left fun hand => hnone k hand.1, or_iff_left fun hand => hnone k hand.1]

theorem Exclusive.fill (hs : s.Exclusive) (hbatch : s.batch = (sockfd, epollin) :: rest)
    (hne : sockfd ≠ s.listenfd) (hnone : ∀ k, s.worker k ≠ .starting) :
    (s.filled sockfd).Exclusive :=
  hs.of_map id (fun _ _ hh => (holds_filled hnone).mp hh) (fun _ _ _ _ _ heq => heq) rfl rfl
    hs.nodup hs.absent (fun _ => ⟨⟨epollin, rest, hbatch⟩, hne, hnone⟩) rfl

/-- A worker that has not read its argument loses it to the next one. -/
theorem Exclusive.not_live_filled (hs : s.Exclusive)
    (hbatch : s.batch = (sockfd, epollin) :: rest) (hne : sockfd ≠ s.listenfd)
    (hk : s.worker k = .starting) : ¬ (s.filled sockfd).Live := by
  have hevent := holds_event hbatch hne
  have hworker : s.Holds (.worker k) s.sockfd := .inr ⟨hk, rfl⟩
  have hopen := hs.opened _ _ hworker
  have hreg : s.registered s.sockfd = true := by rw [hs.registered, hopen]
  have hother : sockfd ≠ s.sockfd := by
    rintro rfl
    cases hs.one _ _ _ hworker hevent
  intro hlive
  obtain ⟨h, hh⟩ := hlive s.sockfd hopen hreg
  cases h with
  | armed => cases hs.one .armed _ _ hh hworker
  | event => cases hs.one .event _ _ hh hworker
  | worker j =>
      rcases hh with hserving | ⟨-, heq⟩
      · cases hs.one (.worker j) _ _ (.inl hserving) hworker
        exact Worker.noConfusion (hk.symm.trans hserving)
      · exact hother heq

/-- The event of a client is handed to the new worker. -/
theorem Exclusive.holds_spawned (hs : s.Exclusive) :
    (s.spawned rest).Holds h fd ↔
      { s with batch := rest }.Holds h fd ∨ h = .worker s.created ∧ fd = s.sockfd := by
  cases h with
  | armed => exact (or_iff_left fun hand => by cases hand.1).symm
  | event => exact (or_iff_left fun hand => by cases hand.1).symm
  | worker k =>
      show Function.update s.worker s.created .starting k = .serving fd ∨
          Function.update s.worker s.created .starting k = .starting ∧ s.sockfd = fd ↔
        (s.worker k = .serving fd ∨ s.worker k = .starting ∧ s.sockfd = fd) ∨ _
      by_cases hk : k = s.created
      · subst hk
        rw [Function.update_self, hs.absent _ le_rfl]
        simp [eq_comm]
      · rw [Function.update_of_ne hk]
        have hold : ¬ (Holder.worker k = .worker s.created ∧ fd = s.sockfd) := fun hand =>
          hk (Holder.worker.inj hand.1)
        rw [or_iff_left hold]

/-- When the record is filled, it is for the event whose turn it is. -/
theorem Exclusive.turn (hs : s.Exclusive) (hfull : s.launching = true)
    (hbatch : s.batch = (sockfd, epollin) :: rest) :
    sockfd = s.sockfd ∧ sockfd ≠ s.listenfd ∧ ∀ k, s.worker k ≠ .starting := by
  obtain ⟨⟨_, _, hturn⟩, hne, hnone⟩ := hs.filled hfull
  rw [hbatch] at hturn
  cases hturn
  exact ⟨rfl, hne, hnone⟩

theorem Exclusive.spawned (hs : s.Exclusive) (hfull : s.launching = true)
    (hbatch : s.batch = (sockfd, epollin) :: rest) : (s.spawned rest).Exclusive := by
  obtain ⟨rfl, hne, -⟩ := hs.turn hfull hbatch
  have hevent := holds_event hbatch hne
  -- nobody else has the socket of the event
  have hno : ∀ h, ¬ { s with batch := rest }.Holds h s.sockfd := by
    intro h hh
    obtain ⟨hold, hnot⟩ := (hs.holds_dropped hbatch).mp hh
    exact hnot ⟨hs.one _ _ _ hold hevent, rfl⟩
  have hnodup := hs.nodup
  rw [hbatch, List.map_cons, List.nodup_cons] at hnodup
  constructor
  case one =>
    intro h h' fd hh hh'
    rw [hs.holds_spawned] at hh hh'
    rcases hh with hh | ⟨rfl, rfl⟩
    · rcases hh' with hh' | ⟨rfl, rfl⟩
      · exact hs.one _ _ fd ((hs.holds_dropped hbatch).mp hh).1
          ((hs.holds_dropped hbatch).mp hh').1
      · exact absurd hh (hno h)
    · rcases hh' with hh' | ⟨rfl, -⟩
      · exact absurd hh' (hno h')
      · rfl
  case opened =>
    intro h fd hh
    rw [hs.holds_spawned] at hh
    rcases hh with hh | ⟨-, rfl⟩
    · exact hs.opened h fd ((hs.holds_dropped hbatch).mp hh).1
    · exact hs.opened _ _ hevent
  case registered => exact hs.registered
  case nodup => exact hnodup.2
  case absent =>
    intro k hk
    change s.created + 1 ≤ k at hk
    have hne : k ≠ s.created := by omega
    exact (Function.update_of_ne hne ..).trans (hs.absent k (by omega))
  case filled => exact fun hfull => Bool.noConfusion hfull
  case listen => exact hs.listen

theorem Live.spawned (hlive : s.Live) (hs : s.Exclusive) (hfull : s.launching = true)
    (hbatch : s.batch = (sockfd, epollin) :: rest) : (s.spawned rest).Live := by
  obtain ⟨rfl, -, -⟩ := hs.turn hfull hbatch
  refine hlive.of_holds ?_ rfl rfl
  intro h fd _ hh
  by_cases hfd : h = .event ∧ fd = s.sockfd
  · exact ⟨.worker s.created, hs.holds_spawned.mpr (.inr ⟨rfl, hfd.2⟩)⟩
  · exact ⟨h, hs.holds_spawned.mpr
      (.inl ((hs.holds_dropped hbatch).mpr ⟨hh, hfd⟩))⟩

/-! ## The workers -/

/-- The worker reads its argument. -/
theorem holds_move (hk : s.worker k = .starting) :
    (s.move k (.serving s.sockfd)).Holds h fd ↔ s.Holds h fd := by
  cases h with
  | armed => exact Iff.rfl
  | event => exact Iff.rfl
  | worker j =>
      show (s.move k _).worker j = _ ∨ (s.move k _).worker j = _ ∧ s.sockfd = fd ↔
        s.worker j = .serving fd ∨ s.worker j = .starting ∧ s.sockfd = fd
      by_cases hj : j = k
      · rw [hj, move_self, hk]
        simp
      · rw [move_of_ne _ _ hj]

/-- A worker that goes on is one that has been created. -/
theorem Exclusive.absent_move (hs : s.Exclusive) (hk : s.worker k ≠ .absent) (w : Worker) (j : Nat)
    (hj : s.created ≤ j) : (s.move k w).worker j = .absent := by
  have hjk : j ≠ k := by
    rintro rfl
    exact hk (hs.absent j hj)
  rw [move_of_ne _ _ hjk]
  exact hs.absent j hj

theorem Exclusive.start (hs : s.Exclusive) (hk : s.worker k = .starting) :
    (s.move k (.serving s.sockfd)).Exclusive :=
  hs.of_map id (fun h fd hh => (holds_move hk).mp hh) (fun _ _ _ _ _ heq => heq) rfl rfl
    hs.nodup (hs.absent_move (by simp [hk]) _) (fun hfull => absurd hk ((hs.filled hfull).2.2 k)) rfl

/-- A worker that ends, when `u` has the state of the sockets then. -/
theorem holds_done {u : OneshotServer} (hworker : u.worker = s.worker) (hbatch : u.batch = s.batch)
    (hsockfd : u.sockfd = s.sockfd) (hlisten : u.listenfd = s.listenfd)
    (hh : (u.move k .done).Holds h fd) (harmed : h = .armed → s.armed fd = true) :
    s.Holds h fd ∧ h ≠ .worker k := by
  cases h with
  | armed => exact ⟨harmed rfl, fun heq => by cases heq⟩
  | event =>
      obtain ⟨hne, hmem⟩ := hh
      change fd ≠ u.listenfd at hne
      change fd ∈ u.batch.map Prod.fst at hmem
      rw [hlisten] at hne
      rw [hbatch] at hmem
      exact ⟨⟨hne, hmem⟩, fun heq => by cases heq⟩
  | worker j =>
      change (u.move k .done).worker j = .serving fd ∨
        (u.move k .done).worker j = .starting ∧ u.sockfd = fd at hh
      by_cases hj : j = k
      · rw [hj, move_self] at hh
        rcases hh with hh | ⟨hh, -⟩ <;> cases hh
      · rw [move_of_ne _ _ hj, hworker, hsockfd] at hh
        exact ⟨hh, fun heq => hj (Holder.worker.inj heq)⟩

/-- The socket that is closed had no other holder. -/
theorem Exclusive.holds_closed (hs : s.Exclusive) (hk : s.worker k = .serving c) :
    ((s.close c).move k .done).Holds h fd ↔ s.Holds h fd ∧ fd ≠ c := by
  have hworker : s.Holds (.worker k) c := .inl hk
  constructor
  · intro hh
    have harmed : h = .armed → s.armed fd = true := by
      rintro rfl
      change Function.update s.armed c false fd = true at hh
      by_cases hfd : fd = c
      · rw [hfd, Function.update_self] at hh
        cases hh
      · rwa [Function.update_of_ne hfd] at hh
    obtain ⟨hold, hne⟩ := holds_done (s := s) (u := s.close c) rfl rfl rfl rfl hh harmed
    refine ⟨hold, ?_⟩
    rintro rfl
    exact hne (hs.one _ _ _ hold hworker)
  · rintro ⟨hh, hfd⟩
    cases h with
    | armed =>
        show Function.update s.armed c false fd = true
        rwa [Function.update_of_ne hfd]
    | event => exact hh
    | worker j =>
        have hj : j ≠ k := by
          rintro rfl
          rcases hh with hh | ⟨hh, -⟩
          · rw [hk] at hh
            exact hfd (Worker.serving.inj hh).symm
          · rw [hk] at hh
            cases hh
        show (move _ k _).worker j = _ ∨ (move _ k _).worker j = _ ∧ s.sockfd = fd
        rw [move_of_ne _ _ hj]
        exact hh

theorem Exclusive.closed (hs : s.Exclusive) (hk : s.worker k = .serving c) :
    ((s.close c).move k .done).Exclusive where
  one := fun h h' fd hh hh' =>
    hs.one h h' fd ((hs.holds_closed hk).mp hh).1 ((hs.holds_closed hk).mp hh').1
  opened := by
    intro h fd hh
    obtain ⟨hold, hfd⟩ := (hs.holds_closed hk).mp hh
    exact (Function.update_of_ne hfd ..).trans (hs.opened h fd hold)
  registered := by
    show Function.update s.registered c false = Function.update s.opened c false
    rw [hs.registered]
  nodup := hs.nodup
  absent := hs.absent_move (by simp [hk]) .done
  filled := by
    intro hfull
    obtain ⟨hturn, hne, hnone⟩ := hs.filled hfull
    refine ⟨hturn, hne, fun j => ?_⟩
    by_cases hj : j = k
    · rw [hj, move_self]
      exact fun heq => by cases heq
    · rw [move_of_ne _ _ hj]
      exact hnone j
  listen := by
    show Function.update s.opened c false s.listenfd = false
    by_cases hc : s.listenfd = c
    · rw [hc, Function.update_self]
    · rw [Function.update_of_ne hc, hs.listen]

theorem Live.closed (hlive : s.Live) (hs : s.Exclusive) (hk : s.worker k = .serving c) :
    ((s.close c).move k .done).Live := by
  intro fd hopen hreg
  change Function.update s.opened c false fd = true at hopen
  change Function.update s.registered c false fd = true at hreg
  by_cases hfd : fd = c
  · rw [hfd, Function.update_self] at hopen
    cases hopen
  · rw [Function.update_of_ne hfd] at hopen hreg
    obtain ⟨h, hh⟩ := hlive fd hopen hreg
    exact ⟨h, (hs.holds_closed hk).mpr ⟨hh, hfd⟩⟩

/-- The socket is still registered, so that adding it fails, and its worker was its only holder. -/
theorem Exclusive.not_live_again (hs : s.Exclusive) (hk : s.worker k = .serving c) :
    ¬ ((s.reset_oneshot c).move k .done).Live := by
  have hworker : s.Holds (.worker k) c := .inl hk
  have hopen := hs.opened _ _ hworker
  have hreg : s.registered c = true := by rw [hs.registered, hopen]
  have hsame : s.reset_oneshot c = s := if_pos (.inr hreg)
  rw [hsame]
  intro hlive
  obtain ⟨h, hh⟩ := hlive c hopen hreg
  have harmed : h = .armed → s.armed c = true := by
    rintro rfl
    exact hh
  obtain ⟨hold, hne⟩ := holds_done (s := s) (u := s) rfl rfl rfl rfl hh harmed
  exact hne (hs.one _ _ _ hold hworker)

/-! ## Runs -/

theorem Exclusive.not_starting (hs : s.Exclusive)
    (hnone : ∀ k, k < s.created → s.worker k ≠ .starting) : ∀ k, s.worker k ≠ .starting := by
  intro k
  rcases Nat.lt_or_ge k s.created with hlt | hge
  · exact hnone k hlt
  · rw [hs.absent k hge]
    exact fun h => by cases h

/-- A step keeps the sockets live exactly when nobody lets go of one. -/
theorem Live.step_iff (hs : s.Exclusive) (hlive : s.Live) (hstep : s.step e = some t) :
    t.Live ↔ s.Keeps e := by
  cases Stepped.of_step hstep with
  | wait hbatch _ _ => exact iff_of_true (hlive.delivered hs hbatch) trivial
  | refuse _ hbatch =>
      refine iff_of_true (hlive.listened hbatch) ?_
      simp [Keeps, hbatch]
  | accept hfree hbatch hfresh _ =>
      refine iff_of_true ((hlive.listened hbatch).accepted (hs.listened hfree hbatch) hfresh) ?_
      simp [Keeps, hbatch]
  | fill _ _ hbatch hclient =>
      simp only [Keeps, hbatch, hclient, false_or, true_and]
      constructor
      · intro ht k _ hk
        exact hs.not_live_filled hbatch hclient hk ht
      · intro hnone
        exact hlive.of_holds
          (fun h _ _ hh => ⟨h, (holds_filled (hs.not_starting hnone)).mpr hh⟩) rfl rfl
  | ignore _ _ hbatch hclient =>
      refine iff_of_false (hs.not_live_dropped hbatch hclient) ?_
      simp [Keeps, hbatch, hclient]
  | spawn hfull hbatch => exact iff_of_true (hlive.spawned hs hfull hbatch) rfl
  | spawnFails hfull hbatch =>
      refine iff_of_false ?_ (by simp [Keeps])
      exact hs.not_live_dropped hbatch (hs.turn hfull hbatch).2.1
  | start hk =>
      exact iff_of_true (hlive.of_holds (fun h _ _ hh => ⟨h, (holds_move hk).mpr hh⟩) rfl rfl) trivial
  | receive k hret =>
      refine iff_of_true hlive ?_
      rcases hret with rfl | rfl <;> simp [Keeps]
  | close hk => exact iff_of_true (hlive.closed hs hk) (by simp [Keeps])
  | reset hk => exact iff_of_false (hs.not_live_again hk) (by simp [Keeps])

theorem Exclusive.step (hs : s.Exclusive) (hC : s.Keeps e) (hstep : s.step e = some t) :
    t.Exclusive := by
  cases Stepped.of_step hstep with
  | wait hbatch hnodup harmed => exact hs.delivered hbatch hnodup harmed
  | refuse hfree hbatch => exact hs.listened hfree hbatch
  | accept hfree hbatch hfresh hlisten => exact (hs.listened hfree hbatch).accepted hfresh hlisten
  | fill _ _ hbatch hclient =>
      simp only [Keeps, hbatch, hclient, false_or, true_and] at hC
      exact hs.fill hbatch hclient (hs.not_starting hC)
  | ignore _ _ hbatch hclient => simp [Keeps, hbatch, hclient] at hC
  | spawn hfull hbatch => exact hs.spawned hfull hbatch
  | spawnFails _ _ => simp [Keeps] at hC
  | start hk => exact hs.start hk
  | receive _ _ => exact hs
  | close hk => exact hs.closed hk
  | reset hk => simp [Keeps] at hC

/-- For every interleaving of the main loop, the workers and the arriving data: every open socket is
armed, or has an event that awaits its turn, or has a worker, throughout a run exactly when no `recv`
finds nothing to read, every event of a client has `EPOLLIN`, every worker reads its argument before
the record is filled again, and `pthread_create` does not fail. -/
theorem live_iff {l : List OneshotEvent} (hrun : runEvents step (start listenfd) l = some t) :
    (Along step (fun s _ => s.Live) (start listenfd) l ∧ t.Live) ↔
      Along step Keeps (start listenfd) l :=
  always_iff_along_of
    (fun _ _ _ hs hlive hstep ht => hs.step ((hlive.step_iff hs hstep).mp ht) hstep)
    (fun _ _ _ hs hlive hstep => hlive.step_iff hs hstep) exclusive_start live_start hrun

/-- Two clients send some data. The second one closes its side before its worker has read
everything. -/
theorem live_iff_two_clients : ∃ t,
    runEvents step (start 3) [.wait [(3, true)], .dispatch (some 5), .wait [(3, true), (5, true)],
      .dispatch (some 6), .dispatch none, .create true, .start 0, .recv 0 .data, .wait [(6, true)],
      .dispatch none, .create true, .start 1, .recv 1 .data, .recv 1 .eof] = some t ∧ t.Live ∧
      t.worker 0 = .serving 5 ∧ t.opened 6 = false := by
  refine ⟨_, rfl, ?_, rfl, rfl⟩
  refine ((@live_iff _ 3 [.wait [(3, true)], .dispatch (some 5), .wait [(3, true), (5, true)],
    .dispatch (some 6), .dispatch none, .create true, .start 0, .recv 0 .data, .wait [(6, true)],
    .dispatch none, .create true, .start 1, .recv 1 .data, .recv 1 .eof] rfl).mpr ?_).2
  exact ⟨trivial, by decide, trivial, by decide, by decide, by decide, trivial, by decide, trivial,
    by decide, by decide, trivial, by decide, by decide, trivial⟩

/-- The first data have been read. The socket is open and registered; it is not armed, has no event
and no worker. -/
theorem dead_socket : ∃ t,
    runEvents step (start 3) [.wait [(3, true)], .dispatch (some 5), .wait [(5, true)],
      .dispatch none, .create true, .start 0, .recv 0 .data, .recv 0 .again] = some t ∧
    t.opened 5 = true ∧ t.registered 5 = true ∧ t.armed 5 = false ∧ t.batch = [] ∧
    t.worker 0 = .done ∧ t.created = 1 ∧ ¬ t.Live := by
  refine ⟨_, rfl, rfl, rfl, rfl, rfl, rfl, rfl, ?_⟩
  intro hlive
  obtain ⟨h, hh⟩ := hlive 5 rfl rfl
  cases h with
  | armed => cases hh
  | event => exact List.not_mem_nil hh.2
  | worker k =>
      cases k with
      | zero => rcases hh with hh | ⟨hh, -⟩ <;> cases hh
      | succ k => rcases hh with hh | ⟨hh, -⟩ <;> cases hh

end Steps

end OneshotServer

end CLanguageLearning.Epoll
