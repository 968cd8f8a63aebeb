import CLanguageLearning.Epoll.OneshotServer

/-!
# Handing a socket to a worker

With EPOLLONESHOT a socket whose event has been delivered is not delivered again, so one worker
serves it. The worker learns its socket from `fds_for_new_worker`, which is on the stack of `main`
and is filled again for the next event. `oneEach_iff` says when every worker serves the socket of
its event: each of them has to read the record before it is filled for the next event, and that is
before the next worker is created.

`HandOver` adds to the server the sockets of the events for which the workers were created.
-/

set_option autoImplicit false

namespace CLanguageLearning.Epoll

open CLanguageLearning.Foundation

/-- At work, or about to read its argument. -/
def Worker.Active : Worker → Prop
  | starting => True
  | serving _ => True
  | _ => False

/-- A server; the worker `k` was created for an event of the socket `job k`. An event is `lost` when
no worker could be created for it. -/
structure HandOver where
  server : OneshotServer
  job : Nat → Nat
  lost : Bool

namespace HandOver

def start (listenfd : Nat) : HandOver := ⟨.start listenfd, fun _ => 0, false⟩

/-- The jobs after an event: a worker is created for the event whose turn it is. -/
def jobs (a : HandOver) : OneshotEvent → Nat → Nat
  | .create _ =>
      match a.server.batch with
      | [] => a.job
      | (sockfd, _) :: _ => Function.update a.job a.server.created sockfd
  | _ => a.job

def step (a : HandOver) (e : OneshotEvent) : Option HandOver :=
  (a.server.step e).map fun t => ⟨t, a.jobs e, a.lost || decide (e = .create false)⟩

/-- Every event has its worker, every worker serves the socket of its own event, and no two of them
serve one socket. -/
structure OneEach (a : HandOver) : Prop where
  served : a.lost = false
  own : ∀ k c, a.server.worker k = .serving c → c = a.job k
  alone : ∀ j k c, a.server.worker j = .serving c → a.server.worker k = .serving c → j = k

/-- A worker is created, and it reads its argument before the record is filled again: it is the last
one, and none is about to be created. -/
def ReadsInTime (a : HandOver) : OneshotEvent → Prop
  | .create made => made = true
  | .start k => k + 1 = a.server.created ∧ a.server.launching = false
  | _ => True

instance (a : HandOver) (e : OneshotEvent) : Decidable (a.ReadsInTime e) :=
  match e with
  | .create made => inferInstanceAs (Decidable (made = true))
  | .start k =>
      inferInstanceAs (Decidable (k + 1 = a.server.created ∧ a.server.launching = false))
  | .wait _ | .dispatch _ | .recv _ _ => inferInstanceAs (Decidable True)

/-- The sockets of the workers are disarmed and different, and the record is that of the last
worker or of the event whose turn it is. -/
structure Distinct (a : HandOver) : Prop where
  held : ∀ k, (a.server.worker k).Active → a.server.opened (a.job k) = true ∧
    a.server.armed (a.job k) = false ∧ a.job k ∉ a.server.batch.map Prod.fst
  apart : ∀ j k, (a.server.worker j).Active → (a.server.worker k).Active → a.job j = a.job k → j = k
  last : ∀ k, (a.server.worker k).Active → a.job k = a.server.sockfd →
    k + 1 = a.server.created ∧ a.server.launching = false
  record : 0 < a.server.created → a.server.launching = false →
    a.server.sockfd = a.job (a.server.created - 1)
  filled : a.server.launching = true → (∃ epollin rest,
    a.server.batch = (a.server.sockfd, epollin) :: rest) ∧ a.server.sockfd ≠ a.server.listenfd
  absent : ∀ k, a.server.created ≤ k → a.server.worker k = .absent
  registered : a.server.registered = a.server.opened
  armed : ∀ fd, a.server.armed fd = true → a.server.opened fd = true
  delivered : ∀ fd, fd ∈ a.server.batch.map Prod.fst → fd ≠ a.server.listenfd →
    a.server.opened fd = true ∧ a.server.armed fd = false
  nodup : (a.server.batch.map Prod.fst).Nodup
  listen : a.server.opened a.server.listenfd = false

section Steps

variable {a b : HandOver} {e : OneshotEvent} {s : OneshotServer} {k c sockfd listenfd : Nat}
  {rest events : List (Nat × Bool)} {epollin lost : Bool}

theorem distinct_start : (start listenfd).Distinct where
  held k hk := hk.elim
  apart j k hj := hj.elim
  last k hk := hk.elim
  record h := absurd h (lt_irrefl 0)
  filled h := Bool.noConfusion h
  absent _ _ := rfl
  registered := rfl
  armed fd h := by cases h
  delivered fd h := absurd h List.not_mem_nil
  nodup := List.nodup_nil
  listen := rfl

theorem oneEach_start : (start listenfd).OneEach where
  served := rfl
  own k c h := by cases h
  alone j k c h := by cases h

theorem Distinct.lt_created (h : a.Distinct) (hk : (a.server.worker k).Active) :
    k < a.server.created := by
  by_contra hge
  rw [h.absent k (Nat.not_lt.mp hge)] at hk
  exact hk

/-- The events of a batch are those of sockets that were armed. -/
theorem Distinct.wait (h : a.Distinct) (hbatch : a.server.batch = [])
    (hnodup : (events.map Prod.fst).Nodup)
    (harmed : ∀ p ∈ events, p.1 = a.server.listenfd ∨ a.server.armed p.1 = true) :
    Distinct ⟨a.server.delivered events, a.job, lost⟩ where
  held k hk := by
    obtain ⟨hopen, hdisarmed, -⟩ := h.held k hk
    refine ⟨hopen, by simp [OneshotServer.delivered, hdisarmed], ?_⟩
    intro hmem
    obtain ⟨p, hp, he⟩ := List.mem_map.mp hmem
    -- an event is of the listening socket or of an armed one
    rcases harmed p hp with hlisten | harm
    · rw [← he, hlisten, h.listen] at hopen
      cases hopen
    · rw [he, hdisarmed] at harm
      cases harm
  apart := h.apart
  last := h.last
  record := h.record
  filled hfull := by
    obtain ⟨⟨epollin, rest, hturn⟩, -⟩ := h.filled hfull
    rw [hbatch] at hturn
    cases hturn
  absent := h.absent
  registered := h.registered
  armed fd hfd := by
    simp only [OneshotServer.delivered, Bool.and_eq_true] at hfd
    exact h.armed fd hfd.1
  delivered fd hfd hne := by
    change fd ∈ events.map Prod.fst at hfd
    obtain ⟨p, hp, rfl⟩ := List.mem_map.mp hfd
    refine ⟨h.armed _ ((harmed p hp).resolve_left hne), ?_⟩
    simp only [OneshotServer.delivered, hfd, not_true, decide_false, Bool.and_false]
  nodup := hnodup
  listen := h.listen

/-- The turn of the first event of the batch is over. -/
theorem Distinct.turn (h : a.Distinct) (hfree : a.server.launching = false)
    (hbatch : a.server.batch = (sockfd, epollin) :: rest) :
    Distinct ⟨{ a.server with batch := rest }, a.job, lost⟩ := by
  have hmem : ∀ fd, fd ∈ rest.map Prod.fst → fd ∈ a.server.batch.map Prod.fst := by
    intro fd hfd
    rw [hbatch]
    exact List.mem_cons_of_mem _ hfd
  have hnodup := h.nodup
  rw [hbatch, List.map_cons, List.nodup_cons] at hnodup
  exact
    { held := fun k hk => by
        obtain ⟨hopen, hdisarmed, hno⟩ := h.held k hk
        exact ⟨hopen, hdisarmed, fun hin => hno (hmem _ hin)⟩
      apart := h.apart
      last := h.last
      record := h.record
      filled := fun hfull => Bool.noConfusion (hfree.symm.trans hfull)
      absent := h.absent
      registered := h.registered
      armed := h.armed
      delivered := fun fd hfd => h.delivered fd (hmem fd hfd)
      nodup := hnodup.2
      listen := h.listen }

/-- A new client has a descriptor that no worker has. -/
theorem Distinct.accept (h : a.Distinct) (hfresh : a.server.opened c = false)
    (hne : c ≠ a.server.listenfd) : Distinct ⟨a.server.accepted c, a.job, lost⟩ := by
  have hadded : a.server.accepted c = { a.server with
      opened := Function.update a.server.opened c true
      registered := Function.update a.server.registered c true
      armed := Function.update a.server.armed c true } := by
    have hreg : a.server.registered c = false := by rw [h.registered, hfresh]
    simp [OneshotServer.accepted, OneshotServer.addfd, OneshotServer.ctlAdd, hreg]
  have hother : ∀ fd, a.server.opened fd = true → fd ≠ c := by
    rintro fd hopen rfl
    rw [hfresh] at hopen
    cases hopen
  rw [hadded]
  exact
    { held := fun k hk => by
        obtain ⟨hopen, hdisarmed, hno⟩ := h.held k hk
        have hk := hother _ hopen
        refine ⟨?_, ?_, hno⟩
        · exact (Function.update_of_ne hk ..).trans hopen
        · exact (Function.update_of_ne hk ..).trans hdisarmed
      apart := h.apart
      last := h.last
      record := h.record
      filled := h.filled
      absent := h.absent
      registered := by
        dsimp only
        rw [h.registered]
      armed := fun fd hfd => by
        dsimp only at hfd ⊢
        rcases eq_or_ne fd c with rfl | hfdc
        · exact Function.update_self ..
        · rw [Function.update_of_ne hfdc] at hfd ⊢
          exact h.armed fd hfd
      delivered := fun fd hfd hlisten => by
        obtain ⟨hopen, hdisarmed⟩ := h.delivered fd hfd hlisten
        have hfdc := hother fd hopen
        exact ⟨(Function.update_of_ne hfdc ..).trans hopen,
          (Function.update_of_ne hfdc ..).trans hdisarmed⟩
      nodup := h.nodup
      listen := (Function.update_of_ne hne.symm ..).trans h.listen }

/-- The record is filled for an event of a client. No worker has the socket of the event. -/
theorem Distinct.fill (h : a.Distinct) (hbatch : a.server.batch = (sockfd, epollin) :: rest)
    (hne : sockfd ≠ a.server.listenfd) : Distinct ⟨a.server.filled sockfd, a.job, lost⟩ where
  held := h.held
  apart := h.apart
  last k hk he := by
    have hmem : sockfd ∈ a.server.batch.map Prod.fst := by simp [hbatch]
    exact absurd (he ▸ hmem) (h.held k hk).2.2
  record _ hfree := Bool.noConfusion hfree
  filled _ := ⟨⟨epollin, rest, hbatch⟩, hne⟩
  absent := h.absent
  registered := h.registered
  armed := h.armed
  delivered := h.delivered
  nodup := h.nodup
  listen := h.listen

/-- Behind `pthread_create` a worker is the new one, or an old one with its old job, which is another
socket than that of the event. -/
theorem Distinct.spawn_cases (h : a.Distinct) (hmem : sockfd ∈ a.server.batch.map Prod.fst)
    (hk : (Function.update a.server.worker a.server.created .starting k).Active) :
    (k = a.server.created ∧ Function.update a.job a.server.created sockfd k = sockfd) ∨
      (k < a.server.created ∧ (a.server.worker k).Active ∧
        Function.update a.job a.server.created sockfd k = a.job k ∧ a.job k ≠ sockfd) := by
  rcases eq_or_ne k a.server.created with rfl | hkc
  · exact Or.inl ⟨rfl, Function.update_self ..⟩
  · rw [Function.update_of_ne hkc] at hk
    refine Or.inr ⟨h.lt_created hk, hk, Function.update_of_ne hkc .., ?_⟩
    rintro rfl
    exact (h.held k hk).2.2 hmem

/-- The worker for an event of a client is created. Nobody else has the socket of the event. -/
theorem Distinct.spawn (h : a.Distinct) (hfull : a.server.launching = true)
    (hbatch : a.server.batch = (sockfd, epollin) :: rest) :
    Distinct ⟨a.server.spawned rest, Function.update a.job a.server.created sockfd, lost⟩ := by
  have hmem : sockfd ∈ a.server.batch.map Prod.fst := by simp [hbatch]
  obtain ⟨hrecord, hne⟩ : sockfd = a.server.sockfd ∧ sockfd ≠ a.server.listenfd := by
    obtain ⟨⟨_, _, hturn⟩, hne⟩ := h.filled hfull
    rw [hbatch] at hturn
    cases hturn
    exact ⟨rfl, hne⟩
  obtain ⟨hopen, hdisarmed⟩ := h.delivered sockfd hmem hne
  have hnodup := h.nodup
  rw [hbatch, List.map_cons, List.nodup_cons] at hnodup
  exact
    { held := fun k hk => by
        rcases h.spawn_cases hmem hk with ⟨-, he⟩ | ⟨-, hold, he, -⟩
        · dsimp only
          rw [he]
          exact ⟨hopen, hdisarmed, hnodup.1⟩
        · dsimp only
          rw [he]
          obtain ⟨hopen, hdisarmed, hno⟩ := h.held k hold
          refine ⟨hopen, hdisarmed, fun hin => hno ?_⟩
          rw [hbatch]
          exact List.mem_cons_of_mem _ hin
      apart := fun j k hj hk he => by
        dsimp only at he
        rcases h.spawn_cases hmem hj with ⟨rfl, hej⟩ | ⟨-, hoj, hej, hnj⟩
        · rcases h.spawn_cases hmem hk with ⟨rfl, -⟩ | ⟨-, -, hek, hnk⟩
          · rfl
          · rw [hej, hek] at he
            exact absurd he.symm hnk
        · rcases h.spawn_cases hmem hk with ⟨rfl, hek⟩ | ⟨-, hok, hek, -⟩
          · rw [hej, hek] at he
            exact absurd he hnj
          · rw [hej, hek] at he
            exact h.apart j k hoj hok he
      last := fun k hk he => by
        rcases h.spawn_cases hmem hk with ⟨rfl, -⟩ | ⟨-, -, hek, hnk⟩
        · exact ⟨rfl, rfl⟩
        · dsimp only at he
          rw [hek] at he
          exact absurd (he.trans hrecord.symm) hnk
      record := fun _ _ => by
        show a.server.sockfd =
          Function.update a.job a.server.created sockfd (a.server.created + 1 - 1)
        rw [Nat.add_sub_cancel, Function.update_self, hrecord]
      filled := fun hfull => Bool.noConfusion hfull
      absent := fun k hk => by
        change a.server.created + 1 ≤ k at hk
        show Function.update a.server.worker a.server.created .starting k = .absent
        rw [Function.update_of_ne (by omega), h.absent k (by omega)]
      registered := h.registered
      armed := h.armed
      delivered := fun fd hfd => h.delivered fd (by
        rw [hbatch]
        exact List.mem_cons_of_mem _ hfd)
      nodup := hnodup.2
      listen := h.listen }

/-- A worker goes on with its work, or ends. -/
theorem Distinct.move (h : a.Distinct) {w : Worker} (hk : (a.server.worker k).Active) :
    Distinct ⟨a.server.move k w, a.job, lost⟩ := by
  have hactive : ∀ j, ((a.server.move k w).worker j).Active → (a.server.worker j).Active := by
    intro j hj
    rcases eq_or_ne j k with rfl | hjk
    · exact hk
    · rwa [OneshotServer.move_of_ne _ _ hjk] at hj
  exact
    { held := fun j hj => h.held j (hactive j hj)
      apart := fun i j hi hj => h.apart i j (hactive i hi) (hactive j hj)
      last := fun j hj => h.last j (hactive j hj)
      record := h.record
      filled := h.filled
      absent := fun j hj => by
        have hlt := h.lt_created hk
        change a.server.created ≤ j at hj
        rw [OneshotServer.move_of_ne _ _ (by omega), h.absent j hj]
      registered := h.registered
      armed := h.armed
      delivered := h.delivered
      nodup := h.nodup
      listen := h.listen }

/-- A worker closes the socket of its event and ends; the other workers have other sockets. -/
theorem Distinct.close (h : a.Distinct) (hk : (a.server.worker k).Active) :
    Distinct ⟨(a.server.close (a.job k)).move k .done, a.job, lost⟩ := by
  have hmove := @Distinct.move _ _ lost h .done hk
  have hother : ∀ j, ((a.server.move k .done).worker j).Active → a.job j ≠ a.job k := by
    intro j hj he
    rcases eq_or_ne j k with rfl | hjk
    · rw [OneshotServer.move_self] at hj
      exact hj
    · rw [OneshotServer.move_of_ne _ _ hjk] at hj
      exact hjk (h.apart j k hj hk he)
  exact
    { held := fun j hj => by
        obtain ⟨hopen, hdisarmed, hno⟩ := hmove.held j hj
        have hjk := hother j hj
        refine ⟨(Function.update_of_ne hjk ..).trans hopen, ?_, hno⟩
        exact (Function.update_of_ne hjk ..).trans hdisarmed
      apart := hmove.apart
      last := hmove.last
      record := hmove.record
      filled := hmove.filled
      absent := hmove.absent
      registered := by
        show Function.update a.server.registered _ false = Function.update a.server.opened _ false
        rw [h.registered]
      armed := fun fd hfd => by
        change Function.update a.server.armed (a.job k) false fd = true at hfd
        show Function.update a.server.opened (a.job k) false fd = true
        rcases eq_or_ne fd (a.job k) with rfl | hne
        · rw [Function.update_self] at hfd
          cases hfd
        · rw [Function.update_of_ne hne] at hfd ⊢
          exact h.armed fd hfd
      delivered := fun fd hfd hlisten => by
        have hne : fd ≠ a.job k := by
          rintro rfl
          exact (h.held k hk).2.2 hfd
        obtain ⟨hopen, hdisarmed⟩ := h.delivered fd hfd hlisten
        exact ⟨(Function.update_of_ne hne ..).trans hopen,
          (Function.update_of_ne hne ..).trans hdisarmed⟩
      nodup := h.nodup
      listen := by
        show Function.update a.server.opened (a.job k) false a.server.listenfd = false
        rcases eq_or_ne a.server.listenfd (a.job k) with he | hne
        · rw [he, Function.update_self]
        · rw [Function.update_of_ne hne, h.listen] }

/-- A worker that finds nothing to read ends; its socket is still registered and is not armed. -/
theorem Distinct.reset (h : a.Distinct) (hk : (a.server.worker k).Active) :
    Distinct ⟨(a.server.reset_oneshot (a.job k)).move k .done, a.job, lost⟩ := by
  have hreg : a.server.registered (a.job k) = true := by
    rw [h.registered, (h.held k hk).1]
  have hsame : a.server.reset_oneshot (a.job k) = a.server := if_pos (.inr hreg)
  rw [hsame]
  exact h.move hk

/-- A step keeps the sockets of the workers apart, as long as they serve their own ones and can be
created. -/
theorem Distinct.step (h : a.Distinct) (hown : a.OneEach) (hmade : e ≠ .create false)
    (hstep : a.step e = some b) : b.Distinct := by
  rw [HandOver.step, Option.map_eq_some_iff] at hstep
  obtain ⟨t, ht, rfl⟩ := hstep
  cases OneshotServer.Stepped.of_step ht with
  | wait hbatch hnodup harmed => exact h.wait hbatch hnodup harmed
  | refuse hfree hbatch => exact h.turn hfree hbatch
  | accept hfree hbatch hfresh hne =>
      have hturn := @Distinct.turn _ _ _ _ a.lost h hfree hbatch
      exact hturn.accept hfresh hne
  | fill connfd hfree hbatch hclient => exact h.fill hbatch hclient
  | ignore connfd hfree hbatch hclient => exact h.turn hfree hbatch
  | spawn hfull hbatch =>
      rw [jobs, hbatch]
      exact h.spawn hfull hbatch
  | spawnFails _ _ => exact absurd rfl hmade
  | start hk => exact h.move (by rw [hk]; trivial)
  | receive k hret => exact { h with }
  | close hk =>
      rw [hown.own _ _ hk]
      exact h.close (by rw [hk]; trivial)
  | reset hk =>
      rw [hown.own _ _ hk]
      exact h.reset (by rw [hk]; trivial)

/-- Workers that serve their own sockets serve different ones. -/
theorem Distinct.oneEach (h : a.Distinct) (hserved : a.lost = false)
    (hown : ∀ k c, a.server.worker k = .serving c → c = a.job k) : a.OneEach where
  served := hserved
  own := hown
  alone j k c hj hk := by
    refine h.apart j k (by rw [hj]; trivial) (by rw [hk]; trivial) ?_
    rw [← hown j c hj, ← hown k c hk]

/-- A worker that reads its argument in time serves the socket of its event; a late one serves that
of a later event. -/
theorem Distinct.start_own (h : a.Distinct) (hk : a.server.worker k = .starting) :
    a.server.sockfd = a.job k ↔ k + 1 = a.server.created ∧ a.server.launching = false := by
  have hactive : (a.server.worker k).Active := by rw [hk]; trivial
  constructor
  · intro he
    exact h.last k hactive he.symm
  · rintro ⟨he, hfree⟩
    rw [h.record (by omega) hfree, ← he, Nat.add_sub_cancel]

/-- The jobs of the workers that have been created stay. -/
theorem Distinct.jobs_eq (h : a.Distinct) (hk : (a.server.worker k).Active) :
    a.jobs e k = a.job k := by
  have hne := Nat.ne_of_lt (h.lt_created hk)
  cases e with
  | create made =>
      rw [jobs]
      cases a.server.batch with
      | nil => rfl
      | cons p rest => exact Function.update_of_ne hne ..
  | _ => rfl

/-- No step but that of a worker that reads its argument makes a worker serve a socket. -/
theorem serving_before {t : OneshotServer} (hstep : s.Stepped e t)
    (hstart : ∀ k, e ≠ .start k) (hk : t.worker k = .serving c) : s.worker k = .serving c := by
  have hdone : ∀ {u : OneshotServer} {j : Nat}, u.worker = s.worker →
      (u.move j .done).worker k = .serving c → s.worker k = .serving c := by
    intro u j hu hserving
    rcases eq_or_ne k j with rfl | hkj
    · rw [OneshotServer.move_self] at hserving
      cases hserving
    · rw [OneshotServer.move_of_ne _ _ hkj, hu] at hserving
      exact hserving
  cases hstep with
  | wait => exact hk
  | refuse => exact hk
  | accept hfree hbatch hfresh hne =>
      rw [OneshotServer.accepted, OneshotServer.addfd, OneshotServer.ctlAdd] at hk
      split at hk
      · exact hk
      · exact hk
  | fill => exact hk
  | spawn hfull hbatch =>
      change Function.update s.worker s.created .starting k = .serving c at hk
      rcases eq_or_ne k s.created with rfl | hkc
      · rw [Function.update_self] at hk
        cases hk
      · rwa [Function.update_of_ne hkc] at hk
  | ignore => exact hk
  | spawnFails => exact hk
  | start _ => exact absurd rfl (hstart _)
  | receive => exact hk
  | close _ => exact hdone rfl hk
  | reset _ =>
      refine hdone ?_ hk
      rw [OneshotServer.reset_oneshot, OneshotServer.ctlAdd]
      split <;> rfl

/-- A step after which every worker serves its own socket is one that reads in time. -/
theorem OneEach.step_iff (h : a.Distinct) (hown : a.OneEach) (hstep : a.step e = some b) :
    b.OneEach ↔ a.ReadsInTime e := by
  by_cases hmade : e = .create false
  · -- the event has no worker
    subst hmade
    refine iff_of_false (fun hb => ?_) fun hmade => Bool.noConfusion hmade
    rw [HandOver.step, Option.map_eq_some_iff] at hstep
    obtain ⟨t, -, rfl⟩ := hstep
    have hserved := hb.served
    simp at hserved
  have hdistinct := h.step hown hmade hstep
  rw [HandOver.step, Option.map_eq_some_iff] at hstep
  obtain ⟨t, ht, rfl⟩ := hstep
  have hserved : (a.lost || decide (e = .create false)) = false := by
    rw [hown.served, decide_eq_false hmade, Bool.or_self]
  have hstepped := OneshotServer.Stepped.of_step ht
  by_cases hstart : ∀ k, e ≠ .start k
  · -- the workers serve what they served before
    refine iff_of_true (hdistinct.oneEach hserved fun k c hk => ?_) ?_
    · have hold := serving_before hstepped hstart hk
      dsimp only
      rw [h.jobs_eq (by rw [hold]; trivial)]
      exact hown.own k c hold
    · cases e with
      | start k => exact absurd rfl (hstart k)
      | create made =>
          cases made with
          | true => rfl
          | false => exact absurd rfl hmade
      | _ => trivial
  · simp only [ne_eq, not_forall, not_not] at hstart
    obtain ⟨k, rfl⟩ := hstart
    cases hstepped with
    | start hk =>
        rw [ReadsInTime, ← h.start_own hk]
        constructor
        · intro hb
          exact hb.own k _ (OneshotServer.move_self ..)
        · intro he
          refine hdistinct.oneEach hserved fun j c hj => ?_
          dsimp only at hj
          rcases eq_or_ne j k with rfl | hjk
          · rw [OneshotServer.move_self] at hj
            cases hj
            exact he
          · rw [OneshotServer.move_of_ne _ _ hjk] at hj
            exact hown.own j c hj

/-- For every batch of events and every interleaving of the main loop with the workers: throughout a
run every event has its worker, every worker serves the socket of its own event and no two workers
serve one socket, exactly when `pthread_create` does not fail and every worker reads its argument
before the record is filled for the next event. -/
theorem oneEach_iff {l : List OneshotEvent} (hrun : runEvents step (start listenfd) l = some b) :
    (Along step (fun a _ => a.OneEach) (start listenfd) l ∧ b.OneEach) ↔
      Along step ReadsInTime (start listenfd) l := by
  refine always_iff_along_of (fun a e b h hown hstep hb => ?_)
    (fun _ _ _ h hown hstep => OneEach.step_iff h hown hstep) distinct_start oneEach_start hrun
  refine h.step hown ?_ hstep
  rintro rfl
  exact Bool.noConfusion ((OneEach.step_iff h hown hstep).mp hb)

/-- Two clients are ready, and the first worker reads its argument between their events. -/
theorem oneEach_iff_in_time : ∃ b,
    runEvents step (start 3) [.wait [(3, true)], .dispatch (some 5), .wait [(3, true)],
      .dispatch (some 6), .wait [(5, true), (6, true)], .dispatch none, .create true, .start 0,
      .dispatch none, .create true, .start 1] = some b ∧ b.server.worker 0 = .serving 5 ∧
      b.server.worker 1 = .serving 6 ∧ b.OneEach := by
  have hall : ∀ b, runEvents step (start 3) [.wait [(3, true)], .dispatch (some 5),
      .wait [(3, true)], .dispatch (some 6), .wait [(5, true), (6, true)], .dispatch none,
      .create true, .start 0, .dispatch none, .create true, .start 1] = some b → b.OneEach := by
    intro b hrun
    exact ((oneEach_iff hrun).mpr ⟨trivial, trivial, trivial, trivial, trivial, trivial, rfl,
      ⟨rfl, rfl⟩, trivial, rfl, ⟨rfl, rfl⟩, trivial⟩).2
  exact ⟨_, rfl, rfl, rfl, hall _ rfl⟩

/-- Two clients are ready, and both events are dispatched before the first worker runs: both workers
serve the second client, and nobody serves the first one. -/
theorem one_client_served_twice : ∃ b,
    runEvents step (start 3) [.wait [(3, true)], .dispatch (some 5), .wait [(3, true)],
      .dispatch (some 6), .wait [(5, true), (6, true)], .dispatch none, .create true,
      .dispatch none, .create true, .start 0, .start 1] = some b ∧
      b.server.worker 0 = .serving 6 ∧ b.server.worker 1 = .serving 6 ∧ b.job 0 = 5 ∧
      ¬b.OneEach := by
  refine ⟨_, rfl, rfl, rfl, rfl, fun h => ?_⟩
  have hsame := h.alone 0 1 6 rfl rfl
  cases hsame

-- it is the store that comes too early: the second worker does not exist yet
example : ∃ b,
    runEvents step (start 3) [.wait [(3, true)], .dispatch (some 5), .wait [(3, true)],
      .dispatch (some 6), .wait [(5, true), (6, true)], .dispatch none, .create true,
      .dispatch none, .start 0] = some b ∧ b.server.created = 1 ∧
      b.server.worker 0 = .serving 6 ∧ b.job 0 = 5 :=
  ⟨_, rfl, rfl, rfl, rfl⟩

end Steps

end HandOver

end CLanguageLearning.Epoll
