import CLanguageLearning.Timer.NonactiveConn

/-!
# Runs of the server that closes idle connections

Between the steps of the server the open connections and the timers in the list belong to each other
(`Consistent`). An event in the batch is always one of a descriptor that is still open: a connection
is closed in the turn for its own event, which the batch has once, or behind the batch. The number
of a closed descriptor can come back in the same batch, and its entry of `users` then gets the new
timer.
-/

set_option autoImplicit false

namespace CLanguageLearning.Timer

open CLanguageLearning.Foundation

namespace NonactiveConn

/-- The connections of the entries are closed and their timers freed. -/
def dropping (s : NonactiveConn) (D : List Entry) : NonactiveConn :=
  { s with
    opened := fun fd => s.opened fd && decide (fd ∉ D.map Entry.user_data)
    history := { s.history with
      closed := s.history.closed ++ D.map Entry.user_data
      freed := s.history.freed ++ ids D } }

/-- A connection is accepted and gets a timer, which is put into the list. -/
def admitting (s : NonactiveConn) (connfd timer : Nat) (lst : SortTimerLst) : NonactiveConn :=
  { s with
    timer_lst := lst
    users := Function.update s.users connfd ⟨connfd, some timer⟩
    opened := Function.update s.opened connfd true
    history := { s.history with
      accepted := s.history.accepted ++ [connfd]
      allocated := s.history.allocated ++ [timer] } }

/-- What holds between two steps. -/
structure Consistent (s : NonactiveConn) (L : List Entry) : Prop where
  holds : Holds s.timer_lst L
  corresponds : s.Corresponds L
  callback : ∀ e ∈ L, e.cb_func = CB_FUNC
  sockfd : ∀ fd, s.opened fd = true → fd < FD_LIMIT ∧ (s.users fd).sockfd = fd
  batch : ∀ l, s.batch = some l → (l.map Prod.fst).Nodup ∧
    ∀ p ∈ l, p.1 = s.listenfd ∨ p.1 = s.pipefd ∨ s.opened p.1 = true
  balanced : s.Balanced

end NonactiveConn

section Calls

variable {s t : NonactiveConn} {L L' D : List Entry} {e e' : Entry} {fuel : Nat}
  {lst : SortTimerLst}

open NonactiveConn

theorem user_run {fd : Nat} (h : fd < FD_LIMIT) : (user fd).run s = .ok (s.users fd, s) := by
  simp [user, h]

theorem modifyUser_run {fd : Nat} (h : fd < FD_LIMIT) (f : ClientData → ClientData) :
    (modifyUser fd f).run s = .ok ((), s.mapUser fd f) := by
  rw [modifyUser, if_pos h]
  rfl

theorem onTimers_run {x : Exec SortTimerLst Unit} (h : x.run s.timer_lst = .ok ((), lst)) :
    (onTimers x).run s = .ok ((), { s with timer_lst := lst }) := by
  change (x.run s.timer_lst).map _ = _
  rw [h]
  rfl

theorem cb_func_run {fd : Nat} (hfd : fd < FD_LIMIT) (hsock : (s.users fd).sockfd = fd) :
    (cb_func fd).run s = .ok ((), s.closing fd) := by
  rw [cb_func, run_bind_of_ok (user_run hfd), hsock]
  rfl

theorem dropping_nil (s : NonactiveConn) : s.dropping [] = s := by
  simp [dropping]

theorem dropping_cons (s : NonactiveConn) (e : Entry) (D : List Entry) :
    s.dropping (e :: D) = ((s.closing e.user_data).freeing e.id).dropping D := by
  have hopened : ∀ fd, (s.opened fd && decide (fd ∉ (e :: D).map Entry.user_data)) =
      (Function.update s.opened e.user_data false fd &&
        decide (fd ∉ D.map Entry.user_data)) := by
    intro fd
    by_cases hfd : fd = e.user_data
    · simp [hfd]
    · simp [hfd]
  simp only [dropping, closing, freeing, List.append_assoc]
  rw [funext hopened]
  rfl

/-- The callbacks of a tick close the connections of their timers. -/
theorem runCalls_run (hcall : ∀ e ∈ D, e.cb_func = CB_FUNC ∧ e.user_data < FD_LIMIT ∧
      (s.users e.user_data).sockfd = e.user_data) :
    (runCalls (D.map Entry.call)).run s = .ok ((), s.dropping D) := by
  induction D generalizing s with
  | nil => rw [dropping_nil]; rfl
  | cons e D ih =>
      obtain ⟨⟨hcb, hfd, hsock⟩, hD⟩ := List.forall_mem_cons.mp hcall
      have hrest := ih (s := (s.closing e.user_data).freeing e.id) hD
      rw [List.map_cons, runCalls, dropping_cons, ← hrest]
      rw [if_pos (show e.call.cb_func = CB_FUNC from hcb)]
      exact run_bind_of_ok (cb_func_run hfd hsock) _

/-- A tick with its callbacks. -/
theorem timer_handler_run {cur : Int} (hrun : (tick cur fuel).run s.timer_lst = .ok ((), lst))
    (hcalls : lst.calls = s.timer_lst.calls ++ D.map Entry.call)
    (hcall : ∀ e ∈ D, e.cb_func = CB_FUNC ∧ e.user_data < FD_LIMIT ∧
      (s.users e.user_data).sockfd = e.user_data) :
    (timer_handler fuel cur).run s =
      .ok ((), ({ s with timer_lst := lst } : NonactiveConn).dropping D) := by
  have hdrop : lst.calls.drop s.timer_lst.calls.length = D.map Entry.call := by
    rw [hcalls, List.drop_left]
  rw [timer_handler, run_bind_of_ok (run_get s), run_bind_of_ok (onTimers_run hrun),
    run_bind_of_ok (run_get _), hdrop]
  exact runCalls_run hcall

theorem acceptClient_run {a : Answers} (hfd : a.connfd < FD_LIMIT)
    (hrun : ((Op.add ⟨a.timer, a.cur + 3 * TIMESLOT, CB_FUNC, a.connfd⟩).exec add_timer fuel).run
      s.timer_lst = .ok ((), lst)) :
    (acceptClient fuel a).run s = .ok ((), s.admitting a.connfd a.timer lst) := by
  obtain ⟨_, lst₁, hnew, hadd⟩ := run_bind_eq_ok hrun
  let s₁ := (s.opening a.connfd).mapUser a.connfd fun u => { u with sockfd := a.connfd }
  let s₂ := ({ s₁ with timer_lst := lst₁ } : NonactiveConn).allocating a.timer
  let s₃ := s₂.mapUser a.connfd fun u => { u with timer := some a.timer }
  have hnew' : (onTimers (newTimer a.timer (a.cur + 3 * TIMESLOT) CB_FUNC a.connfd)).run s₁ =
      .ok ((), { s₁ with timer_lst := lst₁ }) := onTimers_run hnew
  have hadd' : (onTimers (add_timer fuel (some a.timer))).run s₃ =
      .ok ((), { s₃ with timer_lst := lst }) := onTimers_run hadd
  have hend : { s₃ with timer_lst := lst } = s.admitting a.connfd a.timer lst := by
    simp only [s₃, s₂, s₁, mapUser, allocating, opening, admitting, Function.update_self,
      Function.update_idem]
  rw [acceptClient, ← hend]
  refine (run_bind_of_ok (t := s.opening a.connfd) (a := ()) rfl _).trans ?_
  refine (run_bind_of_ok (modifyUser_run hfd _) _).trans ?_
  refine (run_bind_of_ok hnew' _).trans ?_
  refine (run_bind_of_ok (t := s₂) (a := ()) rfl _).trans ?_
  exact (run_bind_of_ok (modifyUser_run hfd _) _).trans hadd'

/-- The end of a client: its connection is closed and its timer deleted. -/
theorem closeClient_run (hfd : e.user_data < FD_LIMIT)
    (hsock : (s.users e.user_data).sockfd = e.user_data)
    (hrun : (del_timer (some e.id)).run s.timer_lst = .ok ((), lst)) :
    (closeClient e.user_data (some e.id)).run s =
      .ok ((), ({ s with timer_lst := lst } : NonactiveConn).dropping [e]) := by
  have hdel : (onTimers (del_timer (some e.id))).run (s.closing e.user_data) =
      .ok ((), { s.closing e.user_data with timer_lst := lst }) := onTimers_run hrun
  rw [closeClient, run_bind_of_ok (cb_func_run hfd hsock)]
  refine (run_bind_of_ok hdel _).trans ?_
  rw [dropping_cons, dropping_nil]
  rfl

end Calls

/-! ## What the steps keep -/

namespace NonactiveConn

variable {s t : NonactiveConn} {L L' D : List Entry} {e e' : Entry} {lst : SortTimerLst}
  {c x : Nat} {expire : Int} {p : Nat × Bool} {rest : List (Nat × Bool)}

/-- A connection has one timer in the list. -/
theorem Corresponds.eq_of_user_data (h : s.Corresponds L) (he : e ∈ L) (he' : e' ∈ L)
    (huser : e.user_data = e'.user_data) : e = e' := by
  have hid : some e.id = some e'.id := by
    rw [← (h.client e he).2, ← (h.client e' he').2, huser]
  exact List.inj_on_of_nodup_map h.nodup he he' (Option.some.inj hid)

theorem Consistent.start (listenfd pipefd : Nat) (users : Nat → ClientData) :
    (start listenfd pipefd users).Consistent [] where
  holds := holds_empty
  corresponds := ⟨List.nodup_nil, (fun fd hopen => by cases hopen), fun e he => by cases he⟩
  callback := fun e he => by cases he
  sockfd := fun fd hopen => by cases hopen
  batch := fun l hl => by cases hl
  balanced := ⟨fun fd => rfl, fun x => rfl⟩

/-- A step that touches neither connections nor timers. -/
theorem Consistent.congr (h : s.Consistent L) (hlst : t.timer_lst = s.timer_lst)
    (husers : t.users = s.users) (hopened : t.opened = s.opened) (hhistory : t.history = s.history)
    (hbatch : ∀ l, t.batch = some l → (l.map Prod.fst).Nodup ∧
      ∀ p ∈ l, p.1 = t.listenfd ∨ p.1 = t.pipefd ∨ s.opened p.1 = true) : t.Consistent L where
  holds := by
    rw [hlst]
    exact h.holds
  corresponds := by
    refine ⟨h.corresponds.nodup, ?_, ?_⟩
    · rw [hopened, husers]
      exact h.corresponds.timer
    · rw [hopened, husers]
      exact h.corresponds.client
  callback := h.callback
  sockfd := by
    rw [hopened, husers]
    exact h.sockfd
  batch := by
    rw [hopened]
    exact hbatch
  balanced := by
    constructor
    · rw [hopened, hhistory]
      exact h.balanced.connections
    · rw [hlst, hhistory]
      exact h.balanced.timers

/-- The turn for the first event of the batch begins. -/
theorem Consistent.pop (h : s.Consistent L) (hbatch : s.batch = some (p :: rest)) :
    ({ s with batch := some rest } : NonactiveConn).Consistent L := by
  refine h.congr rfl rfl rfl rfl ?_
  intro l hl
  cases hl
  obtain ⟨hnodup, hopened⟩ := h.batch _ hbatch
  rw [List.map_cons] at hnodup
  exact ⟨hnodup.of_cons, fun q hq => hopened q (List.mem_cons_of_mem p hq)⟩

theorem admitting_self : (s.admitting c x lst).opened c = true ∧
    (s.admitting c x lst).users c = ⟨c, some x⟩ :=
  ⟨Function.update_self .., Function.update_self ..⟩

theorem admitting_of_ne {fd : Nat} (hne : fd ≠ c) :
    (s.admitting c x lst).opened fd = s.opened fd ∧
      (s.admitting c x lst).users fd = s.users fd :=
  ⟨Function.update_of_ne hne .., Function.update_of_ne hne ..⟩

theorem mem_of_perm_cons (hperm : L'.Perm (e' :: L)) : e ∈ L' ↔ e = e' ∨ e ∈ L := by
  rw [hperm.mem_iff, List.mem_cons]

/-- The new connection has its timer, the others keep theirs. -/
theorem Corresponds.admitting (h : s.Corresponds L) (hfresh : s.opened c = false)
    (hnodup : (ids L').Nodup) (hperm : L'.Perm (⟨x, expire, CB_FUNC, c⟩ :: L)) :
    (s.admitting c x lst).Corresponds L' where
  nodup := hnodup
  timer := by
    intro fd hopen
    by_cases hne : fd = c
    · subst hne
      exact ⟨_, (mem_of_perm_cons hperm).mpr (.inl rfl), by rw [admitting_self.2], rfl⟩
    · rw [(admitting_of_ne hne).1] at hopen
      obtain ⟨e, he, htimer, huser⟩ := h.timer fd hopen
      refine ⟨e, (mem_of_perm_cons hperm).mpr (.inr he), ?_, huser⟩
      rw [(admitting_of_ne hne).2, htimer]
  client := by
    intro e he
    rcases (mem_of_perm_cons hperm).mp he with rfl | he
    · exact ⟨admitting_self.1, by rw [admitting_self.2]⟩
    · have hne : e.user_data ≠ c := by
        rintro rfl
        rw [(h.client e he).1] at hfresh
        cases hfresh
      rw [(admitting_of_ne hne).1, (admitting_of_ne hne).2]
      exact h.client e he

/-- One more connection and one more timer. -/
theorem Consistent.balanced_admitting (h : s.Consistent L) (hfresh : s.opened c = false)
    (hnew : s.timer_lst.timers x = none) (hlst : Holds lst L')
    (hperm : L'.Perm (⟨x, expire, CB_FUNC, c⟩ :: L)) : (s.admitting c x lst).Balanced where
  connections := by
    intro fd
    have hold := h.balanced.connections fd
    show (s.history.accepted ++ [c]).count fd = _
    rw [List.count_append, hold]
    by_cases hne : fd = c
    · subst hne
      rw [admitting_self.1, hfresh]
      simp [NonactiveConn.admitting]
    · rw [(admitting_of_ne hne).1]
      simp [NonactiveConn.admitting, Ne.symm hne]
  timers := by
    intro y
    have hold := h.balanced.timers y
    have hids : y ∈ ids L' ↔ y = x ∨ y ∈ ids L := by
      rw [(ids_perm hperm).mem_iff, ids_cons, List.mem_cons]
    show (s.history.allocated ++ [x]).count y = s.history.freed.count y +
      if lst.inMemory y = true then 1 else 0
    simp only [List.count_append, hold, h.holds.memory, hlst.memory, hids]
    by_cases hne : y = x
    · subst hne
      have hx : y ∉ ids L := h.holds.toLinked.fresh hnew
      simp [hx]
    · simp [hne, Ne.symm hne]

/-- A new connection with its timer. -/
theorem Consistent.admitting (h : s.Consistent L) (hfd : c < FD_LIMIT) (hfresh : s.opened c = false)
    (hnew : s.timer_lst.timers x = none) (hlst : Holds lst L')
    (hperm : L'.Perm (⟨x, expire, CB_FUNC, c⟩ :: L)) :
    (s.admitting c x lst).Consistent L' where
  holds := hlst
  corresponds := h.corresponds.admitting hfresh hlst.nodup hperm
  callback := by
    intro e he
    rcases (mem_of_perm_cons hperm).mp he with rfl | he
    · rfl
    · exact h.callback e he
  sockfd := by
    intro fd hopen
    by_cases hne : fd = c
    · subst hne
      exact ⟨hfd, by rw [admitting_self.2]⟩
    · rw [(admitting_of_ne hne).1] at hopen
      rw [(admitting_of_ne hne).2]
      exact h.sockfd fd hopen
  batch := by
    intro l hl
    obtain ⟨hnodup, hopened⟩ := h.batch l hl
    refine ⟨hnodup, fun p hp => ?_⟩
    rcases hopened p hp with hp | hp | hp
    · exact .inl hp
    · exact .inr (.inl hp)
    · have hne : p.1 ≠ c := by
        rintro heq
        rw [heq, hfresh] at hp
        cases hp
      exact .inr (.inr ((admitting_of_ne hne).1.trans hp))
  balanced := h.balanced_admitting hfresh hnew hlst hperm

theorem opened_dropping (fd : Nat) :
    (({ s with timer_lst := lst } : NonactiveConn).dropping D).opened fd = true ↔
      s.opened fd = true ∧ fd ∉ D.map Entry.user_data := by
  simp [NonactiveConn.dropping]

/-- A client that keeps its timer is not among those that are closed. -/
theorem Corresponds.kept (h : s.Corresponds L) (hsplit : L.Perm (D ++ L')) :
    ∀ e ∈ L', e.user_data ∉ D.map Entry.user_data := by
  intro e he hclosed
  obtain ⟨d, hd, huser⟩ := List.mem_map.mp hclosed
  have hdL : d ∈ L := hsplit.mem_iff.mpr (List.mem_append_left _ hd)
  have heL : e ∈ L := hsplit.mem_iff.mpr (List.mem_append_right _ he)
  have hnodup : (ids D ++ ids L').Nodup := by
    rw [← ids_append]
    exact (ids_perm hsplit).nodup_iff.mp h.nodup
  have hdisj := (List.nodup_append.mp hnodup).2.2
  exact hdisj d.id (mem_ids hd) e.id (mem_ids he) (by rw [h.eq_of_user_data hdL heL huser])

/-- The connections that stay keep their timers. -/
theorem Corresponds.dropping (h : s.Corresponds L) (hsplit : L.Perm (D ++ L'))
    (hnodup : (ids L').Nodup) :
    (({ s with timer_lst := lst } : NonactiveConn).dropping D).Corresponds L' where
  nodup := hnodup
  timer := by
    intro fd hfd
    obtain ⟨hopen, hnot⟩ := (opened_dropping fd).mp hfd
    obtain ⟨e, he, htimer, rfl⟩ := h.timer fd hopen
    rcases List.mem_append.mp (hsplit.mem_iff.mp he) with he | he
    · exact absurd (List.mem_map_of_mem he) hnot
    · exact ⟨e, he, htimer, rfl⟩
  client := by
    intro e he
    obtain ⟨hopen, htimer⟩ := h.client e (hsplit.mem_iff.mpr (List.mem_append_right _ he))
    exact ⟨(opened_dropping _).mpr ⟨hopen, h.kept hsplit e he⟩, htimer⟩

/-- Every connection that is closed was open, and every timer that is freed was in memory. -/
theorem Consistent.balanced_dropping (h : s.Consistent L) (hsplit : L.Perm (D ++ L'))
    (hlst : Holds lst L') :
    (({ s with timer_lst := lst } : NonactiveConn).dropping D).Balanced := by
  have hmem : ∀ d ∈ D, d ∈ L := fun d hd => hsplit.mem_iff.mpr (List.mem_append_left _ hd)
  have hnodup : (ids D ++ ids L').Nodup := by
    rw [← ids_append]
    exact (ids_perm hsplit).nodup_iff.mp h.corresponds.nodup
  obtain ⟨hnodupD, -, hdisj⟩ := List.nodup_append.mp hnodup
  constructor
  case connections =>
    intro fd
    have hnodupU : (D.map Entry.user_data).Nodup := by
      refine List.Nodup.map_on ?_ hnodupD.of_map
      intro d hd d' hd' huser
      exact h.corresponds.eq_of_user_data (hmem d hd) (hmem d' hd') huser
    have hold := h.balanced.connections fd
    show s.history.accepted.count fd = (s.history.closed ++ D.map Entry.user_data).count fd + _
    rw [hold, List.count_append, hnodupU.count]
    simp only [opened_dropping]
    by_cases hfd : fd ∈ D.map Entry.user_data
    · obtain ⟨d, hd, rfl⟩ := List.mem_map.mp hfd
      have hopened := (h.corresponds.client d (hmem d hd)).1
      simp [hfd, hopened]
    · simp [hfd]
  case timers =>
    intro y
    have hold := h.balanced.timers y
    have hids : y ∈ ids L ↔ y ∈ ids D ∨ y ∈ ids L' := by
      rw [(ids_perm hsplit).mem_iff, ids_append, List.mem_append]
    show s.history.allocated.count y = (s.history.freed ++ ids D).count y +
      if lst.inMemory y = true then 1 else 0
    rw [hold, List.count_append, hnodupD.count]
    simp only [h.holds.memory, hlst.memory, hids]
    by_cases hy : y ∈ ids D
    · have hnot : y ∉ ids L' := fun hy' => hdisj y hy y hy' rfl
      simp [hy, hnot]
    · simp [hy]

/-- Connections are closed and their timers freed. -/
theorem Consistent.dropping (h : s.Consistent L) (hsplit : L.Perm (D ++ L')) (hlst : Holds lst L')
    (hbatch : ∀ l, s.batch = some l → ∀ p ∈ l, p.1 ∉ D.map Entry.user_data) :
    (({ s with timer_lst := lst } : NonactiveConn).dropping D).Consistent L' where
  holds := hlst
  corresponds := h.corresponds.dropping hsplit hlst.nodup
  callback := fun e he => h.callback e (hsplit.mem_iff.mpr (List.mem_append_right _ he))
  sockfd := fun fd hfd => h.sockfd fd ((opened_dropping fd).mp hfd).1
  batch := by
    intro l hl
    obtain ⟨hl', hopened⟩ := h.batch l hl
    refine ⟨hl', fun p hp => ?_⟩
    rcases hopened p hp with hp' | hp' | hp'
    · exact .inl hp'
    · exact .inr (.inl hp')
    · exact .inr (.inr ((opened_dropping _).mpr ⟨hp', hbatch l hl p hp⟩))
  balanced := h.balanced_dropping hsplit hlst

/-- A timer is put off. -/
theorem Consistent.adjusting (h : s.Consistent L) (hlst : Holds lst L')
    (hcalls : (L'.map Entry.call).Perm (L.map Entry.call)) :
    ({ s with timer_lst := lst } : NonactiveConn).Consistent L' := by
  have hfrom : ∀ e ∈ L', ∃ d ∈ L, d.id = e.id ∧ d.cb_func = e.cb_func ∧
      d.user_data = e.user_data := by
    intro e he
    obtain ⟨d, hd, hcall⟩ := List.mem_map.mp (hcalls.mem_iff.mp (List.mem_map_of_mem he))
    simp only [Entry.call, Call.mk.injEq] at hcall
    exact ⟨d, hd, hcall⟩
  have hids : (ids L').Perm (ids L) := by
    have hmap := hcalls.map Call.timer
    rwa [List.map_map, List.map_map] at hmap
  refine ⟨hlst, ⟨hlst.nodup, ?_, ?_⟩, ?_, h.sockfd, h.batch, h.balanced.connections, ?_⟩
  · intro fd hopen
    obtain ⟨e, he, htimer, rfl⟩ := h.corresponds.timer fd hopen
    obtain ⟨d, hd, hcall⟩ := List.mem_map.mp (hcalls.mem_iff.mpr (List.mem_map_of_mem he))
    simp only [Entry.call, Call.mk.injEq] at hcall
    obtain ⟨hid, -, huser⟩ := hcall
    exact ⟨d, hd, by rw [htimer, hid], huser⟩
  · intro e he
    obtain ⟨d, hd, hid, -, huser⟩ := hfrom e he
    rw [← hid, ← huser]
    exact h.corresponds.client d hd
  · intro e he
    obtain ⟨d, hd, -, hcb, -⟩ := hfrom e he
    rw [← hcb]
    exact h.callback d hd
  · intro y
    have hold := h.balanced.timers y
    simp only [h.holds.memory, ← hids.mem_iff] at hold
    simpa only [hlst.memory] using hold

/-! ## The turns of the loop -/

/-- The branch for the listening socket returns. -/
theorem Consistent.accept (h : s.Consistent L) {a : Answers} (hfd : a.connfd < FD_LIMIT)
    (hfresh : s.opened a.connfd = false) (hnew : s.timer_lst.timers a.timer = none) :
    ∃ t L', Returns (fun fuel => acceptClient fuel a) s ((), t) ∧ t.Consistent L' := by
  obtain ⟨lst, L', ⟨N, hN⟩, hlst, hperm, -⟩ := Op.exec_holds h.holds
    (.add ⟨a.timer, a.cur + 3 * TIMESLOT, CB_FUNC, a.connfd⟩) trivial hnew
  refine ⟨s.admitting a.connfd a.timer lst, L', ⟨N, fun fuel hfuel => ?_⟩,
    h.admitting hfd hfresh hnew hlst hperm⟩
  exact acceptClient_run hfd (hN fuel hfuel)

/-- The branch for a client whose event has just been taken from the batch returns. -/
theorem Consistent.recv (h : s.Consistent L) {a : Answers} {sockfd : Nat}
    (hopen : s.opened sockfd = true)
    (hbatch : ∀ l, s.batch = some l → ∀ p ∈ l, p.1 ≠ sockfd) :
    ∃ t L', Returns (fun fuel => recvClient fuel sockfd a) s ((), t) ∧ t.Consistent L' := by
  obtain ⟨e, he, htimer, rfl⟩ := h.corresponds.timer sockfd hopen
  obtain ⟨hfd, hsock⟩ := h.sockfd _ hopen
  have huser := user_run (s := s) hfd
  have hclose : ∃ t L', (closeClient e.user_data (s.users e.user_data).timer).run s = .ok ((), t) ∧
      t.Consistent L' := by
    obtain ⟨lst, L', ⟨N, hN⟩, hlst, hperm, -⟩ :=
      Op.exec_holds h.holds (.del e.id) ⟨e, he, rfl⟩ trivial
    have hsplit : L.Perm ([e] ++ L') := by
      obtain ⟨A, B, rfl⟩ := List.append_of_mem he
      have hkept : Op.kept (A ++ e :: B) (.del e.id) = A ++ B := filter_mid h.corresponds.nodup
      rw [hkept] at hperm
      exact List.perm_middle.trans (hperm.symm.cons e)
    refine ⟨_, L', ?_, h.dropping hsplit hlst ?_⟩
    · rw [htimer]
      exact closeClient_run hfd hsock (hN N le_rfl)
    · intro l hl p hp
      simpa using hbatch l hl p hp
  cases hret : a.ret with
  | data =>
      obtain ⟨lst, L', ⟨N, hN⟩, hlst, hperm, -⟩ :=
        Op.exec_holds h.holds (.adjust e.id (a.cur + 3 * TIMESLOT)) ⟨e, he, rfl⟩ trivial
      have hcalls : (L'.map Entry.call).Perm (L.map Entry.call) :=
        (hperm.map Entry.call).trans (.of_eq (Op.map_call_retime ..))
      have hcall : ∀ fuel, (recvClient fuel e.user_data a).run s =
          (onTimers ((Op.adjust e.id (a.cur + 3 * TIMESLOT)).exec add_timer fuel)).run s := by
        intro fuel
        rw [recvClient, run_bind_of_ok huser, hret, htimer]
      refine ⟨_, L', ⟨N, fun fuel hfuel => ?_⟩, h.adjusting hlst hcalls⟩
      exact (hcall fuel).trans (onTimers_run (hN fuel hfuel))
  | eof =>
      obtain ⟨t, L', hrun, ht⟩ := hclose
      have hcall : ∀ fuel, (recvClient fuel e.user_data a).run s = .ok ((), t) := by
        intro fuel
        rw [recvClient, run_bind_of_ok huser, hret, hrun]
      exact ⟨t, L', ⟨0, fun fuel _ => hcall fuel⟩, ht⟩
  | again =>
      have hcall : ∀ fuel, (recvClient fuel e.user_data a).run s = .ok ((), s) := by
        intro fuel
        rw [recvClient, run_bind_of_ok huser, hret]
        rfl
      exact ⟨s, L, ⟨0, fun fuel _ => hcall fuel⟩, h⟩
  | error =>
      obtain ⟨t, L', hrun, ht⟩ := hclose
      have hcall : ∀ fuel, (recvClient fuel e.user_data a).run s = .ok ((), t) := by
        intro fuel
        rw [recvClient, run_bind_of_ok huser, hret, hrun]
      exact ⟨t, L', ⟨0, fun fuel _ => hcall fuel⟩, ht⟩

/-- A turn of the loop over the events returns. -/
theorem Consistent.dispatch (h : s.Consistent L) {a : Answers} (hpossible : s.Possible (.dispatch a)) :
    ∃ t L', Returns (fun fuel => Timer.dispatch fuel a) s ((), t) ∧ t.Consistent L' := by
  obtain ⟨sockfd, epollin, rest, hbatch, hanswers⟩ := hpossible
  have hpop := h.pop hbatch
  have hturn : ∀ fuel, (Timer.dispatch fuel a).run s =
      (if sockfd = s.listenfd then acceptClient fuel a
      else if sockfd = s.pipefd ∧ epollin = true then
        modify fun s => { s with
          timeout := s.timeout || decide (.SIGALRM ∈ a.signals)
          stop_server := s.stop_server || decide (.SIGTERM ∈ a.signals) }
      else if epollin = true then recvClient fuel sockfd a
      else return () : Exec NonactiveConn Unit).run { s with batch := some rest } := by
    intro fuel
    rw [Timer.dispatch, run_bind_of_ok (run_get s), hbatch]
    rfl
  simp only [Returns, hturn]
  split
  · next hlisten =>
    obtain ⟨hfd, hfresh, hnew⟩ := hanswers hlisten
    exact hpop.accept hfd hfresh hnew
  · next hlisten =>
    split
    · exact ⟨_, L, ⟨0, fun _ _ => rfl⟩, hpop.congr rfl rfl rfl rfl hpop.batch⟩
    · next hpipe =>
      split
      · next hin =>
        obtain ⟨hnodup, hopened⟩ := h.batch _ hbatch
        have hopen : s.opened sockfd = true := by
          rcases hopened _ (List.mem_cons_self ..) with hfd | hfd | hfd
          · exact absurd hfd hlisten
          · exact absurd ⟨hfd, hin⟩ hpipe
          · exact hfd
        refine hpop.recv hopen ?_
        intro l hl p hp heq
        cases hl
        rw [List.map_cons, List.nodup_cons] at hnodup
        exact hnodup.1 (List.mem_map.mpr ⟨p, hp, heq⟩)
      · exact ⟨_, L, ⟨0, fun _ _ => rfl⟩, hpop⟩

/-- The end of a batch returns, with a tick or without. -/
theorem Consistent.finish (h : s.Consistent L) {cur : Int} (hbatch : s.batch = some []) :
    ∃ t L', Returns (fun fuel => finishBatch fuel cur) s ((), t) ∧ t.Consistent L' := by
  by_cases htimeout : s.timeout = true
  · obtain ⟨lst, L', ⟨N, hN⟩, hlst, hperm, hcalls⟩ :=
      Op.exec_holds h.holds (.tick cur) trivial trivial
    have hcut : due cur L ++ pending cur L = L := List.takeWhile_append_dropWhile
    have hsplit : L.Perm (due cur L ++ L') :=
      (List.Perm.of_eq hcut.symm).trans (hperm.symm.append_left _)
    have hcall : ∀ e ∈ due cur L, e.cb_func = CB_FUNC ∧ e.user_data < FD_LIMIT ∧
        (s.users e.user_data).sockfd = e.user_data := by
      intro e he
      have heL : e ∈ L := hsplit.mem_iff.mpr (List.mem_append_left L' he)
      exact ⟨h.callback e heL, h.sockfd _ (h.corresponds.client e heL).1⟩
    have hdrop := h.dropping hsplit hlst (by
      intro l hl p hp
      cases hbatch.symm.trans hl
      cases hp)
    refine ⟨_, L', ⟨N, fun fuel hfuel => ?_⟩, hdrop.congr (t := { NonactiveConn.dropping
      { s with timer_lst := lst } (due cur L) with timeout := false, batch := none })
      rfl rfl rfl rfl (by intro l hl; cases hl)⟩
    change (finishBatch fuel cur).run s = _
    rw [finishBatch, run_bind_of_ok (run_get s), if_pos htimeout]
    exact run_bind_of_ok (timer_handler_run (hN fuel hfuel) hcalls hcall) _
  · refine ⟨_, L, ⟨0, fun fuel _ => ?_⟩, h.congr (t := { s with batch := none }) rfl rfl rfl rfl
      (by intro l hl; cases hl)⟩
    change (finishBatch fuel cur).run s = _
    rw [finishBatch, run_bind_of_ok (run_get s), if_neg htimeout]
    rfl

/-- What one step keeps. -/
theorem Consistent.step (h : s.Consistent L) (e : NonactiveEvent) (hpossible : s.Possible e) :
    ∃ t L', Returns e.exec s ((), t) ∧ t.Consistent L' := by
  cases e with
  | wait events =>
      obtain ⟨-, -, -, hnodup, hopened⟩ := hpossible
      refine ⟨_, L, ⟨0, fun _ _ => rfl⟩, h.congr rfl rfl rfl rfl ?_⟩
      intro l hl
      cases hl
      exact ⟨hnodup, hopened⟩
  | dispatch a => exact h.dispatch hpossible
  | finish cur => exact h.finish hpossible

/-- What a run keeps. -/
theorem Reachable.consistent (h : Reachable s) : ∃ L, s.Consistent L := by
  induction h with
  | start listenfd pipefd users => exact ⟨[], .start listenfd pipefd users⟩
  | step e _ hpossible hrun ih =>
      obtain ⟨L, hL⟩ := ih
      obtain ⟨t, L', hrun', ht⟩ := hL.step e hpossible
      cases hrun.unique hrun'
      exact ⟨L', ht⟩

/-- The timer that the server passes on belongs to the client of the event. -/
theorem Consistent.passes (h : s.Consistent L) {e : NonactiveEvent} (hpasses : s.Passes e x) :
    x ∈ ids L := by
  cases e with
  | wait events => cases hpasses
  | finish cur => cases hpasses
  | dispatch a =>
      obtain ⟨sockfd, rest, hbatch, hlisten, hpipe, -, htimer⟩ := hpasses
      have hopen : s.opened sockfd = true :=
        (((h.batch _ hbatch).2 _ (List.mem_cons_self ..)).resolve_left hlisten).resolve_left hpipe
      obtain ⟨d, hd, htimer', -⟩ := h.corresponds.timer sockfd hopen
      cases htimer.symm.trans htimer'
      exact mem_ids hd

/-- In every state of a run the timers in the list and the open connections belong to each other, one
to one, and memory holds no other timers. Every timer that is not in memory any more has been freed
once, and every connection that is not open any more has been closed once. Every next step returns,
so no timer is used or freed that is not in memory, and a timer that is adjusted or deleted is in the
list. -/
theorem idle_connections_safe (h : Reachable s) :
    ∃ order, s.timer_lst.Chained order ∧ s.Corresponds order ∧
      (∀ x, s.timer_lst.inMemory x = true ↔ x ∈ ids order) ∧ s.Balanced ∧
      ∀ e, s.Possible e → (∃ t, Returns e.exec s ((), t) ∧ Reachable t) ∧
        ∀ x, s.Passes e x → x ∈ ids order := by
  obtain ⟨L, hL⟩ := h.consistent
  refine ⟨L, hL.holds.toLinked.chained, hL.corresponds, hL.holds.memory, hL.balanced, ?_⟩
  intro e hpossible
  obtain ⟨t, -, hrun, -⟩ := hL.step e hpossible
  exact ⟨⟨t, hrun, .step e h hpossible hrun⟩, fun x hpasses => hL.passes hpasses⟩

/-- A step whose code runs with some fuel and more. -/
theorem Reachable.step_run (fuel : Nat) (e : NonactiveEvent) (h : Reachable s)
    (hpossible : s.Possible e) (hrun : ∀ n, (e.exec (n + fuel)).run s = .ok ((), t)) :
    Reachable t := by
  refine .step e h hpossible ⟨fuel, fun fuel' hfuel => ?_⟩
  obtain ⟨n, rfl⟩ := Nat.exists_eq_add_of_le' hfuel
  exact hrun n

/-- The server after its first client, which came at 0 and has the descriptor 5 and the timer 100. -/
def oneClient : NonactiveConn where
  listenfd := 3
  pipefd := 4
  timer_lst :=
    ⟨fun x => if x = 100 then some ⟨15, CB_FUNC, 5, none, none⟩ else none, some 100, some 100, []⟩
  users := Function.update (fun _ => ⟨0, none⟩) 5 ⟨5, some 100⟩
  opened := Function.update (fun _ => false) 5 true
  batch := none
  timeout := false
  stop_server := false
  history := ⟨[5], [], [100], []⟩

theorem one_client : Reachable oneClient := by
  have hwait : Reachable _ := .step_run 9 (.wait [(3, true)]) (.start 3 4 fun _ => ⟨0, none⟩)
    ⟨rfl, rfl, by decide, by decide, by simp [NonactiveConn.start]⟩ fun _ => rfl
  have haccept : Reachable _ := .step_run 9 (.dispatch ⟨5, 100, 0, [], .data⟩) hwait
    ⟨3, true, [], rfl, fun _ => ⟨by decide, rfl, rfl⟩⟩ fun _ => rfl
  have hfinish : Reachable _ := .step_run 9 (.finish 0) haccept rfl fun _ => rfl
  have husers : Function.update (Function.update (fun _ => (⟨0, none⟩ : ClientData)) 5 ⟨5, none⟩) 5
      ⟨5, some 100⟩ = Function.update (fun _ => ⟨0, none⟩) 5 ⟨5, some 100⟩ :=
    Function.update_idem ..
  rw [oneClient, ← husers]
  exact hfinish

/-- The client sends something, the alarm comes with the same batch, and the tick at 20 closes the
connection. The tail still has the address of the freed timer. -/
theorem one_client_closed :
    ∃ timers users opened,
      Reachable ⟨3, 4, ⟨timers, none, some 100, [⟨100, 0, 5⟩]⟩, users, opened, none, false, false,
        ⟨[5], [5], [100], [100]⟩⟩ ∧ opened 5 = false ∧ timers 100 = none := by
  have hwait : Reachable _ := .step_run 9 (.wait [(5, true), (4, true)]) one_client
    ⟨rfl, rfl, by decide, by decide, by simp [oneClient]⟩ fun _ => rfl
  have hrecv : Reachable _ := .step_run 9 (.dispatch ⟨0, 0, 4, [], .data⟩) hwait
    ⟨5, true, _, rfl, fun h => by cases h⟩ fun _ => rfl
  have hsignal : Reachable _ := .step_run 9 (.dispatch ⟨0, 0, 0, [.SIGALRM], .data⟩) hrecv
    ⟨4, true, [], rfl, fun h => by cases h⟩ fun _ => rfl
  have htick : Reachable _ := .step_run 9 (.finish 20) hsignal rfl fun _ => rfl
  exact ⟨_, _, _, htick, rfl, rfl⟩

/-- The next client gets the descriptor and the address of the timer again. -/
theorem idle_connections_safe_reused :
    ∃ s order, Reachable s ∧ s.opened 5 = true ∧
      s.history = ⟨[5, 5], [5], [100, 100], [100]⟩ ∧ s.Corresponds order ∧ s.Balanced := by
  obtain ⟨timers, users, opened, hclosed, hfd, htimer⟩ := one_client_closed
  have hwait : Reachable _ := .step_run 9 (.wait [(3, true)]) hclosed
    ⟨rfl, rfl, by decide, by decide, by simp⟩ fun _ => rfl
  have haccept : Reachable _ := .step_run 9 (.dispatch ⟨5, 100, 20, [], .data⟩) hwait
    ⟨3, true, [], rfl, fun _ => ⟨by decide, hfd, htimer⟩⟩ fun _ => rfl
  obtain ⟨order, -, hcorresponds, -, hbalanced, -⟩ := idle_connections_safe haccept
  exact ⟨_, order, haccept, rfl, rfl, hcorresponds, hbalanced⟩

end NonactiveConn

end CLanguageLearning.Timer
