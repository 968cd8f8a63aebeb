import CLanguageLearning.Chat.PollServer

/-!
# The table of the chat server with poll

In every run the slots in use hold the clients that have been accepted and not closed, each once, and
a pass over `fds` comes to every client that was there when `poll` was called, whichever clients
leave during the pass (`table`). The slot that a client leaves is examined again, with the client
that was moved into it.
-/

set_option autoImplicit false

namespace CLanguageLearning.Chat.Poll

open CLanguageLearning.Foundation

/-- Every descriptor that was closed was that of an accepted client not closed before. -/
def ClosedOnce : List Call → Prop
  | [] => True
  | .closed fd :: calls => isOpen fd calls = true ∧ ClosedOnce calls
  | _ :: calls => ClosedOnce calls

namespace PollServer

/-- The slots hold the listening socket and the open clients, and what `poll` has reported for
them is what they asked for. -/
structure Table (s : PollServer) : Prop where
  count : s.user_counter ≤ USER_LIMIT
  listen : (s.fds 0).fd = s.listenfd
  listenEvents : (s.fds 0).events = POLLIN ||| POLLERR
  reported : ∀ i, i < s.user_counter + 1 → Reported (s.fds i).events (s.fds i).revents
  distinct : ∀ i j, i < s.user_counter + 1 → j < s.user_counter + 1 →
    (s.fds i).fd = (s.fds j).fd → i = j
  opened : ∀ fd, isOpen fd s.calls = true ↔
    ∃ j, 0 < j ∧ j < s.user_counter + 1 ∧ (s.fds j).fd = fd
  closed : ClosedOnce s.calls

/-- Every client that was there at the call of `poll` has been examined, or its slot is still to
come. -/
def Covered (s : PollServer) (i : Nat) : Prop :=
  ∀ fd ∈ s.present, fd ∈ s.examined ∨ ∃ j, i ≤ j ∧ j < s.user_counter + 1 ∧ (s.fds j).fd = fd

/-- What every state of a run is like. -/
structure Loop (s : PollServer) : Prop where
  table : s.Table
  pass : s.point = .polling → ∀ fd ∈ s.present, fd ∈ s.examined
  scan : ∀ i, s.point = .scanning i → i < s.user_counter + 1 ∧ s.Covered i

section Branches

variable {s : PollServer} {i : Nat}

theorem branch_leave (h : s.branch i = .leave) : has (s.fds i).revents POLLRDHUP = true := by
  unfold branch at h
  dsimp only at h
  split_ifs at h
  assumption

theorem branch_read (h : s.branch i = .read) :
    has (s.fds i).revents POLLIN = true ∧ (s.fds i).fd ≠ s.listenfd := by
  unfold branch at h
  dsimp only at h
  split_ifs at h with haccept _ _ hread
  exact ⟨hread, fun hfd => haccept ⟨hfd, hread⟩⟩

theorem branch_write (h : s.branch i = .write) : has (s.fds i).revents POLLOUT = true := by
  unfold branch at h
  dsimp only at h
  split_ifs at h
  assumption

/-- The listening socket is only ever reported readable or with one of the events that are always
reported. -/
theorem Table.pos_of_has {flag : BitVec 16} (h : s.Table)
    (hflag : has (POLLIN ||| POLLERR ||| (POLLERR ||| POLLHUP ||| POLLNVAL)) flag = false)
    (hrev : has (s.fds i).revents flag = true) : 0 < i := by
  rcases Nat.eq_zero_or_pos i with rfl | hpos
  · have hlisten := (h.reported 0 (Nat.succ_pos _)).has hrev
    rw [h.listenEvents, hflag] at hlisten
    cases hlisten
  · exact hpos

theorem Table.leave_pos (h : s.Table) (hbranch : s.branch i = .leave) : 0 < i :=
  h.pos_of_has (by decide) (branch_leave hbranch)

theorem Table.write_pos (h : s.Table) (hbranch : s.branch i = .write) : 0 < i :=
  h.pos_of_has (by decide) (branch_write hbranch)

theorem Table.read_pos (h : s.Table) (hbranch : s.branch i = .read) : 0 < i := by
  rcases Nat.eq_zero_or_pos i with rfl | hpos
  · exact absurd h.listen (branch_read hbranch).2
  · exact hpos

end Branches

section Table

variable {s t u : PollServer} {i j next : Nat} {connfd fd : Int} {ret : Recv} {e : PollEvent}
  {m : List UInt8} {a listenfd : Int} {f : Int → ClientData}

theorem table_start : (start listenfd f).Table where
  count := Nat.zero_le _
  listen := rfl
  listenEvents := rfl
  reported := by
    intro i hi
    obtain rfl : i = 0 := by simpa [start] using hi
    show Reported (POLLIN ||| POLLERR) 0
    decide
  distinct := by
    intro i j hi hj _
    simp only [start, zero_add, Nat.lt_one_iff] at hi hj
    rw [hi, hj]
  opened := by
    intro fd
    constructor
    · intro h
      cases h
    · rintro ⟨j, hj, hlt, -⟩
      simp only [start] at hlt
      omega
  closed := trivial

/-- A turn that keeps the descriptors of the slots and the open clients. -/
theorem Table.sameSlots (h : s.Table) (hlisten : t.listenfd = s.listenfd)
    (hcounter : t.user_counter = s.user_counter) (hfd : ∀ j, (t.fds j).fd = (s.fds j).fd)
    (hzero : (t.fds 0).events = (s.fds 0).events)
    (hrep : ∀ j, ∃ mask, (t.fds j).events = (s.fds j).events ||| mask ∧
      (t.fds j).revents = (s.fds j).revents)
    (hopen : ∀ fd, isOpen fd t.calls = isOpen fd s.calls) (hclosed : ClosedOnce t.calls) :
    t.Table where
  count := hcounter ▸ h.count
  listen := by rw [hfd, hlisten, h.listen]
  listenEvents := hzero.trans h.listenEvents
  reported := by
    intro i hi
    obtain ⟨mask, hevents, hrevents⟩ := hrep i
    rw [hevents, hrevents]
    exact (h.reported i (hcounter ▸ hi)).mono mask
  distinct := by
    intro i j hi hj heq
    rw [hfd, hfd] at heq
    exact h.distinct i j (hcounter ▸ hi) (hcounter ▸ hj) heq
  opened := by
    intro fd
    rw [hopen, h.opened, hcounter]
    simp only [hfd]
  closed := hclosed

theorem Table.refused (h : s.Table) (hfresh : s.Fresh connfd) : (s.refused connfd).Table := by
  refine h.sameSlots rfl rfl (fun _ => rfl) rfl (fun j => ⟨0, by simp [PollServer.refused], rfl⟩)
    ?_ ⟨by simp [isOpen], h.closed⟩
  intro fd
  by_cases hfd : connfd = fd
  · simp [PollServer.refused, isOpen, ← hfd, hfresh.notOpen]
  · simp [PollServer.refused, isOpen, hfd]

theorem Table.fill (h : s.Table) : (s.fill fd m).Table :=
  h.sameSlots rfl rfl (fun _ => rfl) rfl (fun j => ⟨0, by simp [PollServer.fill], rfl⟩)
    (fun _ => rfl) h.closed

theorem Table.announced (h : s.Table) : (s.announced i m).Table := by
  obtain ⟨hlisten, hcounter, -⟩ := announced_rest (s := s) (i := i) (m := m)
  refine h.sameSlots hlisten hcounter (fun j => notifyUpTo_fd) ?_ ?_ (fun _ => rfl) h.closed
  · exact congrArg PollFd.events (notifyUpTo_fds.trans (if_neg (by omega)))
  · intro j
    show ∃ mask, ((notifyUpTo _ _ _).fds j).events = _ ∧ ((notifyUpTo _ _ _).fds j).revents = _
    rw [notifyUpTo_fds, notified]
    split
    · split
      · exact ⟨0, by simp [PollServer.fill], rfl⟩
      · exact ⟨~~~POLLIN ||| POLLOUT, BitVec.or_assoc .., rfl⟩
    · exact ⟨0, by simp [PollServer.fill], rfl⟩

theorem written_fds : (s.written i a).fds j = if j = i then
    { s.fds i with events := (s.fds i).events ||| ~~~POLLOUT ||| POLLIN } else s.fds j :=
  Function.update_apply ..

theorem written_fd : ((s.written i a).fds j).fd = (s.fds j).fd := by
  rw [written_fds]
  split
  · next hj => rw [hj]
  · rfl

theorem Table.written (h : s.Table) (hi : 0 < i) : (s.written i a).Table := by
  refine h.sameSlots rfl rfl (fun j => written_fd) ?_ ?_ (fun _ => rfl) h.closed
  · rw [written_fds, if_neg hi.ne]
  · intro j
    rw [written_fds]
    split
    · next hj => exact ⟨~~~POLLOUT ||| POLLIN, by rw [hj, BitVec.or_assoc], by rw [hj]⟩
    · exact ⟨0, by simp, rfl⟩

/-- A new client is in the last slot. -/
theorem Table.admitted (h : s.Table) (hfresh : s.Fresh connfd)
    (hroom : s.user_counter < USER_LIMIT) : (s.admitted connfd).Table := by
  have hold : ∀ j, j < s.user_counter + 1 → (s.admitted connfd).fds j = s.fds j := fun j hj =>
    Function.update_of_ne hj.ne ..
  have hnew : (s.admitted connfd).fds (s.user_counter + 1) =
      ⟨connfd, POLLIN ||| POLLRDHUP ||| POLLERR, 0⟩ := Function.update_self ..
  have hcounter : (s.admitted connfd).user_counter = s.user_counter + 1 := rfl
  -- the descriptor is in no slot
  have hother : ∀ j, j < s.user_counter + 1 → (s.fds j).fd ≠ connfd := by
    rintro j hj rfl
    rcases Nat.eq_zero_or_pos j with rfl | hpos
    · exact hfresh.ne h.listen
    · have hopen := (h.opened _).mpr ⟨j, hpos, hj, rfl⟩
      rw [hfresh.notOpen] at hopen
      cases hopen
  constructor
  case count => exact hroom
  case listen => rw [hold 0 (Nat.succ_pos _)]; exact h.listen
  case listenEvents => rw [hold 0 (Nat.succ_pos _)]; exact h.listenEvents
  case reported =>
    intro i hi
    rcases Nat.lt_or_ge i (s.user_counter + 1) with hlt | hge
    · rw [hold i hlt]
      exact h.reported i hlt
    · have hlast : i = s.user_counter + 1 := by omega
      rw [hlast, hnew]
      show Reported (POLLIN ||| POLLRDHUP ||| POLLERR) 0
      decide
  case distinct =>
    intro i j hi hj heq
    rcases Nat.lt_or_ge i (s.user_counter + 1) with hilt | hige
    · rcases Nat.lt_or_ge j (s.user_counter + 1) with hjlt | hjge
      · rw [hold i hilt, hold j hjlt] at heq
        exact h.distinct i j hilt hjlt heq
      · have hlast : j = s.user_counter + 1 := by omega
        rw [hold i hilt, hlast, hnew] at heq
        exact absurd heq (hother i hilt)
    · have hilast : i = s.user_counter + 1 := by omega
      rcases Nat.lt_or_ge j (s.user_counter + 1) with hjlt | hjge
      · rw [hilast, hnew, hold j hjlt] at heq
        exact absurd heq.symm (hother j hjlt)
      · omega
  case opened =>
    intro fd
    show (decide (connfd = fd) || isOpen fd s.calls) = true ↔ _
    rw [Bool.or_eq_true, decide_eq_true_eq, h.opened]
    constructor
    · rintro (rfl | ⟨j, hj, hlt, rfl⟩)
      · exact ⟨s.user_counter + 1, Nat.succ_pos _, by omega, by rw [hnew]⟩
      · exact ⟨j, hj, by omega, by rw [hold j hlt]⟩
    · rintro ⟨j, hj, hlt, rfl⟩
      rcases Nat.lt_or_ge j (s.user_counter + 1) with hjlt | hjge
      · exact .inr ⟨j, hj, hjlt, by rw [hold j hjlt]⟩
      · have hlast : j = s.user_counter + 1 := by omega
        exact .inl (by rw [hlast, hnew])
  case closed => exact h.closed

/-- Where the content of the slot `j` was before the client in the slot `i` was overwritten with the
one in the last slot `n`. -/
def source (n i j : Nat) : Nat := if j = i then n else j

theorem remove_fds (s : PollServer) (i j : Nat) :
    (s.remove i).fds j = s.fds (source s.user_counter i j) := by
  rw [source, apply_ite s.fds]
  exact Function.update_apply ..

/-- A slot that stays in use gets the content of a slot other than the one that is overwritten. -/
theorem removed_source (hi : 0 < i) (hlt : i < s.user_counter + 1)
    (hj : j < (s.remove i).user_counter + 1) : source s.user_counter i j < s.user_counter + 1 ∧
      source s.user_counter i j ≠ i ∧ (0 < j → 0 < source s.user_counter i j) := by
  simp only [PollServer.remove] at hj
  rw [source]
  split <;> omega

theorem Table.remove (h : s.Table) (hi : 0 < i) (hlt : i < s.user_counter + 1) :
    (s.remove i).Table := by
  have hcounter : (s.remove i).user_counter + 1 = s.user_counter := by
    simp only [PollServer.remove]
    omega
  have hzero : (s.remove i).fds 0 = s.fds 0 := by
    rw [remove_fds, source, if_neg (by omega)]
  constructor
  case count =>
    have hcount := h.count
    omega
  case listen => rw [hzero]; exact h.listen
  case listenEvents => rw [hzero]; exact h.listenEvents
  case reported =>
    intro j hj
    rw [remove_fds]
    exact h.reported _ (removed_source hi hlt hj).1
  case distinct =>
    intro j k hj hk heq
    rw [remove_fds, remove_fds] at heq
    have hjk := h.distinct _ _ (removed_source hi hlt hj).1 (removed_source hi hlt hk).1 heq
    simp only [source] at hjk
    split at hjk <;> split at hjk <;> omega
  case opened =>
    intro fd
    show (decide ((s.fds i).fd ≠ fd) && isOpen fd s.calls) = true ↔ _
    rw [Bool.and_eq_true, decide_eq_true_eq, h.opened]
    constructor
    · rintro ⟨hne, j, hj, hjlt, rfl⟩
      have hji : j ≠ i := fun hji => hne (by rw [hji])
      by_cases hlast : j = s.user_counter
      · exact ⟨i, hi, by omega, by rw [remove_fds, source, if_pos rfl, hlast]⟩
      · exact ⟨j, hj, by omega, by rw [remove_fds, source, if_neg hji]⟩
    · rintro ⟨j, hj, hjlt, rfl⟩
      obtain ⟨hsrc, hne, hpos⟩ := removed_source hi hlt hjlt
      rw [remove_fds]
      refine ⟨fun heq => hne (h.distinct _ _ hsrc hlt heq.symm), _, hpos hj, hsrc, rfl⟩
  case closed => exact ⟨(h.opened _).mpr ⟨i, hi, hlt, rfl⟩, h.closed⟩

/-- A turn keeps the table. -/
theorem Table.turned (h : s.Table) (hi : i < s.user_counter + 1)
    (hturn : Turned s i connfd ret t next) : t.Table := by
  cases hturn with
  | idle _ _ => exact h
  | refuse _ hfresh _ => exact h.refused hfresh
  | enter _ hfresh hroom => exact h.admitted hfresh hroom
  | leave hbranch => exact h.remove (h.leave_pos hbranch) hi
  | message m _ _ _ _ => exact h.announced
  | empty _ _ => exact h.fill
  | fail hbranch _ => exact h.fill.remove (h.read_pos hbranch) hi
  | write a hbranch _ => exact h.written (h.write_pos hbranch)

/-! ## A pass over the slots -/

/-- What is in a slot that is still to come is examined in this turn, or is still to come after
it. -/
theorem turned_covers (hturn : Turned s i connfd ret t next) (hij : i ≤ j)
    (hj : j < s.user_counter + 1) : (s.fds j).fd = (s.fds i).fd ∨
      ∃ k, next ≤ k ∧ k < t.user_counter + 1 ∧ (t.fds k).fd = (s.fds j).fd := by
  by_cases hji : j = i
  · exact .inl (by rw [hji])
  have hnext : i + 1 ≤ j := by omega
  -- the slot is not touched
  have hstay : ∀ u : PollServer, u.user_counter = s.user_counter →
      (∀ k, (u.fds k).fd = (s.fds k).fd) →
      ∃ k, i + 1 ≤ k ∧ k < u.user_counter + 1 ∧ (u.fds k).fd = (s.fds j).fd :=
    fun u hcounter hfd => ⟨j, hnext, hcounter ▸ hj, hfd j⟩
  -- the last client comes to the slot that is examined again
  have hmove : ∀ u : PollServer, u.user_counter = s.user_counter →
      (∀ k, (u.fds k).fd = (s.fds k).fd) →
      ∃ k, i ≤ k ∧ k < (u.remove i).user_counter + 1 ∧ ((u.remove i).fds k).fd = (s.fds j).fd := by
    intro u hcounter hfd
    have hless : (u.remove i).user_counter = s.user_counter - 1 := by
      rw [← hcounter]
      rfl
    by_cases hlast : j = s.user_counter
    · exact ⟨i, le_rfl, by omega, by rw [remove_fds, source, if_pos rfl, hcounter, hfd, hlast]⟩
    · exact ⟨j, hij, by omega, by rw [remove_fds, source, if_neg hji, hfd]⟩
  right
  cases hturn with
  | idle _ _ => exact hstay s rfl fun _ => rfl
  | refuse _ _ _ => exact hstay _ rfl fun _ => rfl
  | enter _ _ _ =>
      refine ⟨j, hnext, Nat.lt_succ_of_lt hj, ?_⟩
      exact congrArg PollFd.fd (Function.update_of_ne hj.ne ..)
  | leave _ => exact hmove s rfl fun _ => rfl
  | message m _ _ _ _ =>
      exact hstay _ announced_rest.2.1 fun _ => notifyUpTo_fd
  | empty _ _ => exact hstay _ rfl fun _ => rfl
  | fail _ _ => exact hmove _ rfl fun _ => rfl
  | write a _ _ => exact hstay _ rfl fun _ => written_fd

theorem turned_present (hturn : Turned s i connfd ret t next) : t.present = s.present := by
  cases hturn with
  | message m _ _ _ _ => exact announced_rest.2.2
  | _ => rfl

/-- After a turn the clients are covered from the next index on. -/
theorem Covered.advanced (h : s.Covered i) (hturn : Turned s i connfd ret u next) :
    (s.advanced i u next).Covered next := by
  intro fd hfd
  rcases h fd ((turned_present hturn) ▸ hfd) with hexamined | ⟨j, hij, hj, rfl⟩
  · exact .inl (List.mem_cons_of_mem _ hexamined)
  · rcases turned_covers hturn hij hj with heq | hlater
    · exact .inl (List.mem_cons.mpr (.inl heq))
    · exact .inr hlater

theorem mem_clients : fd ∈ s.clients ↔ ∃ j, 0 < j ∧ j < s.user_counter + 1 ∧ (s.fds j).fd = fd := by
  rw [clients, List.mem_map]
  constructor
  · rintro ⟨j, hj, rfl⟩
    exact ⟨j + 1, Nat.succ_pos j, Nat.succ_lt_succ (List.mem_range.mp hj), rfl⟩
  · rintro ⟨j, hj, hlt, rfl⟩
    obtain ⟨k, rfl⟩ := Nat.exists_eq_add_of_lt hj
    exact ⟨k, List.mem_range.mpr (by omega), by rw [Nat.zero_add]⟩

theorem Table.clients_nodup (h : s.Table) : s.clients.Nodup := by
  refine List.Nodup.map_on ?_ List.nodup_range
  intro j hj k hk heq
  rw [List.mem_range] at hj hk
  have hjk := h.distinct _ _ (Nat.succ_lt_succ hj) (Nat.succ_lt_succ hk) heq
  omega

/-- A call of `poll` changes what is reported and nothing else. -/
theorem polled_fds (revents : Nat → BitVec 16) : (s.polled revents).fds j =
    if j < s.user_counter + 1 then { s.fds j with revents := revents j } else s.fds j := rfl

theorem polled_fd (revents : Nat → BitVec 16) :
    ((s.polled revents).fds j).fd = (s.fds j).fd ∧
      ((s.polled revents).fds j).events = (s.fds j).events := by
  rw [polled_fds]
  split <;> exact ⟨rfl, rfl⟩

theorem Table.polled (h : s.Table) {revents : Nat → BitVec 16}
    (hrep : ∀ j, j < s.user_counter + 1 → Reported (s.fds j).events (revents j)) :
    (s.polled revents).Table where
  count := h.count
  listen := (polled_fd revents).1.trans h.listen
  listenEvents := (polled_fd revents).2.trans h.listenEvents
  reported := by
    intro j hj
    change j < s.user_counter + 1 at hj
    rw [polled_fds, if_pos hj]
    exact hrep j hj
  distinct := by
    intro j k hj hk heq
    rw [(polled_fd revents).1, (polled_fd revents).1] at heq
    exact h.distinct j k hj hk heq
  opened := by
    intro fd
    simp only [(polled_fd revents).1]
    exact h.opened fd
  closed := h.closed

theorem loop_start : (start listenfd f).Loop where
  table := table_start
  pass := fun _ fd hfd => absurd hfd List.not_mem_nil
  scan := by
    intro i h
    cases h

/-- Every step keeps the table and comes to the next slot of the pass. -/
theorem Loop.step (h : s.Loop) (hstep : s.step e = some t) : t.Loop := by
  rcases step_cases hstep with ⟨revents, rfl, -, hrep, rfl⟩ |
    ⟨connfd, ret, i, u, next, rfl, hpoint, hturn, rfl⟩
  · refine ⟨h.table.polled hrep, ?_, ?_⟩
    · intro hpolling
      cases hpolling
    · intro i hi
      cases hi
      refine ⟨Nat.succ_pos _, ?_⟩
      intro fd hfd
      obtain ⟨j, -, hlt, rfl⟩ := mem_clients.mp hfd
      exact .inr ⟨j, Nat.zero_le j, hlt, (polled_fd revents).1⟩
  · obtain ⟨hi, hcov⟩ := h.scan i hpoint
    have htable := h.table.turned hi hturn
    have hcovered := hcov.advanced hturn
    refine ⟨⟨htable.count, htable.listen, htable.listenEvents, htable.reported, htable.distinct,
      htable.opened, htable.closed⟩, ?_, ?_⟩
    · intro hpolling fd hfd
      have hend : ¬ next < u.user_counter + 1 := by
        intro hlt
        simp [PollServer.advanced, hlt] at hpolling
      rcases hcovered fd hfd with hexamined | ⟨j, hij, hj, -⟩
      · exact hexamined
      · exact absurd (lt_of_le_of_lt hij hj) hend
    · intro k hk
      have hcont : next < u.user_counter + 1 ∧ next = k := by
        simp only [PollServer.advanced] at hk
        split at hk
        · next hlt => exact ⟨hlt, Point.scanning.inj hk⟩
        · cases hk
      exact hcont.2 ▸ ⟨hcont.1, hcovered⟩

/-- For every run and everything that `poll` can report: there are at most `USER_LIMIT` clients, the
slots hold exactly the accepted clients that have not been closed, each once, no descriptor is closed
that is not open, and at the end of a pass every client that was there at the call of `poll` has been
examined. -/
theorem table {l : List PollEvent} (hrun : runEvents step (start listenfd f) l = some t) :
    t.user_counter ≤ USER_LIMIT ∧ t.clients.Nodup ∧
      (∀ fd, fd ∈ t.clients ↔ isOpen fd t.calls = true) ∧ ClosedOnce t.calls ∧
      (t.point = .polling → ∀ fd ∈ t.present, fd ∈ t.examined) := by
  have h : t.Loop := invariant (fun _ _ _ h hstep => h.step hstep) loop_start hrun
  refine ⟨h.table.count, h.table.clients_nodup, ?_, h.table.closed, h.pass⟩
  intro fd
  rw [mem_clients, h.table.opened]

/-- Both clients leave in the pass in which a third one comes. -/
theorem table_both_leave : ∃ t, runEvents step (start 3 fun _ => ⟨none, []⟩) [
      .poll fun _ => POLLIN, .turn 4 .eof, .turn (-1) .eof,
      .poll fun i => if i = 0 then POLLIN else 0, .turn 5 .eof, .turn (-1) .eof, .turn (-1) .eof,
      .poll fun i => if i = 0 then POLLIN else POLLRDHUP, .turn 6 .eof, .turn (-1) .eof,
      .turn (-1) .eof, .turn (-1) .eof] = some t ∧
    t.clients = [6] ∧ t.present = [4, 5] ∧ ClosedOnce t.calls ∧ ∀ fd ∈ t.present, fd ∈ t.examined := by
  have hrun := @table _ 3 (fun _ => ⟨none, []⟩) [
      .poll fun _ => POLLIN, .turn 4 .eof, .turn (-1) .eof,
      .poll fun i => if i = 0 then POLLIN else 0, .turn 5 .eof, .turn (-1) .eof, .turn (-1) .eof,
      .poll fun i => if i = 0 then POLLIN else POLLRDHUP, .turn 6 .eof, .turn (-1) .eof,
      .turn (-1) .eof, .turn (-1) .eof] rfl
  exact ⟨_, rfl, rfl, rfl, hrun.2.2.2.1, hrun.2.2.2.2 rfl⟩

end Table

end PollServer

end CLanguageLearning.Chat.Poll
