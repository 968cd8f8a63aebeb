import CLanguageLearning.Epoll.EventLoopSteps
import CLanguageLearning.Foundation.Transitions

/-!
# Runs of the event loop

What the clients send comes back in every run (`event_loop_echoes`), and the callbacks always reach
what they were made for (`callbacks_reach_clients`). The listener is served once for each of its
events, so that connections can be left waiting (`one_accept_each_event`).
-/

set_option autoImplicit false

namespace CLanguageLearning.EventLoop

open CLanguageLearning.Foundation

namespace Server

/-! ## Whole runs -/

/-- The loop waits in `epoll_wait`, and no descriptor has an event. -/
structure Resting (s : Server) : Prop where
  point : s.point = .loop
  active : s.active = []
  ready : ∀ fd, s.interest fd ≠ none → s.ready fd = false

section Runs

variable {listenfd fd c : Nat} {others : List Nat} {s t : Server} {e : Event} {l : List Event}

theorem start_eq : start listenfd others =
    ⟨fun fd => if fd = listenfd then some .listener else if fd ∈ others then some .other else none,
      Function.update (fun _ => none) listenfd (some 0), .empty, 0, fun _ => .new,
      [⟨listenfd, EPOLLIN ||| EPOLLET, 0, true, .newConnection⟩], [], .loop⟩ := by
  refine (@enableReading_new _ listenfd rfl .newConnection).trans ?_
  rw [arm]
  dsimp only
  rw [if_pos rfl]
  dsimp only
  rw [readable]
  dsimp only
  rw [if_pos rfl]
  rfl

theorem good_start : Good listenfd (start listenfd others) := by
  rw [start_eq]
  have hlistener : ∀ fd f, (if fd = listenfd then some File.listener
      else if fd ∈ others then some .other else none) = some f →
      (fd = listenfd ∧ f = .listener) ∨ f = .other := by
    intro fd f hf
    split at hf
    · cases hf
      exact Or.inl ⟨‹_›, rfl⟩
    · split at hf
      · cases hf
        exact Or.inr rfl
      · cases hf
  have hclient : ∀ fd c, (if fd = listenfd then some File.listener
      else if fd ∈ others then some .other else none) ≠ some (.client c) := by
    intro fd c hf
    rcases hlistener fd _ hf with ⟨-, hf'⟩ | hf'
    · cases hf'
    · cases hf'
  have hlistening : Function.update (fun _ : Nat => (none : Option Nat)) listenfd (some 0) listenfd =
      some 0 := Function.update_self ..
  refine ⟨⟨if_pos rfl, hlistening, ?_, ?_, ?_, ?_, ?_, ?_, List.nodup_nil, trivial,
    EdgeSource.conserved_empty, rfl, EdgeSource.oneEach_empty⟩, fun _ => kept_new, ?_, ?_⟩
  · intro fd hf
    rcases hlistener fd _ hf with ⟨hfd, -⟩ | hf'
    · exact hfd
    · cases hf'
  · exact fun fd _ c hf => absurd hf (hclient fd c)
  · exact fun fd c hf => absurd hf (hclient fd c)
  · intro fd p hp
    dsimp only at hp
    rw [Function.update_apply] at hp
    split at hp
    · rename_i hfd
      cases hp
      exact ⟨_, rfl, hfd.symm, Or.inl ⟨if_pos hfd, rfl⟩⟩
    · cases hp
  · exact fun fd c hf => absurd hf (hclient fd c)
  · exact fun p hp => absurd hp List.not_mem_nil
  · exact fun fd c hf => absurd hf (hclient fd c)
  · exact fun c hc => absurd hc List.not_mem_nil

theorem good_run (hrun : runEvents step (start listenfd others) l = some s) : Good listenfd s :=
  invariant (fun _ _ _ hs hstep => hs.step hstep) good_start hrun

/-- Where the loop rests, a client that has been accepted has been served. -/
theorem Good.resting (h : Good listenfd s) (hrest : s.Resting) (hc : c ∈ s.queue.taken) :
    (s.client c).stream.waiting = [] ∧
      ((s.client c).ending = .again ∨ ∀ fd, s.file fd ≠ some (.client c)) := by
  by_cases hopen : ∃ fd, s.file fd = some (.client c)
  · obtain ⟨fd, hfd⟩ := hopen
    -- only a descriptor in `newConnection` is without an entry
    have hentry : s.interest fd ≠ none := by
      intro hnone
      have hnew := h.entered fd c hfd hnone
      rw [hrest.point] at hnew
      cases hnew
    have hevent := hrest.ready fd hentry
    rw [ready, hfd] at hevent
    have hnot : ¬ s.Watched fd := by
      rintro (⟨p, hp, -⟩ | hat)
      · rw [hrest.active] at hp
        exact List.not_mem_nil hp
      · rw [hrest.point] at hat
        cases hat
    have hdue := (h.covered fd c hfd hentry).quiet hevent hnot
    rw [Client.readable, decide_eq_true_eq, not_or, not_not, not_not] at hdue
    exact ⟨hdue.1, Or.inl hdue.2⟩
  · rw [not_exists] at hopen
    exact ⟨(h.closed c hc hopen).1, Or.inr hopen⟩

theorem printed_run (hrun : runEvents step (start listenfd others) l = some s) : Printed s := by
  have hstart : Printed (start listenfd others) := by
    rw [start_eq]
    exact ⟨(by rintro _ _ (hat | hat) <;> cases hat), fun _ _ h => absurd h List.not_mem_nil⟩
  have hboth : Good listenfd s ∧ Printed s :=
    invariant (I := fun s => Good listenfd s ∧ Printed s)
      (fun _ _ _ hs hstep => ⟨hs.1.step hstep, hs.2.step hs.1 hstep⟩) ⟨good_start, hstart⟩ hrun
  exact hboth.2

theorem mem_padded_iff {chunk : List UInt8} :
    0 ∈ padded chunk ↔ chunk.length < READ_BUFFER ∨ 0 ∈ chunk := by
  rw [padded, List.mem_append, List.mem_replicate, or_comm]
  simp [Nat.sub_ne_zero_iff_lt]

/-- As long as `printf` has not read behind a buffer, every piece has left room for a NUL, or has
one. -/
theorem Printed.pieces (h : Printed s) (hkept : Kept (s.client c) (s.toWrite c))
    (hpoint : ∀ fd buffer, s.point ≠ .overread fd buffer) :
    ∀ chunk ∈ (s.client c).chunks, chunk.length < READ_BUFFER ∨ 0 ∈ chunk := by
  intro chunk hchunk
  rw [← mem_padded_iff]
  have hmem : padded chunk ∈ (s.client c).written ++ s.toWrite c := by
    rw [hkept.written]
    exact List.mem_map_of_mem hchunk
  rcases List.mem_append.mp hmem with hwritten | hin
  · exact h.written c _ hwritten
  · rw [toWrite] at hin
    split at hin
    · rename_i fd buffer hat
      split at hin
      · rw [List.mem_singleton.mp hin]
        exact h.inHand fd buffer (Or.inl hat)
      · cases hin
    · rename_i fd buffer hat
      split at hin
      · rw [List.mem_singleton.mp hin]
        exact h.inHand fd buffer (Or.inr hat)
      · cases hin
    · exact absurd ‹_› (hpoint _ _)
    · cases hin

/-- In every run: what a client has sent is read in its order and nothing of it is lost; for each
piece that was read a whole buffer is written, the piece and zeros behind it. No piece fills the
buffer without a NUL, unless `printf` has read behind it and the run is over. Where the loop rests,
everything that the accepted clients have sent has been read and written back, and those that have
gone are closed. -/
theorem event_loop_echoes (hrun : runEvents step (start listenfd others) l = some s) (c : Nat) :
    (s.client c).chunks.flatten ++ (s.client c).stream.waiting = (s.client c).stream.arrived ∧
      (∀ chunk ∈ (s.client c).chunks, chunk ≠ [] ∧ chunk.length ≤ READ_BUFFER) ∧
      ((∀ fd buffer, s.point ≠ .overread fd buffer) →
        ∀ chunk ∈ (s.client c).chunks, chunk.length < READ_BUFFER ∨ 0 ∈ chunk) ∧
      (s.client c).written ++ s.toWrite c = (s.client c).chunks.map padded ∧
      (∀ buffer ∈ (s.client c).written, buffer.length = READ_BUFFER) ∧
      (s.Resting → c ∈ s.queue.taken →
        (s.client c).chunks.flatten = (s.client c).stream.arrived ∧
        (s.client c).written = (s.client c).chunks.map padded ∧
        ((s.client c).ending = .again ∨ ∀ fd, s.file fd ≠ some (.client c))) := by
  have h := good_run hrun
  have hkept := h.kept c
  have hall : (s.client c).chunks.flatten ++ (s.client c).stream.waiting =
      (s.client c).stream.arrived := by
    rw [hkept.chunks]
    exact hkept.conserved
  refine ⟨hall, hkept.sizes, (printed_run hrun).pieces hkept, hkept.written, hkept.whole,
    fun hrest hc => ?_⟩
  obtain ⟨hnil, hend⟩ := h.resting hrest hc
  refine ⟨?_, ?_, hend⟩
  · rw [hnil, List.append_nil] at hall
    exact hall
  · have hwritten := hkept.written
    rw [toWrite, hrest.point, List.append_nil] at hwritten
    exact hwritten

/-- One client sends three bytes, which come back with zeros behind them. -/
theorem event_loop_echoes_three : ∃ s,
    runEvents step (start 4 [0, 1, 2, 3]) [.connect, .poll [(4, 1)], .handleEvent, .accept (some 5),
      .enableReading, .send 0 [97, 98, 99], .poll [(5, 1)], .handleEvent, .read 3, .write,
      .readNothing] = some s ∧
      (s.client 0).written ++ s.toWrite 0 = (s.client 0).chunks.map padded ∧
      (s.client 0).chunks = [[97, 98, 99]] :=
  ⟨_, rfl, (@event_loop_echoes 4 [0, 1, 2, 3] _ [.connect, .poll [(4, 1)], .handleEvent,
    .accept (some 5), .enableReading, .send 0 [97, 98, 99], .poll [(5, 1)], .handleEvent, .read 3,
    .write, .readNothing] rfl 0).2.2.2.1, rfl⟩

/-! ### The queue of the listener -/

/-- Without a new connection, connections only leave the queue. -/
structure Leaves (q q' : EdgeSource Nat) : Prop where
  merged : q'.merged = q.merged
  arrived : q'.arrived = q.arrived
  taken : q.taken <+: q'.taken

theorem Leaves.refl (q : EdgeSource Nat) : Leaves q q := ⟨rfl, rfl, List.prefix_rfl⟩

theorem Leaves.trans {q q' q'' : EdgeSource Nat} (h : Leaves q q') (h' : Leaves q' q'') :
    Leaves q q'' :=
  ⟨h'.merged.trans h.merged, h'.arrived.trans h.arrived, h.taken.trans h'.taken⟩

theorem leaves_deliver (s : Server) (fd : Nat) : Leaves s.queue (s.deliver fd).queue := by
  rw [deliver]
  split
  · exact ⟨rfl, rfl, List.prefix_rfl⟩
  · exact .refl _
  · exact .refl _

theorem leaves_reports (events : List (Nat × UInt32)) :
    ∀ s : Server, Leaves s.queue (events.foldl report s).queue := by
  induction events with
  | nil => exact fun s => .refl _
  | cons event events ih =>
      intro s
      refine Leaves.trans ?_ (ih _)
      rw [report]
      split
      · exact .refl _
      · exact leaves_deliver s event.1

theorem leaves_step (h : Good listenfd s) (he : e ≠ .connect) (hstep : s.step e = some t) :
    Leaves s.queue t.queue := by
  cases step_cases hstep with
  | connect => exact absurd rfl he
  | lapse => exact leaves_deliver s _
  | poll => exact leaves_reports _ s
  | accept => exact ⟨rfl, rfl, List.prefix_append ..⟩
  | enableReading hpoint =>
      obtain ⟨⟨c, hfd⟩, hnone⟩ := h.toWired.accepted_ok hpoint
      rw [register_eq hnone hfd]
      exact .refl _
  | readNothing =>
      rw [readNothing]
      split <;> exact .refl _
  | send | finish | pollFails | handleEvent | acceptFails | ctlFails | read | readFails | interrupted
    | write | writeFails | sigpipe => exact .refl _

theorem leaves_run (h : Good listenfd s) (hl : ∀ e ∈ l, e ≠ .connect)
    (hrun : runEvents step s l = some t) : Good listenfd t ∧ Leaves s.queue t.queue := by
  induction l generalizing s with
  | nil =>
      cases hrun
      exact ⟨h, .refl _⟩
  | cons e l ih =>
      obtain ⟨u, hu, hrest⟩ := runEvents_cons_eq_some.mp hrun
      obtain ⟨ht, hleaves⟩ := ih (h.step hu) (fun e' he' => hl e' (List.mem_cons_of_mem _ he')) hrest
      exact ⟨ht, (leaves_step h (hl e (List.mem_cons_self ..)) hu).trans hleaves⟩

/-- Where the loop rests, what waits has come while an event was still to be delivered. -/
theorem Good.left_waiting (h : Good listenfd s) (hrest : s.Resting) :
    s.queue.waiting.length = s.queue.merged := by
  have hevent := hrest.ready listenfd (by rw [h.listening]; exact Option.some_ne_none 0)
  rw [ready, h.listener] at hevent
  dsimp only at hevent
  have hone := h.oneEach
  rw [EdgeSource.OneEach, inHand, hrest.active, hrest.point, hevent] at hone
  exact hone

/-- Connections are accepted in their order, one for each event. So `accept` always finds one; but
where the loop rests, as many are left as came while an event was still to be delivered, and they
stay there until another client connects. -/
theorem one_accept_each_event (hrun : runEvents step (start listenfd others) l = some s) :
    s.queue.taken ++ s.queue.waiting = List.range s.connected ∧
      (s.point = .newConnection → s.queue.waiting ≠ []) ∧
      (s.Resting → s.queue.waiting.length = s.queue.merged ∧
        ∀ l' t, (∀ e ∈ l', e ≠ .connect) → runEvents step s l' = some t →
          t.queue.waiting = s.queue.waiting) := by
  have h := good_run hrun
  refine ⟨h.conserved.trans h.numbered, fun hpoint => ?_, fun hrest => ⟨h.left_waiting hrest, ?_⟩⟩
  · have hone := h.oneEach
    rw [inHand, hpoint] at hone
    exact hone.take.1
  · intro l' t hl hrun'
    obtain ⟨ht, hleaves⟩ := leaves_run h hl hrun'
    -- what waits is a rest of what waited, and not shorter
    obtain ⟨more, hmore⟩ := hleaves.taken
    have hall : more ++ t.queue.waiting = s.queue.waiting := by
      have heq : s.queue.taken ++ (more ++ t.queue.waiting) = s.queue.taken ++ s.queue.waiting := by
        rw [← List.append_assoc, hmore, ht.conserved, h.conserved, hleaves.arrived]
      exact List.append_cancel_left heq
    have hlen := congrArg List.length hall
    have hcount := ht.oneEach
    rw [EdgeSource.OneEach, hleaves.merged] at hcount
    rw [List.length_append, h.left_waiting hrest, hcount] at hlen
    have hnil : more = [] := List.eq_nil_of_length_eq_zero (by omega)
    rw [hnil] at hall
    exact hall

/-- Two clients connect before the loop runs: one of them is left. -/
theorem one_accept_each_event_two : ∃ s,
    runEvents step (start 4 [0, 1, 2, 3]) [.connect, .connect, .poll [(4, 1)], .handleEvent,
      .accept (some 5), .enableReading] = some s ∧
      s.queue.taken ++ s.queue.waiting = List.range s.connected ∧ s.queue.waiting = [1] :=
  ⟨_, rfl, (@one_accept_each_event 4 [0, 1, 2, 3] _ [.connect, .connect, .poll [(4, 1)],
    .handleEvent, .accept (some 5), .enableReading] rfl).1, rfl⟩

/-! ### Callbacks -/

/-- A call that fails in the run; a wrong entry for a descriptor is never its cause. -/
def Caused (l : List Event) : Failure → Prop
  | .epollWait => .pollFails ∈ l
  | .accept => .accept none ∈ l
  | .full _ => .ctlFails ∈ l
  | .eexist | .enoent => False

theorem Caused.mono {failure : Failure} {l' : List Event} (hl : ∀ e ∈ l, e ∈ l')
    (h : Caused l failure) : Caused l' failure := by
  cases failure with
  | eexist | enoent => exact h
  | epollWait | accept | full fd => exact hl _ h

/-- `errif` ends the program where a call fails, and never for a wrong entry. -/
theorem exit_step (h : Good listenfd s) (hstep : s.step e = some t) {failure : Failure}
    (ht : t.point = .exited failure) : s.point = .exited failure ∨ Caused [e] failure := by
  cases step_cases hstep with
  | connect | send | finish | readFails | interrupted => exact Or.inl ht
  | lapse => exact Or.inl ((deliver_point s _).symm.trans ht)
  | poll => exact Or.inl ((reports_point _ s).symm.trans ht)
  | pollFails | acceptFails | ctlFails =>
      cases ht
      exact Or.inr (List.mem_singleton_self _)
  | @handleEvent p rest channel =>
      cases hcallback : channel.callback with
      | newConnection =>
          rw [hcallback] at ht
          cases ht
      | handleReadEvent fd =>
          rw [hcallback] at ht
          cases ht
  | enableReading hpoint =>
      obtain ⟨⟨c, hfd⟩, hnone⟩ := h.toWired.accepted_ok hpoint
      rw [register_eq hnone hfd] at ht
      cases ht
  | readNothing =>
      rw [readNothing] at ht
      split at ht
      · cases ht
      · cases ht
      · exact Or.inl ht
  | @read fd c n =>
      dsimp only at ht
      rcases afterRead_cases fd ((s.client c).stream.waiting.take n) with ⟨hafter, -⟩ | hafter
      · cases hafter.symm.trans ht
      · cases hafter.symm.trans ht
  | accept | write | writeFails | sigpipe => cases ht

theorem exit_run (h : Good listenfd s) (hrun : runEvents step s l = some t) {failure : Failure}
    (ht : t.point = .exited failure) : s.point = .exited failure ∨ Caused l failure := by
  induction l generalizing s with
  | nil =>
      cases hrun
      exact Or.inl ht
  | cons e l ih =>
      obtain ⟨u, hu, hrest⟩ := runEvents_cons_eq_some.mp hrun
      rcases ih (h.step hu) hrest with hexit | hcaused
      · refine (exit_step h hu hexit).imp_right fun hcaused => hcaused.mono fun e' he' => ?_
        rw [List.mem_singleton.mp he']
        exact List.mem_cons_self ..
      · exact Or.inr (hcaused.mono fun _ he' => List.mem_cons_of_mem _ he')

/-- In every run: the channels in `channels` are there, and the callback of each is for what is behind
its descriptor; `read`, `write` and `close` are called on the open descriptor of a client; and the
program ends in `errif` only when `epoll_wait` or `accept` has failed, or `epoll_ctl` for want of
room, and not because a descriptor has an entry already or has none. -/
theorem callbacks_reach_clients (hrun : runEvents step (start listenfd others) l = some s) :
    (∀ p ∈ s.active, ∃ channel, s.channels[p]? = some channel ∧
        s.Serves channel.fd channel.callback) ∧
      (∀ fd, (s.point = .read fd ∨ ∃ buffer, s.point = .write fd buffer) →
        ∃ c, s.file fd = some (.client c) ∧ c ∈ s.queue.taken) ∧
      (∀ failure, s.point = .exited failure → Caused l failure) := by
  have h := good_run hrun
  refine ⟨fun p hp => ?_, fun fd hpoint => ?_, fun failure hfailure => ?_⟩
  · obtain ⟨fd, hfd⟩ := h.active p hp
    obtain ⟨channel, hchannel, rfl, hserves⟩ := h.entry fd p hfd
    exact ⟨channel, hchannel, hserves⟩
  · have hopen : ∃ c, s.file fd = some (.client c) := by
      rcases hpoint with hpoint | ⟨buffer, hpoint⟩
      · exact (h.at_work (by rw [hpoint]; rfl) (by simp [hpoint]) (by simp [hpoint])).1
      · exact (h.at_work (by rw [hpoint]; rfl) (by simp [hpoint]) (by simp [hpoint])).1
    obtain ⟨c, hc⟩ := hopen
    exact ⟨c, hc, h.accepted fd c hc⟩
  · rcases exit_run good_start hrun hfailure with hstart | hcaused
    · rw [start_eq] at hstart
      cases hstart
    · exact hcaused

/-- The descriptor of a client that has gone is used again. -/
theorem callbacks_reach_clients_again : ∃ s,
    runEvents step (start 4 [0, 1, 2, 3]) [.connect, .poll [(4, 1)], .handleEvent, .accept (some 5),
      .enableReading, .finish 0 .eof, .connect, .poll [(5, 1), (4, 1)], .handleEvent, .readNothing,
      .handleEvent, .accept (some 5), .enableReading, .send 1 [97], .poll [(5, 1)]] = some s ∧
      s.active = [2] ∧ ∀ p ∈ s.active, ∃ channel, s.channels[p]? = some channel ∧
        s.Serves channel.fd channel.callback :=
  ⟨_, rfl, rfl, (@callbacks_reach_clients 4 [0, 1, 2, 3] _ [.connect, .poll [(4, 1)], .handleEvent,
    .accept (some 5), .enableReading, .finish 0 .eof, .connect, .poll [(5, 1), (4, 1)], .handleEvent,
    .readNothing, .handleEvent, .accept (some 5), .enableReading, .send 1 [97],
    .poll [(5, 1)]] rfl).1⟩

end Runs

end Server

end CLanguageLearning.EventLoop
