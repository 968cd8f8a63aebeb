import CLanguageLearning.Epoll.EventLoop

/-!
# What the events of the event loop keep

Each entry of `epollfd` is a channel of the server for the descriptor it is entered with, and the
callback of a channel works on that descriptor (`Wired`). What each client has sent is read in order
and written back piece by piece, and a client with something to read has an event to come or is being
served (`Echoes`). Every event keeps both (`Good.step`). A buffer goes to `write` only if `printf` has
found its end in it (`Printed`).
-/

set_option autoImplicit false

namespace CLanguageLearning.EventLoop

open CLanguageLearning.Foundation
open CLanguageLearning.Epoll (Ending)

namespace Server

/-- The callback is the one for what is behind the descriptor. -/
def Serves (s : Server) (fd : Nat) (callback : Callback) : Prop :=
  (s.file fd = some .listener ∧ callback = .newConnection) ∨
    ∃ c, s.file fd = some (.client c) ∧ callback = .handleReadEvent fd

/-- A callback at work has its descriptor, and its channel is not in `channels` any more. -/
def PointOk (s : Server) : Prop :=
  match s.point with
  | .loop | .newConnection | .exited _ | .killed _ _ | .overread _ _ => True
  | .accepted fd => (∃ c, s.file fd = some (.client c)) ∧ s.interest fd = none
  | .read fd | .write fd _ =>
      (∃ c, s.file fd = some (.client c)) ∧ ∃ p, s.interest fd = some p ∧ p ∉ s.active

/-- `accept` is to be called, or has failed. -/
def accepting : Point → Bool
  | .newConnection => true
  | .exited .accept => true
  | _ => false

/-- The new socket, as long as it has no entry in `epollfd`. -/
def newSocket : Point → Option Nat
  | .accepted fd | .exited (.full fd) => some fd
  | _ => none

/-- The events of the listener that have been delivered and not been served. -/
def inHand (s : Server) : Nat := s.active.count 0 + (accepting s.point).toNat

/-- The descriptors, the entries of `epollfd`, the channels and the queue fit together; channel 0 is
that of the listener. -/
structure Wired (listenfd : Nat) (s : Server) : Prop where
  listener : s.file listenfd = some .listener
  listening : s.interest listenfd = some 0
  only : ∀ fd, s.file fd = some .listener → fd = listenfd
  apart : ∀ fd fd' c, s.file fd = some (.client c) → s.file fd' = some (.client c) → fd = fd'
  accepted : ∀ fd c, s.file fd = some (.client c) → c ∈ s.queue.taken
  entry : ∀ fd p, s.interest fd = some p →
    ∃ channel, s.channels[p]? = some channel ∧ channel.fd = fd ∧ s.Serves fd channel.callback
  entered : ∀ fd c, s.file fd = some (.client c) → s.interest fd = none →
    newSocket s.point = some fd
  active : ∀ p ∈ s.active, ∃ fd, s.interest fd = some p
  distinct : s.active.Nodup
  point : s.PointOk
  conserved : s.queue.Conserved
  numbered : s.queue.arrived = List.range s.connected
  oneEach : s.queue.OneEach s.inHand

section Wiring

variable {listenfd fd p c : Nat} {s : Server}

/-- Two entries with the same channel are one. -/
theorem Wired.entry_inj (h : Wired listenfd s) {fd' : Nat} (hfd : s.interest fd = some p)
    (hfd' : s.interest fd' = some p) : fd = fd' := by
  obtain ⟨ch, hch, rfl, -⟩ := h.entry fd p hfd
  obtain ⟨ch', hch', rfl, -⟩ := h.entry fd' p hfd'
  rw [hch, Option.some.injEq] at hch'
  rw [hch']

/-- A closed descriptor has no entry. -/
theorem Wired.no_entry (h : Wired listenfd s) (hfd : s.file fd = none) : s.interest fd = none := by
  cases hp : s.interest fd with
  | none => rfl
  | some p =>
      obtain ⟨ch, -, -, ⟨hfile, -⟩ | ⟨c, hfile, -⟩⟩ := h.entry fd p hp
      · rw [hfd] at hfile
        cases hfile
      · rw [hfd] at hfile
        cases hfile

theorem Wired.client_ne (h : Wired listenfd s) (hfd : s.file fd = some (.client c)) :
    fd ≠ listenfd := by
  rintro rfl
  rw [h.listener] at hfd
  cases hfd

/-- The channel of a client is not that of the listener. -/
theorem Wired.client_entry (h : Wired listenfd s) (hfd : s.file fd = some (.client c))
    (hp : s.interest fd = some p) : p ≠ 0 := by
  rintro rfl
  exact h.client_ne hfd (h.entry_inj hp h.listening)

theorem Wired.onClient (h : Wired listenfd s) (f : Client → Client) :
    Wired listenfd (s.onClient c f) :=
  ⟨h.listener, h.listening, h.only, h.apart, h.accepted, h.entry, h.entered, h.active, h.distinct,
    h.point, h.conserved, h.numbered, h.oneEach⟩

/-- The thread goes on inside a callback, or leaves it. -/
theorem Wired.setPoint (h : Wired listenfd s) {q : Point} (hnew : newSocket q = newSocket s.point)
    (hsame : accepting q = accepting s.point) (hq : PointOk { s with point := q }) :
    Wired listenfd { s with point := q } where
  listener := h.listener
  listening := h.listening
  only := h.only
  apart := h.apart
  accepted := h.accepted
  entry := h.entry
  entered := fun fd c hfd hnone => hnew.trans (h.entered fd c hfd hnone)
  active := h.active
  distinct := h.distinct
  point := hq
  conserved := h.conserved
  numbered := h.numbered
  oneEach := by
    rw [inHand, hsame]
    exact h.oneEach

theorem Wired.connect (h : Wired listenfd s) :
    Wired listenfd { s with queue := s.queue.arrive [s.connected], connected := s.connected + 1 } where
  listener := h.listener
  listening := h.listening
  only := h.only
  apart := h.apart
  accepted := h.accepted
  entry := h.entry
  entered := h.entered
  active := h.active
  distinct := h.distinct
  point := h.point
  conserved := h.conserved.arrive _
  numbered := by
    change s.queue.arrived ++ [s.connected] = _
    rw [h.numbered, List.range_succ]
  oneEach := h.oneEach.arrive _

/-- An event of a client is dropped or delivered. -/
theorem Wired.deliver_client (h : Wired listenfd s) (hfd : s.file fd = some (.client c)) :
    Wired listenfd (s.deliver fd) := by
  rw [Server.deliver_client hfd]
  exact h.onClient _

theorem Wired.lapse (h : Wired listenfd s) (hready : s.ready fd = true)
    (hreadable : s.readable fd = false) : Wired listenfd (s.deliver fd) := by
  rw [ready] at hready
  rw [readable] at hreadable
  rw [Server.deliver]
  split at hready
  · -- an event of the listener has a connection to accept
    rename_i hfile
    rw [hfile] at hreadable
    exact absurd (of_decide_eq_false hreadable) (not_not.mpr (h.oneEach.waiting_ne_nil hready))
  · exact h.onClient _
  · cases hready

/-- A turn of the loop in `poll`. -/
theorem Wired.report (h : Wired listenfd s) {mask : UInt32} (hp : s.interest fd = some p)
    (hready : s.ready fd = true) (hnot : p ∉ s.active) (hloop : s.point = .loop) :
    Wired listenfd (s.report (fd, mask)) := by
  obtain ⟨ch, hch, hchfd, hserves⟩ := h.entry fd p hp
  -- an event of the listener is in hand from here on; those of the clients do not count
  have hqueue : (s.deliver fd).queue.Conserved ∧
      (s.deliver fd).queue.arrived = s.queue.arrived ∧
      (s.deliver fd).queue.taken = s.queue.taken ∧
      (s.deliver fd).queue.OneEach ((s.active ++ [p]).count 0) := by
    have hone := h.oneEach
    rw [inHand, hloop] at hone
    rcases hserves with ⟨hfile, -⟩ | ⟨c, hfile, -⟩
    · obtain rfl := h.only fd hfile
      obtain rfl : p = 0 := Option.some.inj (hp.symm.trans h.listening)
      rw [ready, hfile] at hready
      rw [deliver_listener hfile, List.count_append, List.count_singleton_self]
      exact ⟨h.conserved.deliver, rfl, rfl, hone.deliver hready⟩
    · rw [Server.deliver_client hfile, List.count_append, List.count_singleton,
        if_neg (by simpa using h.client_entry hfile hp)]
      exact ⟨h.conserved, rfl, rfl, hone⟩
  obtain ⟨hconserved, harrived, htaken, hone⟩ := hqueue
  rw [report_eq hp]
  exact {
    listener := h.listener
    listening := h.listening
    only := h.only
    apart := h.apart
    accepted := fun fd' c hfile => htaken.symm ▸ h.accepted fd' c hfile
    entry := by
      intro fd' p' hp'
      obtain ⟨ch', hch', hfd', hserves'⟩ := h.entry fd' p' hp'
      dsimp only
      rw [List.getElem?_modify, hch']
      refine ⟨_, rfl, ?_, ?_⟩
      · split <;> exact hfd'
      · split <;> exact hserves'
    entered := h.entered
    active := by
      intro p' hp'
      rcases List.mem_append.mp hp' with hp' | hp'
      · exact h.active p' hp'
      · rw [List.mem_singleton.mp hp']
        exact ⟨fd, hp⟩
    distinct := by
      rw [List.nodup_append]
      refine ⟨h.distinct, List.nodup_singleton p, ?_⟩
      rintro q hq r hr rfl
      rw [List.mem_singleton.mp hr] at hq
      exact hnot hq
    point := by
      rw [PointOk, hloop]
      trivial
    conserved := hconserved
    numbered := harrived.trans h.numbered
    oneEach := by
      rw [inHand, hloop]
      exact hone }

/-- The next callback is called. -/
theorem Wired.handleEvent (h : Wired listenfd s) {rest : List Nat} {channel : Channel}
    (hloop : s.point = .loop) (hactive : s.active = p :: rest)
    (hchannel : s.channels[p]? = some channel) :
    Wired listenfd { s with active := rest, point := Callback.point channel.callback } := by
  obtain ⟨fd, hp⟩ := h.active p (by rw [hactive]; exact List.mem_cons_self ..)
  obtain ⟨ch, hch, -, hserves⟩ := h.entry fd p hp
  rw [hchannel, Option.some.injEq] at hch
  subst hch
  have hdistinct := h.distinct
  rw [hactive, List.nodup_cons] at hdistinct
  have hone := h.oneEach
  rw [inHand, hloop, hactive] at hone
  exact {
    listener := h.listener
    listening := h.listening
    only := h.only
    apart := h.apart
    accepted := h.accepted
    entry := h.entry
    entered := by
      intro fd' c hfile hnone
      have hpoint := h.entered fd' c hfile hnone
      rw [hloop] at hpoint
      cases hpoint
    active := fun q hq => h.active q (by rw [hactive]; exact List.mem_cons_of_mem _ hq)
    distinct := hdistinct.2
    point := by
      rcases hserves with ⟨-, hcallback⟩ | ⟨c, hfile, hcallback⟩
      · rw [hcallback]
        trivial
      · rw [hcallback]
        exact ⟨⟨c, hfile⟩, p, hp, hdistinct.1⟩
    conserved := h.conserved
    numbered := h.numbered
    oneEach := by
      rw [inHand]
      dsimp only
      -- an event of the listener leaves `active` for the call of `accept`
      rcases hserves with ⟨hfile, hcallback⟩ | ⟨c, hfile, hcallback⟩
      · obtain rfl := h.only fd hfile
        obtain rfl : p = 0 := Option.some.inj (hp.symm.trans h.listening)
        rw [List.count_cons_self] at hone
        rw [hcallback]
        exact hone
      · rw [List.count_cons_of_ne (h.client_entry hfile hp)] at hone
        rw [hcallback]
        exact hone }

/-- `accept` has returned the descriptor `fd`, which was not open. -/
theorem Wired.accept (h : Wired listenfd s) {rest : List Nat} (hpoint : s.point = .newConnection)
    (hwaiting : s.queue.waiting = c :: rest) (hfd : s.file fd = none) :
    Wired listenfd { s with file := Function.update s.file fd (some (.client c)),
                            queue := s.queue.take 1, point := .accepted fd } := by
  have hne : fd ≠ listenfd := by
    rintro rfl
    rw [h.listener] at hfd
    cases hfd
  have hold : ∀ fd' f, s.file fd' = some f →
      Function.update s.file fd (some (.client c)) fd' = some f := by
    intro fd' f hf
    refine (Function.update_of_ne ?_ ..).trans hf
    rintro rfl
    rw [hfd] at hf
    cases hf
  have htaken : (s.queue.take 1).taken = s.queue.taken ++ [c] := by
    rw [EdgeSource.take, hwaiting]
    rfl
  -- the connection has not been accepted before
  have hnew : c ∉ s.queue.taken := by
    have hnodup : (s.queue.taken ++ s.queue.waiting).Nodup := by
      rw [h.conserved, h.numbered]
      exact List.nodup_range
    rw [hwaiting] at hnodup
    exact fun hmem => (List.nodup_append.mp hnodup).2.2 c hmem c (List.mem_cons_self ..) rfl
  have hone := h.oneEach
  rw [inHand, hpoint] at hone
  exact {
    listener := hold listenfd _ h.listener
    listening := h.listening
    only := by
      intro fd' hf
      dsimp only at hf
      rw [Function.update_apply] at hf
      split at hf
      · cases hf
      · exact h.only fd' hf
    apart := by
      intro fd' fd'' c' hf' hf''
      dsimp only at hf' hf''
      rw [Function.update_apply] at hf' hf''
      split at hf' <;> split at hf''
      · rename_i hfd' hfd''
        rw [hfd', hfd'']
      · cases hf'
        exact absurd (h.accepted _ _ hf'') hnew
      · cases hf''
        exact absurd (h.accepted _ _ hf') hnew
      · exact h.apart fd' fd'' c' hf' hf''
    accepted := by
      intro fd' c' hf
      dsimp only at hf ⊢
      rw [htaken, List.mem_append, List.mem_singleton]
      rw [Function.update_apply] at hf
      split at hf
      · cases hf
        exact Or.inr rfl
      · exact Or.inl (h.accepted fd' c' hf)
    entry := by
      intro fd' p' hp'
      obtain ⟨ch, hch, hchfd, hserves⟩ := h.entry fd' p' hp'
      refine ⟨ch, hch, hchfd, ?_⟩
      rcases hserves with ⟨hf, hcallback⟩ | ⟨c', hf, hcallback⟩
      · exact Or.inl ⟨hold _ _ hf, hcallback⟩
      · exact Or.inr ⟨c', hold _ _ hf, hcallback⟩
    entered := by
      intro fd' c' hf hnone
      dsimp only at hf
      rw [Function.update_apply] at hf
      split at hf
      · rename_i hfd'
        rw [hfd']
        rfl
      · have hold' := h.entered fd' c' hf hnone
        rw [hpoint] at hold'
        cases hold'
    active := h.active
    distinct := h.distinct
    point := ⟨⟨c, Function.update_self ..⟩, h.no_entry hfd⟩
    conserved := h.conserved.take 1
    numbered := h.numbered
    oneEach := hone.take.2 }

/-- The new descriptor is that of a client, and has no entry. -/
theorem Wired.accepted_ok (h : Wired listenfd s) (hpoint : s.point = .accepted fd) :
    (∃ c, s.file fd = some (.client c)) ∧ s.interest fd = none := by
  have hok := h.point
  rw [PointOk, hpoint] at hok
  exact hok

/-- The rest of `newConnection`. -/
theorem Wired.register (h : Wired listenfd s) (hpoint : s.point = .accepted fd) :
    Wired listenfd (s.register fd) := by
  obtain ⟨⟨c, hfd⟩, hnone⟩ := h.accepted_ok hpoint
  have hlt : ∀ fd' p, s.interest fd' = some p → p < s.channels.length := by
    intro fd' p hp
    obtain ⟨ch, hch, -⟩ := h.entry fd' p hp
    exact (List.getElem?_eq_some_iff.mp hch).1
  -- no entry is replaced, since the descriptor has none
  have hold : ∀ fd' p, s.interest fd' = some p →
      Function.update s.interest fd (some s.channels.length) fd' = some p := by
    intro fd' p hp
    refine (Function.update_of_ne ?_ ..).trans hp
    rintro rfl
    rw [hnone] at hp
    cases hp
  have hone := h.oneEach
  rw [inHand, hpoint] at hone
  rw [register_eq hnone hfd]
  exact {
    listener := h.listener
    listening := hold _ _ h.listening
    only := h.only
    apart := h.apart
    accepted := h.accepted
    entry := by
      intro fd' p hp
      dsimp only at hp ⊢
      rw [Function.update_apply] at hp
      split at hp
      · rename_i hfd'
        cases hp
        exact ⟨_, List.getElem?_concat_length, hfd'.symm, Or.inr ⟨c, hfd' ▸ hfd, by rw [hfd']⟩⟩
      · obtain ⟨ch, hch, hchfd, hserves⟩ := h.entry fd' p hp
        exact ⟨ch, (List.getElem?_append_left (hlt fd' p hp)).trans hch, hchfd, hserves⟩
    entered := by
      intro fd' c' hf hnone'
      dsimp only at hnone'
      rw [Function.update_apply] at hnone'
      split at hnone'
      · cases hnone'
      · rename_i hne
        have hpoint' := h.entered fd' c' hf hnone'
        rw [hpoint] at hpoint'
        cases hpoint'
        exact absurd rfl hne
    active := by
      intro p hp
      obtain ⟨fd', hp'⟩ := h.active p hp
      exact ⟨fd', hold _ _ hp'⟩
    distinct := h.distinct
    point := trivial
    conserved := h.conserved
    numbered := h.numbered
    oneEach := hone }

/-- `handleReadEvent` has closed its descriptor, and returns. -/
theorem Wired.close (h : Wired listenfd s) (hpoint : s.point = .read fd) :
    Wired listenfd { s.close fd with point := .loop } := by
  have hok := h.point
  rw [PointOk, hpoint] at hok
  obtain ⟨⟨c, hfd⟩, p, hp, hnot⟩ := hok
  have hne := h.client_ne hfd
  have hone := h.oneEach
  rw [inHand, hpoint] at hone
  exact {
    listener := (Function.update_of_ne hne.symm ..).trans h.listener
    listening := (Function.update_of_ne hne.symm ..).trans h.listening
    only := fun fd' hf => h.only fd' (close_file hf).2
    apart := fun fd' fd'' c' hf hf' => h.apart fd' fd'' c' (close_file hf).2 (close_file hf').2
    accepted := fun fd' c' hf => h.accepted fd' c' (close_file hf).2
    entry := by
      intro fd' p' hp'
      dsimp only [Server.close] at hp' ⊢
      rw [Function.update_apply] at hp'
      split at hp'
      · cases hp'
      · rename_i hne'
        obtain ⟨ch, hch, hchfd, hserves⟩ := h.entry fd' p' hp'
        refine ⟨ch, hch, hchfd, ?_⟩
        rcases hserves with ⟨hf, hcallback⟩ | ⟨c', hf, hcallback⟩
        · exact Or.inl ⟨(Function.update_of_ne hne' ..).trans hf, hcallback⟩
        · exact Or.inr ⟨c', (Function.update_of_ne hne' ..).trans hf, hcallback⟩
    entered := by
      intro fd' c' hf hnone
      obtain ⟨hne', hf'⟩ := close_file hf
      have hnone' := (Function.update_of_ne hne' ..).symm.trans hnone
      have hpoint' := h.entered fd' c' hf' hnone'
      rw [hpoint] at hpoint'
      cases hpoint'
    active := by
      intro p' hp'
      obtain ⟨fd', hfd'⟩ := h.active p' hp'
      -- the channel of the closed descriptor is at work, and not among those to be called
      refine ⟨fd', (Function.update_of_ne ?_ ..).trans hfd'⟩
      rintro rfl
      rw [hp] at hfd'
      cases hfd'
      exact hnot hp'
    distinct := h.distinct
    point := trivial
    conserved := h.conserved
    numbered := h.numbered
    oneEach := hone }

end Wiring

/-! ## The clients -/

/-- What a client has sent has been read in pieces, and the pieces have been written back, but for
those to be written. -/
structure Kept (k : Client) (toWrite : List (List UInt8)) : Prop where
  conserved : k.stream.Conserved
  chunks : k.chunks.flatten = k.stream.taken
  sizes : ∀ chunk ∈ k.chunks, chunk ≠ [] ∧ chunk.length ≤ READ_BUFFER
  written : k.written ++ toWrite = k.chunks.map padded

/-- The descriptor that `handleReadEvent` works on. -/
def sockfd : Point → Option Nat
  | .read fd | .write fd _ | .killed fd _ | .overread fd _ => some fd
  | _ => none

/-- The buffer that the client is to be sent. -/
def toWrite (s : Server) (c : Nat) : List (List UInt8) :=
  match s.point with
  | .write fd buffer | .killed fd buffer | .overread fd buffer =>
      if s.file fd = some (.client c) then [buffer] else []
  | _ => []

/-- The callback for the descriptor is to be called, or at work. -/
def Watched (s : Server) (fd : Nat) : Prop :=
  (∃ p ∈ s.active, s.interest fd = some p) ∨ sockfd s.point = some fd

/-- What the clients send comes back, and no client is forgotten. -/
structure Echoes (s : Server) : Prop where
  kept : ∀ c, Kept (s.client c) (s.toWrite c)
  covered : ∀ fd c, s.file fd = some (.client c) → s.interest fd ≠ none →
    (s.client c).stream.Covered ((s.client c).readable = true) (s.Watched fd)
  closed : ∀ c ∈ s.queue.taken, (∀ fd, s.file fd ≠ some (.client c)) →
    (s.client c).stream.waiting = [] ∧ (s.client c).ending ≠ .again

section Clients

variable {listenfd fd p c : Nat} {s : Server}

theorem kept_new : Kept .new [] :=
  ⟨EdgeSource.conserved_empty, rfl, fun _ h => absurd h List.not_mem_nil, rfl⟩

theorem Kept.arrive {k : Client} {w : List (List UInt8)} (h : Kept k w) (l : List UInt8)
    (ending : Ending) : Kept { k with stream := k.stream.arrive l, ending := ending } w :=
  ⟨h.conserved.arrive l, h.chunks, h.sizes, h.written⟩

theorem padded_length {chunk : List UInt8} (h : chunk.length ≤ READ_BUFFER) :
    (padded chunk).length = READ_BUFFER := by
  rw [padded, List.length_append, List.length_replicate]
  omega

/-- Every `write` is given the whole buffer. -/
theorem Kept.whole {k : Client} {w : List (List UInt8)} (h : Kept k w) :
    ∀ buffer ∈ k.written, buffer.length = READ_BUFFER := by
  intro buffer hbuffer
  have hmem : buffer ∈ k.chunks.map padded := by
    rw [← h.written]
    exact List.mem_append_left _ hbuffer
  obtain ⟨chunk, hchunk, rfl⟩ := List.mem_map.mp hmem
  exact padded_length (h.sizes chunk hchunk).2

/-- `read` returns `n` bytes, which are to be written. -/
theorem Kept.read {k : Client} (h : Kept k []) {n : Nat} (hpos : 0 < n) (hn : n ≤ READ_BUFFER)
    (hle : n ≤ k.stream.waiting.length) :
    Kept { k with stream := k.stream.take n, chunks := k.chunks ++ [k.stream.waiting.take n] }
      [padded (k.stream.waiting.take n)] where
  conserved := h.conserved.take n
  chunks := by
    dsimp only
    rw [List.flatten_append, h.chunks, EdgeSource.take]
    simp
  sizes := by
    intro chunk hchunk
    rcases List.mem_append.mp hchunk with hold | hnew
    · exact h.sizes chunk hold
    · rw [List.mem_singleton.mp hnew]
      have hlen : (k.stream.waiting.take n).length = n := List.length_take_of_le hle
      refine ⟨?_, hlen.trans_le hn⟩
      intro hnil
      rw [hnil, List.length_nil] at hlen
      exact hpos.ne hlen
  written := by
    have hwritten := h.written
    rw [List.append_nil] at hwritten
    dsimp only
    rw [hwritten, List.map_append, List.map_singleton]

theorem Kept.write {k : Client} {buffer : List UInt8} (h : Kept k [buffer]) :
    Kept { k with written := k.written ++ [buffer] } [] :=
  ⟨h.conserved, h.chunks, h.sizes, (List.append_nil _).trans h.written⟩

/-- One client and the place of the thread change; the buffer in hand is no other client's. -/
theorem Echoes.move (h : Echoes s) (c : Nat) (f : Client → Client) {q : Point}
    (hkept : Kept (f (s.client c)) (toWrite { s with point := q } c))
    (hothers : ∀ c', c' ≠ c → toWrite { s with point := q } c' = s.toWrite c')
    (hwatched : ∀ fd, s.Watched fd → Watched { s with point := q } fd)
    (hcovered : ∀ fd, s.file fd = some (.client c) → s.interest fd ≠ none →
      (f (s.client c)).stream.Covered ((f (s.client c)).readable = true)
        (Watched { s with point := q } fd))
    (hclosed : c ∈ s.queue.taken → (∀ fd, s.file fd ≠ some (.client c)) →
      (f (s.client c)).stream.waiting = [] ∧ (f (s.client c)).ending ≠ .again) :
    Echoes { s.onClient c f with point := q } where
  kept := by
    intro c'
    change Kept ((s.onClient c f).client c') (toWrite { s with point := q } c')
    by_cases hc : c' = c
    · rw [hc, onClient_self]
      exact hkept
    · rw [onClient_of_ne hc, hothers c' hc]
      exact h.kept c'
  covered := by
    intro fd c' hf hentry
    change ((s.onClient c f).client c').stream.Covered
      (((s.onClient c f).client c').readable = true) (Watched { s with point := q } fd)
    by_cases hc : c' = c
    · subst hc
      rw [onClient_self]
      exact hcovered fd hf hentry
    · rw [onClient_of_ne hc]
      exact (h.covered fd c' hf hentry).imp (hwatched fd)
  closed := by
    intro c' hc' hnone
    change ((s.onClient c f).client c').stream.waiting = [] ∧
      ((s.onClient c f).client c').ending ≠ .again
    by_cases hc : c' = c
    · subst hc
      rw [onClient_self]
      exact hclosed hc' hnone
    · rw [onClient_of_ne hc]
      exact h.closed c' hc' hnone

/-- Only the place of the thread changes. -/
theorem Echoes.setPoint (h : Echoes s) {q : Point}
    (hwrite : ∀ c, toWrite { s with point := q } c = s.toWrite c)
    (hwatched : ∀ fd, s.Watched fd → Watched { s with point := q } fd) :
    Echoes { s with point := q } where
  kept := fun c => (hwrite c).symm ▸ h.kept c
  covered := fun fd c hf hentry => (h.covered fd c hf hentry).imp (hwatched fd)
  closed := h.closed

/-- A client that can still send is not closed. -/
theorem Echoes.arrive (h : Echoes s) (hagain : (s.client c).ending = .again) (l : List UInt8)
    (ending : Ending) :
    Echoes (s.onClient c fun k => { k with stream := k.stream.arrive l, ending := ending }) := by
  refine h.move c (fun k => { k with stream := k.stream.arrive l, ending := ending }) (q := s.point)
    ((h.kept c).arrive l ending) (fun _ _ => rfl) (fun _ hw => hw) ?_ ?_
  · exact fun _ _ _ => EdgeSource.covered_arrive _ l
  · exact fun hc hnone => absurd hagain (h.closed c hc hnone).2

theorem Echoes.lapse (h : Echoes s) (hreadable : s.readable fd = false) : Echoes (s.deliver fd) := by
  rw [readable] at hreadable
  rw [deliver]
  split at hreadable
  · exact ⟨h.kept, h.covered, h.closed⟩
  · rename_i c hfile
    refine h.move c (fun k => { k with stream := k.stream.deliver }) (q := s.point) ?_
      (fun _ _ => rfl) (fun _ hw => hw) ?_ (h.closed c)
    · exact ⟨(h.kept c).conserved.deliver, (h.kept c).chunks, (h.kept c).sizes, (h.kept c).written⟩
    · exact fun _ _ _ hdue => absurd hdue (by rw [← Bool.not_eq_true] at hreadable; exact hreadable)
  · exact h

theorem Echoes.report (h : Echoes s) (hw : Wired listenfd s) {mask : UInt32}
    (hp : s.interest fd = some p) : Echoes (s.report (fd, mask)) := by
  rw [report_eq hp]
  have hclient := s.deliver_client_apply fd
  exact {
    kept := by
      intro c
      have hkept := h.kept c
      change Kept ((s.deliver fd).client c) (s.toWrite c)
      rw [hclient]
      split
      · exact ⟨hkept.conserved.deliver, hkept.chunks, hkept.sizes, hkept.written⟩
      · exact hkept
    covered := by
      intro fd' c hf hentry
      dsimp only at hf hentry ⊢
      rw [hclient]
      split
      · -- the event is delivered, and its channel is among those to be called
        rename_i hfile
        obtain rfl := hw.apart fd fd' c hfile hf
        exact EdgeSource.covered_of_watched
          (Or.inl ⟨p, List.mem_append_right _ (List.mem_singleton_self p), hp⟩) _
      · refine (h.covered fd' c hf hentry).imp ?_
        rintro (⟨q, hq, hfd'⟩ | hat)
        · exact Or.inl ⟨q, List.mem_append_left _ hq, hfd'⟩
        · exact Or.inr hat
    closed := by
      intro c hc hnone
      dsimp only at hc hnone ⊢
      rw [deliver_taken] at hc
      rw [hclient]
      split <;> exact h.closed c hc hnone }

theorem Echoes.handleEvent (h : Echoes s) (hw : Wired listenfd s) {rest : List Nat}
    {channel : Channel} (hloop : s.point = .loop) (hactive : s.active = p :: rest)
    (hchannel : s.channels[p]? = some channel) :
    Echoes { s with active := rest, point := Callback.point channel.callback } where
  kept := by
    intro c
    have hkept := h.kept c
    rw [toWrite, hloop] at hkept
    rw [toWrite]
    dsimp only
    cases channel.callback <;> exact hkept
  covered := by
    intro fd c hf hentry
    refine (h.covered fd c hf hentry).imp ?_
    rintro (⟨q, hq, hfd⟩ | hat)
    · rw [hactive] at hq
      rcases List.mem_cons.mp hq with rfl | hq
      -- the callback of the channel works on the descriptor that it is entered with
      · obtain ⟨ch, hch, -, hserves⟩ := hw.entry fd q hfd
        rw [hchannel, Option.some.injEq] at hch
        subst hch
        rcases hserves with ⟨hfile, -⟩ | ⟨c', -, hcallback⟩
        · rw [hf] at hfile
          cases hfile
        · refine Or.inr ?_
          dsimp only
          rw [hcallback]
          rfl
      · exact Or.inl ⟨q, hq, hfd⟩
    · rw [hloop] at hat
      cases hat
  closed := h.closed

theorem Echoes.accept (h : Echoes s) (hw : Wired listenfd s) (hpoint : s.point = .newConnection)
    {rest : List Nat} (hwaiting : s.queue.waiting = c :: rest) (hfd : s.file fd = none) :
    Echoes { s with file := Function.update s.file fd (some (.client c)),
                    queue := s.queue.take 1, point := .accepted fd } where
  kept := by
    intro c'
    have hkept := h.kept c'
    rw [toWrite, hpoint] at hkept
    exact hkept
  covered := by
    intro fd' c' hf hentry
    dsimp only at hf hentry
    rw [Function.update_apply] at hf
    split at hf
    · rename_i hfd'
      rw [hfd'] at hentry
      exact absurd (hw.no_entry hfd) hentry
    · refine (h.covered fd' c' hf hentry).imp ?_
      rintro (hactive | hat)
      · exact Or.inl hactive
      · rw [hpoint] at hat
        cases hat
  closed := by
    intro c' hc' hnone
    dsimp only at hc' hnone
    rw [EdgeSource.take, hwaiting] at hc'
    rcases List.mem_append.mp hc' with hold | hnew
    · refine h.closed c' hold fun fd' hf => hnone fd' ((Function.update_of_ne ?_ ..).trans hf)
      rintro rfl
      rw [hfd] at hf
      cases hf
    · obtain rfl := List.mem_singleton.mp hnew
      exact absurd (Function.update_self ..) (hnone fd)

theorem Echoes.register (h : Echoes s) (hw : Wired listenfd s) (hpoint : s.point = .accepted fd) :
    Echoes (s.register fd) := by
  obtain ⟨⟨c, hfd⟩, hnone⟩ := hw.accepted_ok hpoint
  rw [register_eq hnone hfd]
  generalize hf : (fun k : Client => { k with stream := k.stream.arm k.readable }) = f
  exact {
    kept := by
      intro c'
      have hkept := h.kept c'
      rw [toWrite, hpoint] at hkept
      change Kept ((s.onClient c f).client c') []
      by_cases hc : c' = c
      · subst hc
        rw [onClient_self, ← hf]
        exact ⟨hkept.conserved.arm _, hkept.chunks, hkept.sizes, hkept.written⟩
      · rw [onClient_of_ne hc]
        exact hkept
    covered := by
      intro fd' c' hfile hentry
      dsimp only at hentry ⊢
      change s.file fd' = some (.client c') at hfile
      by_cases hc : c' = c
      · subst hc
        rw [onClient_self, ← hf]
        -- what came before there was an entry is reported by `EPOLL_CTL_ADD`
        exact EdgeSource.covered_arm _ _
      · have hne : fd' ≠ fd := by
          rintro rfl
          rw [hfd] at hfile
          cases hfile
          exact hc rfl
        rw [Function.update_of_ne hne] at hentry
        rw [onClient_of_ne hc]
        refine (h.covered fd' c' hfile hentry).imp ?_
        rintro (⟨q, hq, hfd'⟩ | hat)
        · exact Or.inl ⟨q, hq, (Function.update_of_ne hne ..).trans hfd'⟩
        · rw [hpoint] at hat
          cases hat
    closed := by
      intro c' hc' hno
      dsimp only
      by_cases hc : c' = c
      · subst hc
        exact absurd hfd (hno fd)
      · rw [onClient_of_ne hc]
        exact h.closed c' hc' hno }

/-- What is in the buffer is for the client behind the descriptor alone. -/
theorem toWrite_of_ne {buffer : List UInt8} {q : Point}
    (hq : q = .write fd buffer ∨ q = .overread fd buffer) (hfd : s.file fd = some (.client c))
    {c' : Nat} (hc : c' ≠ c) : toWrite { s with point := q } c' = [] := by
  have hne : s.file fd ≠ some (.client c') := by
    rw [hfd]
    intro heq
    cases heq
    exact hc rfl
  rcases hq with rfl | rfl
  · exact if_neg hne
  · exact if_neg hne

/-- Behind `printf` there is one buffer in hand, for the descriptor that was read. -/
theorem afterRead_cases (fd : Nat) (chunk : List UInt8) :
    (afterRead fd chunk = .write fd (padded chunk) ∧ 0 ∈ padded chunk) ∨
      afterRead fd chunk = .overread fd (padded chunk) := by
  rw [afterRead]
  split
  · next hnul => exact Or.inl ⟨rfl, hnul⟩
  · exact Or.inr rfl

theorem toWrite_afterRead (hfd : s.file fd = some (.client c)) (chunk : List UInt8) :
    toWrite { s with point := afterRead fd chunk } c = [padded chunk] := by
  rw [toWrite]
  dsimp only
  rcases afterRead_cases fd chunk with ⟨hpoint, -⟩ | hpoint
  · rw [hpoint]
    exact if_pos hfd
  · rw [hpoint]
    exact if_pos hfd

/-- `handleReadEvent` goes on with its descriptor. -/
theorem Echoes.work (h : Echoes s) (hw : Wired listenfd s) (f : Client → Client) {q : Point}
    (hfd : s.file fd = some (.client c)) (hold : sockfd s.point = some fd) (hnew : sockfd q = some fd)
    (hothers : ∀ c', c' ≠ c → toWrite { s with point := q } c' = s.toWrite c')
    (hkept : Kept (f (s.client c)) (toWrite { s with point := q } c)) :
    Echoes { s.onClient c f with point := q } := by
  refine h.move c f hkept hothers ?_ ?_ ?_
  · rintro fd' (hactive | hat)
    · exact Or.inl hactive
    · rw [hold] at hat
      exact Or.inr (hnew.trans hat)
  · intro fd' hfd' _
    rw [hw.apart fd' fd c hfd' hfd]
    exact EdgeSource.covered_of_watched (Or.inr hnew) _
  · exact fun _ hnone => absurd hfd (hnone fd)

theorem Echoes.read (h : Echoes s) (hw : Wired listenfd s) (hpoint : s.point = .read fd)
    (hfd : s.file fd = some (.client c)) {n : Nat} (hpos : 0 < n) (hn : n ≤ READ_BUFFER)
    (hle : n ≤ (s.client c).stream.waiting.length) :
    Echoes { s.onClient c fun k =>
        { k with stream := k.stream.take n, chunks := k.chunks ++ [k.stream.waiting.take n] } with
      point := afterRead fd ((s.client c).stream.waiting.take n) } := by
  have hnone : ∀ c', s.toWrite c' = [] := by
    intro c'
    rw [toWrite, hpoint]
  have hcases := afterRead_cases fd ((s.client c).stream.waiting.take n)
  refine h.work hw _ hfd (by rw [hpoint]; rfl) ?_ ?_ ?_
  · rcases hcases with ⟨hafter, -⟩ | hafter <;> rw [hafter] <;> rfl
  · intro c' hc
    rw [hnone]
    exact toWrite_of_ne (hcases.imp_left And.left) hfd hc
  · have hkept := h.kept c
    rw [hnone] at hkept
    rw [toWrite_afterRead hfd]
    exact hkept.read hpos hn hle

theorem Echoes.write (h : Echoes s) (hw : Wired listenfd s) {buffer : List UInt8}
    (hpoint : s.point = .write fd buffer) (hfd : s.file fd = some (.client c)) :
    Echoes { s.onClient c fun k => { k with written := k.written ++ [buffer] } with
      point := .read fd } := by
  refine h.work hw _ hfd (by rw [hpoint]; rfl) rfl ?_ ?_
  · intro c' hc
    have hnone : toWrite { s with point := s.point } c' = [] :=
      toWrite_of_ne (Or.inl hpoint) hfd hc
    exact hnone.symm
  · have hkept := h.kept c
    rw [toWrite, hpoint] at hkept
    dsimp only at hkept
    rw [if_pos hfd] at hkept
    exact hkept.write

/-- Nothing is left to read, or the connection is at its end. -/
theorem Echoes.readNothing (h : Echoes s) (hw : Wired listenfd s) (hpoint : s.point = .read fd)
    (hfd : s.file fd = some (.client c)) (hnil : (s.client c).stream.waiting = []) :
    Echoes (s.readNothing fd c) := by
  have hnone : ∀ c', s.toWrite c' = [] := by
    intro c'
    rw [toWrite, hpoint]
  have hkept : ∀ c', Kept (s.client c') [] := fun c' => hnone c' ▸ h.kept c'
  have hat : sockfd s.point = some fd := by
    rw [hpoint]
    rfl
  rw [Server.readNothing]
  cases hending : (s.client c).ending with
  | again =>
      -- `EAGAIN`: nothing of this client is due when the callback returns
      refine ⟨hkept, fun fd' c' hf hentry => ?_, h.closed⟩
      by_cases hc : c' = c
      · subst hc
        have hnot : (s.client c').readable = false := by
          rw [Client.readable, hnil, hending]
          rfl
        exact fun hdue => absurd (hnot.symm.trans hdue) Bool.false_ne_true
      · refine (h.covered fd' c' hf hentry).imp ?_
        rintro (hactive | hat')
        · exact Or.inl hactive
        · rw [hat, Option.some.injEq] at hat'
          subst hat'
          exact absurd (File.client.inj (Option.some.inj (hf.symm.trans hfd))) hc
  | eof =>
      -- the end of the stream: the client joins those that are closed
      refine ⟨hkept, fun fd' c' hf hentry => ?_, fun c' hc' hno => ?_⟩
      · obtain ⟨hne, hf'⟩ := close_file hf
        have hentry' : s.interest fd' ≠ none :=
          fun hnil => hentry ((Function.update_of_ne hne ..).trans hnil)
        refine (h.covered fd' c' hf' hentry').imp ?_
        rintro (⟨q, hq, hfd'⟩ | hat')
        · exact Or.inl ⟨q, hq, (Function.update_of_ne hne ..).trans hfd'⟩
        · rw [hat, Option.some.injEq] at hat'
          exact absurd hat'.symm hne
      · by_cases hc : c' = c
        · subst hc
          refine ⟨hnil, ?_⟩
          change (s.client c').ending ≠ .again
          rw [hending]
          simp
        · refine h.closed c' hc' fun fd' hf => hno fd' ((Function.update_of_ne ?_ ..).trans hf)
          rintro rfl
          rw [hfd] at hf
          cases hf
          exact hc rfl
  | error =>
      -- any other error: the callback stays at work
      refine h.work hw (fun k => { k with ending := .eof }) (q := s.point) hfd hat hat
        (fun _ _ => rfl) ?_
      exact ⟨(h.kept c).conserved, (h.kept c).chunks, (h.kept c).sizes, (h.kept c).written⟩

end Clients

/-! ## All events -/

/-- What every run keeps. -/
structure Good (listenfd : Nat) (s : Server) : Prop extends Wired listenfd s, Echoes s

section Events

variable {listenfd fd p c : Nat} {s t : Server} {e : Event} {l : List Event}

/-- The events of the other descriptors are as before. -/
theorem ready_report {fd' : Nat} {mask : UInt32} (hw : Wired listenfd s) (hp : s.interest fd = some p)
    (hne : fd' ≠ fd) : (s.report (fd, mask)).ready fd' = s.ready fd' := by
  rw [report_eq hp, ready, ready]
  dsimp only
  cases hfile : s.file fd' with
  | none => rfl
  | some f =>
      cases f with
      | other => rfl
      | listener =>
          dsimp only
          rw [deliver]
          split
          · rename_i hfd
            exact absurd ((hw.only fd' hfile).trans (hw.only fd hfd).symm) hne
          · rfl
          · rfl
      | client c =>
          dsimp only
          rw [deliver_client_apply, if_neg]
          exact fun hfd => hne (hw.apart fd' fd c hfile hfd)

theorem Good.report (h : Good listenfd s) {mask : UInt32} (hp : s.interest fd = some p)
    (hready : s.ready fd = true) (hnot : p ∉ s.active) (hloop : s.point = .loop) :
    Good listenfd (s.report (fd, mask)) :=
  ⟨h.toWired.report hp hready hnot hloop, h.toEchoes.report h.toWired hp⟩

/-- `errif` ends the program where no client is in hand. -/
theorem Good.exit (h : Good listenfd s) {failure : Failure} (hat : sockfd s.point = none)
    (hnone : ∀ c, s.toWrite c = []) (hnew : newSocket (.exited failure) = newSocket s.point)
    (hsame : accepting (.exited failure) = accepting s.point) :
    Good listenfd { s with point := .exited failure } := by
  refine ⟨h.toWired.setPoint hnew hsame trivial, h.toEchoes.setPoint (fun c => (hnone c).symm) ?_⟩
  rintro fd (hactive | hat')
  · exact Or.inl hactive
  · rw [hat] at hat'
    cases hat'

theorem Wired.at_work (h : Wired listenfd s) (hat : sockfd s.point = some fd)
    (hgoes : ∀ buffer, s.point ≠ .killed fd buffer)
    (hreads : ∀ buffer, s.point ≠ .overread fd buffer) :
    (∃ c, s.file fd = some (.client c)) ∧ ∃ p, s.interest fd = some p ∧ p ∉ s.active := by
  have hok := h.point
  rw [PointOk] at hok
  cases hpoint : s.point with
  | read fd' =>
      rw [hpoint] at hat hok
      cases hat
      exact hok
  | write fd' buffer =>
      rw [hpoint] at hat hok
      cases hat
      exact hok
  | killed fd' buffer =>
      rw [hpoint] at hat
      cases hat
      exact absurd hpoint (hgoes buffer)
  | overread fd' buffer =>
      rw [hpoint] at hat
      cases hat
      exact absurd hpoint (hreads buffer)
  | loop | newConnection | accepted fd' | exited failure =>
      rw [hpoint] at hat
      cases hat

theorem Wired.readNothing (h : Wired listenfd s) (hpoint : s.point = .read fd) :
    Wired listenfd (s.readNothing fd c) := by
  rw [Server.readNothing]
  split
  · exact h.setPoint (by rw [hpoint]; rfl) (by rw [hpoint]; rfl) trivial
  · exact h.close hpoint
  · exact h.onClient _

/-- The loop in `poll`: every descriptor that is reported has an entry and an event, and its channel
is not among those found before. -/
theorem Good.reports (events : List (Nat × UInt32)) :
    ∀ {s : Server}, Good listenfd s → s.point = .loop → (events.map Prod.fst).Nodup →
      (∀ event ∈ events, s.ready event.1 = true ∧ ∃ p, s.interest event.1 = some p ∧ p ∉ s.active) →
      Good listenfd (events.foldl Server.report s) := by
  induction events with
  | nil => exact fun h _ _ _ => h
  | cons event events ih =>
      intro s h hloop hnodup hevents
      rw [List.map_cons, List.nodup_cons] at hnodup
      obtain ⟨hready, p, hp, hnot⟩ := hevents event (List.mem_cons_self ..)
      have hreport := @report_eq s event.1 p event.2 hp
      rw [List.foldl_cons]
      apply ih (h.report hp hready hnot hloop)
      · rw [hreport]
        exact hloop
      · exact hnodup.2
      · intro event' hevent'
        obtain ⟨hready', p', hp', hnot'⟩ := hevents event' (List.mem_cons_of_mem _ hevent')
        -- another descriptor, and so another channel
        have hne : event'.1 ≠ event.1 :=
          fun heq => hnodup.1 (heq ▸ List.mem_map_of_mem hevent')
        refine ⟨(ready_report h.toWired hp hne).trans hready', p', ?_, ?_⟩
        · rw [hreport]
          exact hp'
        · rw [hreport]
          intro hmem
          rcases List.mem_append.mp hmem with hold | hnew
          · exact hnot' hold
          · rw [List.mem_singleton.mp hnew] at hp'
            exact hne (h.entry_inj hp' hp)

/-- Every event keeps it. -/
theorem Good.step (h : Good listenfd s) (hstep : s.step e = some t) : Good listenfd t := by
  cases step_cases hstep with
  | connect => exact ⟨h.toWired.connect, h.kept, h.covered, h.closed⟩
  | send hagain => exact ⟨h.toWired.onClient _, h.toEchoes.arrive hagain _ _⟩
  | finish hagain => exact ⟨h.toWired.onClient _, h.toEchoes.arrive hagain [] _⟩
  | lapse hready hreadable =>
      exact ⟨h.toWired.lapse hready hreadable, h.toEchoes.lapse hreadable⟩
  | poll hloop hactive hnodup hevents =>
      refine h.reports _ hloop hnodup fun event hevent => ?_
      obtain ⟨hready, p, hp⟩ := hevents event hevent
      refine ⟨hready, p, hp, ?_⟩
      rw [hactive]
      exact List.not_mem_nil
  | pollFails hloop =>
      exact h.exit (by rw [hloop]; rfl) (fun c => by rw [toWrite, hloop]) (by rw [hloop]; rfl)
        (by rw [hloop]; rfl)
  | handleEvent hloop hactive hchannel =>
      exact ⟨h.toWired.handleEvent hloop hactive hchannel,
        h.toEchoes.handleEvent h.toWired hloop hactive hchannel⟩
  | acceptFails hpoint =>
      exact h.exit (by rw [hpoint]; rfl) (fun c => by rw [toWrite, hpoint]) (by rw [hpoint]; rfl)
        (by rw [hpoint]; rfl)
  | accept hpoint hwaiting hfd =>
      exact ⟨h.toWired.accept hpoint hwaiting hfd,
        h.toEchoes.accept h.toWired hpoint hwaiting hfd⟩
  | enableReading hpoint =>
      exact ⟨h.toWired.register hpoint, h.toEchoes.register h.toWired hpoint⟩
  | ctlFails hpoint =>
      exact h.exit (by rw [hpoint]; rfl) (fun c => by rw [toWrite, hpoint]) (by rw [hpoint]; rfl)
        (by rw [hpoint]; rfl)
  | @read fd c n hpoint hfd hpos hn hle =>
      refine ⟨?_, h.toEchoes.read h.toWired hpoint hfd hpos hn hle⟩
      have hwork := h.toWired.at_work (by rw [hpoint]; rfl) (by simp [hpoint]) (by simp [hpoint])
      rcases afterRead_cases fd ((s.client c).stream.waiting.take n) with ⟨hafter, -⟩ | hafter
      · rw [hafter]
        exact (h.toWired.onClient _).setPoint (by rw [onClient, hpoint]; rfl)
          (by rw [onClient, hpoint]; rfl) hwork
      · rw [hafter]
        exact (h.toWired.onClient _).setPoint (by rw [onClient, hpoint]; rfl)
          (by rw [onClient, hpoint]; rfl) trivial
  | readNothing hpoint hfd hnil =>
      exact ⟨h.toWired.readNothing hpoint, h.toEchoes.readNothing h.toWired hpoint hfd hnil⟩
  | readFails => exact h
  | interrupted => exact h
  | write hpoint hfd =>
      have hwork := h.toWired.at_work (by rw [hpoint]; rfl) (by simp [hpoint]) (by simp [hpoint])
      refine ⟨?_, h.toEchoes.write h.toWired hpoint hfd⟩
      exact (h.toWired.onClient _).setPoint (by rw [onClient, hpoint]; rfl)
        (by rw [onClient, hpoint]; rfl) hwork
  | writeFails hpoint hno =>
      -- the callback's descriptor is open
      obtain ⟨⟨c, hfd⟩, -⟩ :=
        h.toWired.at_work (by rw [hpoint]; rfl) (by simp [hpoint]) (by simp [hpoint])
      exact absurd hfd (hno c)
  | sigpipe hpoint =>
      refine ⟨h.toWired.setPoint (by rw [hpoint]; rfl) (by rw [hpoint]; rfl) trivial,
        h.toEchoes.setPoint (fun c => ?_) fun fd' hwatched => ?_⟩
      · rw [toWrite, toWrite, hpoint]
      · rw [Watched, hpoint] at hwatched
        exact hwatched

/-! ## What is printed -/

theorem deliver_point (s : Server) (fd : Nat) : (s.deliver fd).point = s.point := by
  rw [deliver]
  split <;> rfl

theorem reports_point (events : List (Nat × UInt32)) :
    ∀ s : Server, (events.foldl Server.report s).point = s.point := by
  induction events with
  | nil => exact fun s => rfl
  | cons event events ih =>
      intro s
      refine (ih _).trans ?_
      rw [Server.report]
      split
      · rfl
      · exact deliver_point s event.1

theorem written_onClient {f : Client → Client} (s : Server) (c c' : Nat)
    (hf : ∀ k, (f k).written = k.written) :
    ((s.onClient c f).client c').written = (s.client c').written := by
  by_cases hc : c' = c
  · rw [hc, onClient_self, hf]
  · rw [onClient_of_ne hc]

theorem written_deliver (s : Server) (fd c : Nat) :
    ((s.deliver fd).client c).written = (s.client c).written := by
  rw [deliver_client_apply]
  split <;> rfl

theorem written_reports (events : List (Nat × UInt32)) (c : Nat) :
    ∀ s : Server, ((events.foldl Server.report s).client c).written = (s.client c).written := by
  induction events with
  | nil => exact fun s => rfl
  | cons event events ih =>
      intro s
      refine (ih _).trans ?_
      rw [Server.report]
      split
      · rfl
      · exact written_deliver s event.1 c

/-- Every buffer that has been printed and is written, or to be written, has a NUL. -/
structure Printed (s : Server) : Prop where
  inHand : ∀ fd buffer, s.point = .write fd buffer ∨ s.point = .killed fd buffer → 0 ∈ buffer
  written : ∀ c, ∀ buffer ∈ (s.client c).written, 0 ∈ buffer

/-- Nothing is read or written. -/
theorem Printed.of_same (h : Printed s)
    (hpoint : ∀ fd buffer, t.point = .write fd buffer ∨ t.point = .killed fd buffer →
      s.point = .write fd buffer ∨ s.point = .killed fd buffer)
    (hwritten : ∀ c, (t.client c).written = (s.client c).written) : Printed t where
  inHand := fun fd buffer hat => h.inHand fd buffer (hpoint fd buffer hat)
  written := fun c buffer hbuffer => h.written c buffer (hwritten c ▸ hbuffer)

theorem Printed.step (h : Printed s) (hg : Good listenfd s) (hstep : s.step e = some t) :
    Printed t := by
  cases step_cases hstep with
  | connect | readFails | interrupted => exact h.of_same (fun _ _ hat => hat) fun _ => rfl
  | send | finish => exact h.of_same (fun _ _ hat => hat) fun c' => written_onClient s _ c' fun _ => rfl
  | lapse =>
      refine h.of_same (fun _ _ hat => ?_) (written_deliver s _)
      rwa [deliver_point] at hat
  | poll =>
      refine h.of_same (fun _ _ hat => ?_) fun c => written_reports _ c s
      rwa [reports_point] at hat
  | pollFails | acceptFails | ctlFails | accept | writeFails =>
      exact h.of_same (by rintro _ _ (hat | hat) <;> cases hat) fun _ => rfl
  | @handleEvent p rest channel =>
      refine h.of_same ?_ fun _ => rfl
      dsimp only
      rintro _ _ (hat | hat) <;> cases hcallback : channel.callback <;> rw [hcallback] at hat <;>
        cases hat
  | enableReading hpoint =>
      obtain ⟨⟨c, hfd⟩, hnone⟩ := hg.toWired.accepted_ok hpoint
      rw [register_eq hnone hfd]
      exact h.of_same (by rintro _ _ (hat | hat) <;> cases hat) fun c' =>
        written_onClient s c c' (f := fun k => { k with stream := k.stream.arm k.readable })
          fun _ => rfl
  | @read fd c n hpoint hfd =>
      refine ⟨fun fd' buffer hat => ?_, fun c' buffer hbuffer => ?_⟩
      · dsimp only at hat
        rcases afterRead_cases fd ((s.client c).stream.waiting.take n) with ⟨hafter, hnul⟩ | hafter
        · rw [hafter] at hat
          rcases hat with hat | hat
          · cases hat
            exact hnul
          · cases hat
        · rw [hafter] at hat
          rcases hat with hat | hat <;> cases hat
      · have hsame := written_onClient s c c' (f := fun k => { k with
          stream := k.stream.take n, chunks := k.chunks ++ [k.stream.waiting.take n] }) fun _ => rfl
        exact h.written c' buffer (hsame ▸ hbuffer)
  | @readNothing fd c =>
      rw [Server.readNothing]
      split
      · exact h.of_same (by rintro _ _ (hat | hat) <;> cases hat) fun _ => rfl
      · exact h.of_same (by rintro _ _ (hat | hat) <;> cases hat) fun _ => rfl
      · exact h.of_same (fun _ _ hat => hat) fun c' => written_onClient s c c' fun _ => rfl
  | @write fd c buffer hpoint =>
      refine ⟨(by rintro _ _ (hat | hat) <;> cases hat), fun c' buffer' hbuffer' => ?_⟩
      dsimp only [Server.onClient] at hbuffer'
      rw [Function.update_apply] at hbuffer'
      split at hbuffer'
      · rcases List.mem_append.mp hbuffer' with hold | hnew
        · exact h.written c buffer' hold
        · rw [List.mem_singleton.mp hnew]
          exact h.inHand fd buffer (Or.inl hpoint)
      · exact h.written c' buffer' hbuffer'
  | @sigpipe fd buffer hpoint =>
      refine ⟨fun fd' buffer' hat => ?_, h.written⟩
      rcases hat with hat | hat
      · cases hat
      · cases hat
        exact h.inHand fd buffer (Or.inl hpoint)

end Events

end Server

end CLanguageLearning.EventLoop
