import CLanguageLearning.Chat.PollServerTable

/-!
# The interest masks and the messages of the chat server with poll

`events |= ~POLLIN` sets all bits but that of `POLLIN`, so a client that is told of a message goes on
being read: the masks are as intended as long as nobody is told of anything (`masks_iff`).

A client waits with a pointer to the buffer of the sender. What it is sent is what it should get as
long as that buffer is not written meanwhile and the pointer is not replaced (`messages_delivered`).
-/

set_option autoImplicit false

namespace CLanguageLearning.Chat.Poll

open CLanguageLearning.Foundation

namespace PollServer

/-! ## The masks -/

/-- A client with a pending text waits until it is writable and is not read, another one is read. -/
def Masks (s : PollServer) : Prop :=
  ∀ j, 0 < j → j < s.user_counter + 1 →
    ((s.users (s.fds j).fd).write_buf ≠ none →
      has (s.fds j).events POLLOUT = true ∧ has (s.fds j).events POLLIN = false) ∧
    ((s.users (s.fds j).fd).write_buf = none →
      has (s.fds j).events POLLIN = true ∧ has (s.fds j).events POLLOUT = false) ∧
    has (s.fds j).events POLLRDHUP = true ∧ has (s.fds j).events POLLERR = true

/-- A message comes from the only client, and a new client finds an entry without a pointer. -/
def TellsNobody (s : PollServer) : PollEvent → Prop
  | .poll _ => True
  | .turn connfd ret =>
      match s.point with
      | .polling => True
      | .scanning i =>
          match s.branch i with
          | .read =>
              match ret with
              | .data _ => s.user_counter = 1
              | _ => True
          | .accept =>
              connfd < 0 ∨ USER_LIMIT ≤ s.user_counter ∨ (s.users connfd).write_buf = none
          | _ => True

instance (s : PollServer) (e : PollEvent) : Decidable (s.TellsNobody e) := by
  unfold TellsNobody
  repeat' split
  all_goals infer_instance

/-- The clients are read and have nothing pending. -/
structure Calm (s : PollServer) : Prop where
  loop : s.Loop
  events : ∀ j, 0 < j → j < s.user_counter + 1 →
    (s.fds j).events = POLLIN ||| POLLRDHUP ||| POLLERR
  write_buf : ∀ j, 0 < j → j < s.user_counter + 1 → (s.users (s.fds j).fd).write_buf = none

section Masks

variable {s t u : PollServer} {i j next : Nat} {connfd fd listenfd : Int} {ret : Recv}
  {e : PollEvent} {m : List UInt8} {a : Int} {f : Int → ClientData}

theorem calm_start : (start listenfd f).Calm where
  loop := loop_start
  events := by
    intro j hj hlt
    simp only [start] at hlt
    omega
  write_buf := by
    intro j hj hlt
    simp only [start] at hlt
    omega

theorem Calm.masks (h : s.Calm) : s.Masks := by
  intro j hj hlt
  rw [h.events j hj hlt]
  exact ⟨fun hbuf => absurd (h.write_buf j hj hlt) hbuf, fun _ => by decide, by decide, by decide⟩

/-- The condition in the branches in which it says something. -/
theorem tellsNobody_read (hpoint : s.point = .scanning i) (hbranch : s.branch i = .read) :
    s.TellsNobody (.turn connfd (.data m)) ↔ s.user_counter = 1 := by
  simp only [TellsNobody, hpoint, hbranch]

theorem tellsNobody_accept (hpoint : s.point = .scanning i) (hbranch : s.branch i = .accept) :
    s.TellsNobody (.turn connfd ret) ↔
      connfd < 0 ∨ USER_LIMIT ≤ s.user_counter ∨ (s.users connfd).write_buf = none := by
  simp only [TellsNobody, hpoint, hbranch]

/-- The only client has no slot but its own. -/
theorem Calm.turned (h : s.Calm) (hi : i < s.user_counter + 1) (hpoint : s.point = .scanning i)
    (hC : s.TellsNobody (.turn connfd ret)) (hturn : Turned s i connfd ret u next) :
    ∀ j, 0 < j → j < u.user_counter + 1 →
      (u.fds j).events = POLLIN ||| POLLRDHUP ||| POLLERR ∧
        (u.users (u.fds j).fd).write_buf = none := by
  have hcalm : ∀ k, 0 < k → k < s.user_counter + 1 →
      (s.fds k).events = POLLIN ||| POLLRDHUP ||| POLLERR ∧
        (s.users (s.fds k).fd).write_buf = none :=
    fun k hk hklt => ⟨h.events k hk hklt, h.write_buf k hk hklt⟩
  -- the client that is moved is as calm as the others
  have hremove : ∀ v : PollServer, 0 < i → v.fds = s.fds → v.user_counter = s.user_counter →
      (∀ c, (v.users c).write_buf = (s.users c).write_buf) →
      ∀ j, 0 < j → j < (v.remove i).user_counter + 1 →
        ((v.remove i).fds j).events = POLLIN ||| POLLRDHUP ||| POLLERR ∧
          ((v.remove i).users ((v.remove i).fds j).fd).write_buf = none := by
    intro v hpos hfds hcounter hbuf j hj hjlt
    have hless : (v.remove i).user_counter = s.user_counter - 1 := by
      rw [← hcounter]
      rfl
    obtain ⟨hlt, hji, hpositive⟩ := removed_source hpos hi (hless ▸ hjlt)
    obtain ⟨hevents, hnone⟩ := hcalm _ (hpositive hj) hlt
    have hne : (s.fds (source s.user_counter i j)).fd ≠ (v.fds i).fd := by
      rw [hfds]
      exact fun heq => hji (h.loop.table.distinct _ _ hlt hi heq)
    rw [remove_fds, hcounter, hfds, remove_users_of_ne hne, hbuf]
    exact ⟨hevents, hnone⟩
  cases hturn with
  | idle _ _ => exact hcalm
  | refuse _ _ _ => exact hcalm
  | enter hbranch hfresh hroom =>
      intro j hj hjlt
      have hnone : (s.users connfd).write_buf = none := by
        have hor := (tellsNobody_accept hpoint hbranch).mp hC
        have hnonneg := hfresh.nonneg
        rcases hor with hneg | hfull | hnone
        · omega
        · omega
        · exact hnone
      have hfds : (s.admitted connfd).fds j = if j = s.user_counter + 1 then
          ⟨connfd, POLLIN ||| POLLRDHUP ||| POLLERR, 0⟩ else s.fds j := Function.update_apply ..
      rw [hfds]
      split
      · exact ⟨rfl, hnone⟩
      · change j < s.user_counter + 1 + 1 at hjlt
        exact hcalm j hj (by omega)
  | leave hbranch => exact hremove s (h.loop.table.leave_pos hbranch) rfl rfl fun _ => rfl
  | message m hbranch hret _ _ =>
      subst hret
      have hone := (tellsNobody_read hpoint hbranch).mp hC
      have hpos := h.loop.table.read_pos hbranch
      have hcounter := announced_rest (s := s) (i := i) (m := m) |>.2.1
      intro j hj hjlt
      obtain rfl : j = i := by omega
      rw [announced_self.1, announced_self.2, fill_write_buf]
      exact hcalm j hj hi
  | empty _ _ =>
      intro j hj hjlt
      rw [fill_write_buf]
      exact hcalm j hj hjlt
  | fail hbranch _ =>
      exact hremove _ (h.loop.table.read_pos hbranch) rfl rfl fun _ => fill_write_buf
  | write a hbranch hbuf =>
      have hpos := h.loop.table.write_pos hbranch
      rw [h.write_buf i hpos hi] at hbuf
      cases hbuf

theorem Calm.step (h : s.Calm) (hC : s.TellsNobody e) (hstep : s.step e = some t) : t.Calm := by
  have hloop := h.loop.step hstep
  rcases step_cases hstep with ⟨revents, rfl, -, -, rfl⟩ |
    ⟨connfd, ret, i, u, next, rfl, hpoint, hturn, rfl⟩
  · refine ⟨hloop, ?_, ?_⟩
    · intro j hj hlt
      rw [(polled_fd revents).2]
      exact h.events j hj hlt
    · intro j hj hlt
      rw [(polled_fd revents).1]
      exact h.write_buf j hj hlt
  · have hcalm := h.turned (h.loop.scan i hpoint).1 hpoint hC hturn
    exact ⟨hloop, fun j hj hlt => (hcalm j hj hlt).1, fun j hj hlt => (hcalm j hj hlt).2⟩

/-- A step from a calm state keeps the masks right exactly when it tells nobody of a message. -/
theorem Calm.masks_step_iff (h : s.Calm) (hstep : s.step e = some t) : t.Masks ↔ s.TellsNobody e := by
  constructor
  · intro ht
    rcases step_cases hstep with ⟨revents, rfl, -, -, rfl⟩ |
      ⟨connfd, ret, i, u, next, rfl, hpoint, hturn, rfl⟩
    · trivial
    · have hi := (h.loop.scan i hpoint).1
      cases hturn with
      | idle hread haccept =>
          cases hbranch : s.branch i with
          | accept => exact (tellsNobody_accept hpoint hbranch).mpr (.inl (haccept hbranch))
          | read => exact absurd hbranch hread
          | _ => simp [TellsNobody, hpoint, hbranch]
      | refuse hbranch _ hfull => exact (tellsNobody_accept hpoint hbranch).mpr (.inr (.inl hfull))
      | enter hbranch hfresh hroom =>
          rw [tellsNobody_accept hpoint hbranch]
          by_contra hbuf
          -- the new client has a pointer from before and is read
          have hlast : (s.advanced i (s.admitted connfd) (i + 1)).fds (s.user_counter + 1) =
              ⟨connfd, POLLIN ||| POLLRDHUP ||| POLLERR, 0⟩ := Function.update_self ..
          have hmasks := (ht (s.user_counter + 1) (Nat.succ_pos _) (Nat.lt_succ_self _)).1
          rw [hlast] at hmasks
          dsimp only at hmasks
          exact absurd (hmasks fun hnone => hbuf (.inr (.inr hnone))).2 (by decide)
      | leave hbranch => simp [TellsNobody, hpoint, hbranch]
      | message m hbranch hret _ _ =>
          subst hret
          rw [tellsNobody_read hpoint hbranch]
          by_contra hone
          have hpos := h.loop.table.read_pos hbranch
          -- another client is told of the message, and is read as before
          obtain ⟨j, hj, hjlt, hji⟩ : ∃ j, 0 < j ∧ j < s.user_counter + 1 ∧ j ≠ i := by
            by_cases hfirst : i = 1
            · exact ⟨2, by omega, by omega, by omega⟩
            · exact ⟨1, by omega, by omega, fun heq => hfirst heq.symm⟩
          have hfd : (s.fds j).fd ≠ (s.fds i).fd := fun heq =>
            hji (h.loop.table.distinct j i hjlt hi heq)
          obtain ⟨hfds, hbuf⟩ := announced_of_ne (m := m) hj hjlt hfd
          have hcounter := announced_rest (s := s) (i := i) (m := m) |>.2.1
          have hmasks := (ht j hj (hcounter ▸ hjlt)).1
          change ((s.announced i m).users ((s.announced i m).fds j).fd).write_buf ≠ none →
            has ((s.announced i m).fds j).events POLLOUT = true ∧
              has ((s.announced i m).fds j).events POLLIN = false at hmasks
          rw [hfds, hbuf, h.events j hj hjlt] at hmasks
          dsimp only at hmasks
          exact absurd (hmasks (Option.some_ne_none _)).2 (by decide)
      | empty hbranch hret =>
          rcases hret with rfl | rfl <;> simp [TellsNobody, hpoint, hbranch]
      | fail hbranch hret =>
          subst hret
          simp [TellsNobody, hpoint, hbranch]
      | write a hbranch hbuf => simp [TellsNobody, hpoint, hbranch]
  · exact fun hC => (h.step hC hstep).masks

/-- The masks are right throughout a run exactly when no client is ever told of a message and every
new client finds an entry without a pointer. -/
theorem masks_iff {l : List PollEvent} (hrun : runEvents step (start listenfd f) l = some t) :
    (Along step (fun s _ => s.Masks) (start listenfd f) l ∧ t.Masks) ↔
      Along step TellsNobody (start listenfd f) l :=
  always_iff_along_of
    (fun _ _ _ h _ hstep ht => h.step ((h.masks_step_iff hstep).mp ht) hstep)
    (fun _ _ _ h _ hstep => h.masks_step_iff hstep) calm_start calm_start.masks hrun

/-- The only client sends a message. -/
theorem masks_iff_one_client : ∃ t, runEvents step (start 3 fun _ => ⟨none, []⟩) [
      .poll fun _ => POLLIN, .turn 4 .eof, .turn (-1) .eof,
      .poll fun i => if i = 0 then 0 else POLLIN, .turn (-1) .eof, .turn (-1) (.data [97])] =
        some t ∧ t.Masks ∧ t.clients = [4] := by
  refine ⟨_, rfl, ?_, rfl⟩
  refine ((@masks_iff _ 3 (fun _ => ⟨none, []⟩) [.poll fun _ => POLLIN, .turn 4 .eof,
    .turn (-1) .eof, .poll fun i => if i = 0 then 0 else POLLIN, .turn (-1) .eof,
    .turn (-1) (.data [97])] rfl).mpr ?_).2
  exact ⟨trivial, by decide, by decide, trivial, by decide, by decide, trivial⟩

/-- The other client is told of the message: it waits until it is writable, and is read as
before. -/
theorem read_while_pending : ∃ t, runEvents step (start 3 fun _ => ⟨none, []⟩) [
      .poll fun _ => POLLIN, .turn 4 .eof, .turn (-1) .eof,
      .poll fun i => if i = 0 then POLLIN else 0, .turn 5 .eof, .turn (-1) .eof, .turn (-1) .eof,
      .poll fun i => if i = 1 then POLLIN else 0, .turn (-1) .eof, .turn (-1) (.data [97]),
      .turn (-1) .eof] = some t ∧ t.point = .polling ∧ t.clients = [4, 5] ∧
    (t.users 5).write_buf = some 4 ∧ has (t.fds 2).events POLLIN = true ∧ ¬ t.Masks := by
  refine ⟨_, rfl, rfl, rfl, rfl, by decide, ?_⟩
  intro h
  have hmask := ((h 2 (by decide) (by decide)).1 (by decide)).2
  exact absurd hmask (by decide)

end Masks

end PollServer

/-! ## The messages -/

/-- The messages of other clients since the client was accepted. -/
def owed (fd : Int) : List Call → List (List UInt8)
  | [] => []
  | .accepted c :: calls => if c = fd then [] else owed fd calls
  | .received c m :: calls => if c = fd then owed fd calls else owed fd calls ++ [m]
  | _ :: calls => owed fd calls

/-- What the client has been sent since it was accepted. -/
def got (fd : Int) : List Call → List (Option (List UInt8))
  | [] => []
  | .accepted c :: calls => if c = fd then [] else got fd calls
  | .sent c text :: calls => if c = fd then got fd calls ++ [text] else got fd calls
  | _ :: calls => got fd calls

namespace PollServer

/-- The entry whose text the client in the slot `j` will be sent. -/
def pending (s : PollServer) (j : Nat) : Option Int :=
  if has (s.fds j).events POLLOUT then (s.users (s.fds j).fd).write_buf else none

/-- No client has been sent anything but the messages of the others, in their order, and a client
for which nothing is left to send has been sent all of them. -/
def Delivered (s : PollServer) : Prop :=
  ∀ j, 0 < j → j < s.user_counter + 1 →
    got (s.fds j).fd s.calls <+: (owed (s.fds j).fd s.calls).map some ∧
      (s.pending j = none → got (s.fds j).fd s.calls = (owed (s.fds j).fd s.calls).map some)

/-- A message has no NUL. -/
def PlainText (_ : PollServer) : PollEvent → Prop
  | .turn _ (.data m) => 0 ∉ m
  | _ => True

/-- A message comes when no other client has a text pending; a buffer that is cleared is pending for
no other client; a client that leaves is the last one, or its buffer is pending for no other
client. -/
def KeepsTexts (s : PollServer) : PollEvent → Prop
  | .poll _ => True
  | .turn _ ret =>
      match s.point with
      | .polling => True
      | .scanning i =>
          match s.branch i with
          | .read =>
              match ret with
              | .data _ => ∀ j, j < s.user_counter + 1 → 0 < j → j ≠ i → s.pending j = none
              | _ => ∀ j, j < s.user_counter + 1 → 0 < j → j ≠ i →
                  s.pending j ≠ some (s.fds i).fd
          | .leave => i = s.user_counter ∨
              ∀ j, j < s.user_counter + 1 → 0 < j → j ≠ i → s.pending j ≠ some (s.fds i).fd
          | _ => True

instance (s : PollServer) (e : PollEvent) : Decidable (s.PlainText e) := by
  unfold PlainText
  split <;> infer_instance

instance (s : PollServer) (e : PollEvent) : Decidable (s.KeepsTexts e) := by
  unfold KeepsTexts
  repeat' split
  all_goals infer_instance

/-- The client in the slot `j` has been sent what it should get, but for the text that is pending,
which is in the buffer of another client. -/
def Owes (s : PollServer) (j : Nat) : Prop :=
  match s.pending j with
  | none => got (s.fds j).fd s.calls = (owed (s.fds j).fd s.calls).map some
  | some a => a ≠ (s.fds j).fd ∧ ∃ m, s.text a = some m ∧
      got (s.fds j).fd s.calls ++ [some m] = (owed (s.fds j).fd s.calls).map some

section Delivery

variable {s t u : PollServer} {i j k next : Nat} {connfd fd listenfd : Int} {ret : Recv}
  {e : PollEvent} {m : List UInt8} {a : Int} {f : Int → ClientData}

theorem owes_of_none (hnone : s.pending j = none) :
    s.Owes j ↔ got (s.fds j).fd s.calls = (owed (s.fds j).fd s.calls).map some := by
  rw [Owes, hnone]

theorem owes_of_some (hpending : s.pending j = some a) :
    s.Owes j ↔ a ≠ (s.fds j).fd ∧ ∃ m, s.text a = some m ∧
      got (s.fds j).fd s.calls ++ [some m] = (owed (s.fds j).fd s.calls).map some := by
  rw [Owes, hpending]

/-- A slot that has, after a turn, what a slot had before. -/
theorem Owes.congr (h : s.Owes k) (hfd : (t.fds j).fd = (s.fds k).fd)
    (hpending : t.pending j = s.pending k)
    (htext : ∀ a, s.pending k = some a → a ≠ (s.fds k).fd → t.text a = s.text a)
    (howed : owed (s.fds k).fd t.calls = owed (s.fds k).fd s.calls)
    (hgot : got (s.fds k).fd t.calls = got (s.fds k).fd s.calls) : t.Owes j := by
  cases hcase : s.pending k with
  | none =>
      rw [owes_of_none (hpending.trans hcase), hfd, howed, hgot]
      exact (owes_of_none hcase).mp h
  | some a =>
      obtain ⟨hne, m, hm, heq⟩ := (owes_of_some hcase).mp h
      rw [owes_of_some (hpending.trans hcase), hfd, howed, hgot]
      exact ⟨hne, m, (htext a hcase hne).trans hm, heq⟩

theorem Owes.delivered (h : s.Owes j) :
    got (s.fds j).fd s.calls <+: (owed (s.fds j).fd s.calls).map some ∧
      (s.pending j = none → got (s.fds j).fd s.calls = (owed (s.fds j).fd s.calls).map some) := by
  cases hcase : s.pending j with
  | none =>
      rw [(owes_of_none hcase).mp h]
      exact ⟨List.prefix_rfl, fun _ => rfl⟩
  | some a =>
      obtain ⟨-, m, -, heq⟩ := (owes_of_some hcase).mp h
      exact ⟨⟨[some m], heq⟩, fun hnone => by cases hnone⟩

/-- The mask and the pointer decide what is pending. -/
theorem pending_congr (hevents : has (t.fds j).events POLLOUT = has (s.fds k).events POLLOUT)
    (hbuf : (t.users (t.fds j).fd).write_buf = (s.users (s.fds k).fd).write_buf) :
    t.pending j = s.pending k := by
  rw [pending, pending, hevents, hbuf]

/-! ### The turns -/

theorem Owes.refused (h : s.Owes j) (hne : connfd ≠ (s.fds j).fd) : (s.refused connfd).Owes j :=
  h.congr rfl rfl (fun _ _ _ => rfl)
    (by simp [PollServer.refused, owed, hne]) (by simp [PollServer.refused, got, hne])

theorem Owes.admitted (h : s.Owes j) (hj : j < s.user_counter + 1) (hne : connfd ≠ (s.fds j).fd) :
    (s.admitted connfd).Owes j := by
  have hfds : (s.admitted connfd).fds j = s.fds j := Function.update_of_ne hj.ne ..
  refine h.congr (by rw [hfds]) (pending_congr (by rw [hfds]) (by rw [hfds]; rfl))
    (fun _ _ _ => rfl) ?_ ?_
  · simp [PollServer.admitted, owed, hne]
  · simp [PollServer.admitted, got, hne]

/-- Nothing is owed to a new client. -/
theorem owes_admitted : (s.admitted connfd).Owes (s.user_counter + 1) := by
  have hnew : (s.admitted connfd).fds (s.user_counter + 1) =
      ⟨connfd, POLLIN ||| POLLRDHUP ||| POLLERR, 0⟩ := Function.update_self ..
  have hnone : (s.admitted connfd).pending (s.user_counter + 1) = none := by
    have hmask : has (POLLIN ||| POLLRDHUP ||| POLLERR) POLLOUT = false := by decide
    rw [pending, hnew]
    dsimp only
    rw [hmask]
    rfl
  rw [owes_of_none hnone, hnew]
  simp [PollServer.admitted, owed, got]

/-- A buffer that is cleared is pending for nobody. -/
theorem Owes.fill (h : s.Owes j) (hfd : s.pending j ≠ some fd) : (s.fill fd []).Owes j := by
  refine h.congr rfl (pending_congr rfl fill_write_buf) ?_ rfl rfl
  intro a hpending _
  have ha : a ≠ fd := by
    rintro rfl
    exact hfd hpending
  rw [text, text, fill_users, if_neg ha]

/-- The slot `k` comes to `j` when the slot `i` is overwritten. -/
theorem Owes.remove (h : s.Owes k) (hk : k = source s.user_counter i j)
    (hne : (s.fds k).fd ≠ (s.fds i).fd)
    (hfd : i = s.user_counter ∨ s.pending k ≠ some (s.fds i).fd) : (s.remove i).Owes j := by
  have hfds : (s.remove i).fds j = s.fds k := by rw [remove_fds, hk]
  refine h.congr (by rw [hfds])
    (pending_congr (by rw [hfds]) (by rw [hfds, remove_users_of_ne hne])) ?_ rfl rfl
  intro a hpending _
  by_cases ha : a = (s.fds i).fd
  · -- the entry of the last client is copied onto itself
    rcases hfd with rfl | hno
    · rw [text, text, ha]
      exact congrArg (fun d : ClientData => cstring d.buf) (Function.update_self ..)
    · exact absurd (ha ▸ hpending) hno
  · rw [text, text, remove_users_of_ne ha]

/-- The text of a message in the buffer of its sender. -/
theorem text_announced (hm : 0 ∉ m) (hlen : m.length < BUFFER_SIZE) :
    (s.announced i m).text (s.fds i).fd = some m := by
  obtain ⟨n, hn⟩ := Nat.exists_eq_add_of_lt hlen
  rw [text, announced_buf, fill_users, if_pos rfl]
  show cstring (m ++ List.replicate (BUFFER_SIZE - m.length) 0) = some m
  have hrest : BUFFER_SIZE - m.length = n + 1 := by omega
  rw [hrest, List.replicate_succ]
  exact cstring_append_zero hm _

/-- The sender of a message waits for what it has waited for. -/
theorem Owes.announced_self (h : s.Owes i) : (s.announced i m).Owes i := by
  obtain ⟨hfds, husers⟩ := PollServer.announced_self (s := s) (i := i) (m := m)
  refine h.congr (by rw [hfds])
    (pending_congr (by rw [hfds]) (by rw [hfds, husers, fill_write_buf])) ?_ ?_ rfl
  · intro a _ hne
    rw [text, text, announced_buf, fill_users, if_neg hne]
  · exact if_pos rfl

/-- Another client, with nothing pending, waits for the message. -/
theorem Owes.announced_of_ne (h : s.Owes j) (hj : 0 < j) (hlt : j < s.user_counter + 1)
    (hne : (s.fds j).fd ≠ (s.fds i).fd) (hnone : s.pending j = none) (hm : 0 ∉ m)
    (hlen : m.length < BUFFER_SIZE) : (s.announced i m).Owes j := by
  obtain ⟨hfds, hbuf⟩ := PollServer.announced_of_ne (m := m) hj hlt hne
  have hpending : (s.announced i m).pending j = some (s.fds i).fd := by
    rw [pending, hfds]
    exact (if_pos (has_or_self (by decide))).trans hbuf
  rw [owes_of_some hpending, hfds]
  refine ⟨hne.symm, m, text_announced hm hlen, ?_⟩
  have howed : owed (s.fds j).fd (s.announced i m).calls = owed (s.fds j).fd s.calls ++ [m] :=
    if_neg hne.symm
  have hgot : got (s.fds j).fd (s.announced i m).calls = got (s.fds j).fd s.calls := rfl
  rw [howed, hgot, (owes_of_none hnone).mp h, List.map_append]
  rfl

/-- The client that is sent a text has nothing pending any more. -/
theorem Owes.written_self (h : s.Owes i) (hpending : s.pending i = some a) :
    (s.written i a).Owes i := by
  have hfd : ((s.written i a).fds i).fd = (s.fds i).fd := written_fd
  have hnone : (s.written i a).pending i = none := by
    rw [pending, hfd, written_users, if_pos rfl, ite_self]
  obtain ⟨-, m, hm, heq⟩ := (owes_of_some hpending).mp h
  have hgot : got (s.fds i).fd (s.written i a).calls = got (s.fds i).fd s.calls ++ [s.text a] :=
    if_pos rfl
  have howed : owed (s.fds i).fd (s.written i a).calls = owed (s.fds i).fd s.calls := rfl
  rw [owes_of_none hnone, hfd, hgot, howed, hm, heq]

theorem Owes.written_of_ne (h : s.Owes j) (hji : j ≠ i) (hne : (s.fds j).fd ≠ (s.fds i).fd) :
    (s.written i a).Owes j := by
  have hfds : (s.written i a).fds j = s.fds j := by rw [written_fds, if_neg hji]
  refine h.congr (by rw [hfds])
    (pending_congr (by rw [hfds]) (by rw [hfds, written_users, if_neg hne])) ?_ rfl
    (if_neg hne.symm)
  intro b _ _
  rw [text, text, written_buf]

/-- The condition in the branches in which it says something. -/
theorem keepsTexts_read (hpoint : s.point = .scanning i) (hbranch : s.branch i = .read)
    (h : s.KeepsTexts (.turn connfd ret)) :
    (∀ m, ret = .data m → ∀ j, j < s.user_counter + 1 → 0 < j → j ≠ i → s.pending j = none) ∧
      ((∀ m, ret ≠ .data m) → ∀ j, j < s.user_counter + 1 → 0 < j → j ≠ i →
        s.pending j ≠ some (s.fds i).fd) := by
  cases ret with
  | data m =>
      simp only [KeepsTexts, hpoint, hbranch] at h
      exact ⟨fun _ _ => h, fun hdata => absurd rfl (hdata m)⟩
  | _ =>
      simp only [KeepsTexts, hpoint, hbranch] at h
      exact ⟨fun _ heq => (by cases heq), fun _ => h⟩

theorem keepsTexts_leave (hpoint : s.point = .scanning i) (hbranch : s.branch i = .leave)
    (h : s.KeepsTexts (.turn connfd ret)) : i = s.user_counter ∨
      ∀ j, j < s.user_counter + 1 → 0 < j → j ≠ i → s.pending j ≠ some (s.fds i).fd := by
  simpa only [KeepsTexts, hpoint, hbranch] using h

/-- Nobody waits for the own buffer. -/
theorem Owes.pending_ne (h : s.Owes j) : s.pending j ≠ some (s.fds j).fd := by
  intro hpending
  exact ((owes_of_some hpending).mp h).1 rfl

/-- A client is only written to when it has asked for it. -/
theorem Table.pending_of_write (h : s.Table) (hi : i < s.user_counter + 1)
    (hbranch : s.branch i = .write) (hbuf : (s.users (s.fds i).fd).write_buf = some a) :
    s.pending i = some a := by
  have hrev := (h.reported i hi).has (branch_write hbranch)
  have halways : has (POLLERR ||| POLLHUP ||| POLLNVAL) POLLOUT = false := by decide
  rw [has_or, halways, Bool.or_false] at hrev
  rw [pending, if_pos hrev, hbuf]

/-- A turn that keeps the texts keeps what every client is owed. -/
theorem Owes.turned (htable : s.Table) (h : ∀ j, 0 < j → j < s.user_counter + 1 → s.Owes j)
    (hi : i < s.user_counter + 1) (hpoint : s.point = .scanning i)
    (hplain : s.PlainText (.turn connfd ret)) (hC : s.KeepsTexts (.turn connfd ret))
    (hturn : Turned s i connfd ret u next) :
    ∀ j, 0 < j → j < u.user_counter + 1 → u.Owes j := by
  -- the descriptor of a client is open, and no other slot has it
  have hopen : ∀ j, 0 < j → j < s.user_counter + 1 → ∀ c, s.Fresh c → c ≠ (s.fds j).fd := by
    rintro j hj hjlt _ hfresh rfl
    have hisOpen := (htable.opened _).mpr ⟨j, hj, hjlt, rfl⟩
    rw [hfresh.notOpen] at hisOpen
    cases hisOpen
  have hother : ∀ j, j < s.user_counter + 1 → j ≠ i → (s.fds j).fd ≠ (s.fds i).fd :=
    fun j hjlt hji heq => hji (htable.distinct j i hjlt hi heq)
  cases hturn with
  | idle _ _ => exact h
  | refuse _ hfresh _ => exact fun j hj hjlt => (h j hj hjlt).refused (hopen j hj hjlt _ hfresh)
  | enter _ hfresh _ =>
      intro j hj hjlt
      rcases Nat.lt_or_ge j (s.user_counter + 1) with hlt | hge
      · exact (h j hj hlt).admitted hlt (hopen j hj hlt _ hfresh)
      · change j < s.user_counter + 1 + 1 at hjlt
        have hlast : j = s.user_counter + 1 := by omega
        exact hlast ▸ owes_admitted
  | leave hbranch =>
      intro j hj hjlt
      obtain ⟨hlt, hne, hpos⟩ := removed_source (htable.leave_pos hbranch) hi hjlt
      refine (h _ (hpos hj) hlt).remove rfl (hother _ hlt hne) ?_
      exact (keepsTexts_leave hpoint hbranch hC).imp_right fun hno => hno _ hlt (hpos hj) hne
  | message m hbranch hret _ hlen =>
      subst hret
      have hcounter := announced_rest (s := s) (i := i) (m := m) |>.2.1
      intro j hj hjlt
      rw [hcounter] at hjlt
      by_cases hji : j = i
      · exact hji ▸ (h j hj hjlt).announced_self
      · exact (h j hj hjlt).announced_of_ne hj hjlt (hother j hjlt hji)
          ((keepsTexts_read hpoint hbranch hC).1 m rfl j hjlt hj hji) hplain hlen
  | empty hbranch hret =>
      have hdata : ∀ m, ret ≠ .data m := by
        rintro m rfl
        rcases hret with hret | hret <;> cases hret
      intro j hj hjlt
      refine (h j hj hjlt).fill ?_
      by_cases hji : j = i
      · exact hji ▸ (h j hj hjlt).pending_ne
      · exact (keepsTexts_read hpoint hbranch hC).2 hdata j hjlt hj hji
  | fail hbranch hret =>
      have hdata : ∀ m, ret ≠ .data m := by
        rintro m rfl
        cases hret
      intro j hj hjlt
      obtain ⟨hlt, hne, hpos⟩ := removed_source (htable.read_pos hbranch) hi hjlt
      have hno := (keepsTexts_read hpoint hbranch hC).2 hdata _ hlt (hpos hj) hne
      have hsame : (s.fill (s.fds i).fd []).pending (source s.user_counter i j) =
          s.pending (source s.user_counter i j) := pending_congr rfl fill_write_buf
      exact ((h _ (hpos hj) hlt).fill hno).remove rfl (hother _ hlt hne) (.inr (hsame ▸ hno))
  | write a hbranch hbuf =>
      intro j hj hjlt
      by_cases hji : j = i
      · subst hji
        exact (h j hj hjlt).written_self (htable.pending_of_write hi hbranch hbuf)
      · exact (h j hj hjlt).written_of_ne hji (hother j hjlt hji)

/-- What every state of a run that keeps the texts is like. -/
structure Owing (s : PollServer) : Prop where
  loop : s.Loop
  owes : ∀ j, 0 < j → j < s.user_counter + 1 → s.Owes j

theorem owing_start : (start listenfd f).Owing where
  loop := loop_start
  owes := by
    intro j hj hlt
    simp only [start] at hlt
    omega

theorem Owing.step (h : s.Owing) (hC : s.PlainText e ∧ s.KeepsTexts e)
    (hstep : s.step e = some t) : t.Owing := by
  refine ⟨h.loop.step hstep, ?_⟩
  rcases step_cases hstep with ⟨revents, rfl, -, -, rfl⟩ |
    ⟨connfd, ret, i, u, next, rfl, hpoint, hturn, rfl⟩
  · intro j hj hlt
    obtain ⟨hfd, hevents⟩ := polled_fd (s := s) (j := j) revents
    exact (h.owes j hj hlt).congr hfd (pending_congr (by rw [hevents]) (by rw [hfd]; rfl))
      (fun _ _ _ => rfl) rfl rfl
  · intro j hj hlt
    have howes := Owes.turned h.loop.table h.owes (h.loop.scan i hpoint).1 hpoint hC.1 hC.2 hturn
    exact (howes j hj hlt).congr rfl rfl (fun _ _ _ => rfl) rfl rfl

/-- In every run that keeps the texts, every client has been sent the messages of the others, each
once and in their order, and nothing else, up to the one that is pending. -/
theorem messages_delivered {l : List PollEvent} (hplain : Along step PlainText (start listenfd f) l)
    (hkeeps : Along step KeepsTexts (start listenfd f) l)
    (hrun : runEvents step (start listenfd f) l = some t) : t.Delivered := by
  have h : t.Owing :=
    invariant_along (fun _ _ _ h hC hstep => h.step hC hstep) owing_start (hplain.and hkeeps) hrun
  exact fun j hj hlt => (h.owes j hj hlt).delivered

/-- A message to the other client, which is sent when that client is writable. -/
theorem messages_delivered_one : ∃ t, runEvents step (start 3 fun _ => ⟨none, []⟩) [
      .poll fun _ => POLLIN, .turn 4 .eof, .turn (-1) .eof,
      .poll fun i => if i = 0 then POLLIN else 0, .turn 5 .eof, .turn (-1) .eof, .turn (-1) .eof,
      .poll fun i => if i = 1 then POLLIN else 0, .turn (-1) .eof, .turn (-1) (.data [97]),
      .turn (-1) .eof, .poll fun i => if i = 2 then POLLOUT else 0, .turn (-1) .eof,
      .turn (-1) .eof, .turn (-1) .eof] = some t ∧
    t.clients = [4, 5] ∧ got 5 t.calls = [some [97]] ∧ t.Delivered := by
  refine ⟨_, rfl, rfl, by decide, ?_⟩
  refine @messages_delivered _ 3 (fun _ => ⟨none, []⟩) [
      .poll fun _ => POLLIN, .turn 4 .eof, .turn (-1) .eof,
      .poll fun i => if i = 0 then POLLIN else 0, .turn 5 .eof, .turn (-1) .eof, .turn (-1) .eof,
      .poll fun i => if i = 1 then POLLIN else 0, .turn (-1) .eof, .turn (-1) (.data [97]),
      .turn (-1) .eof, .poll fun i => if i = 2 then POLLOUT else 0, .turn (-1) .eof,
      .turn (-1) .eof, .turn (-1) .eof] ?_ ?_ rfl
  · decide
  · decide

/-- A second message of the same client comes before the other client is writable, which is sent the
second message only. -/
theorem overwritten_message : ∃ t, runEvents step (start 3 fun _ => ⟨none, []⟩) [
      .poll fun _ => POLLIN, .turn 4 .eof, .turn (-1) .eof,
      .poll fun i => if i = 0 then POLLIN else 0, .turn 5 .eof, .turn (-1) .eof, .turn (-1) .eof,
      .poll fun i => if i = 1 then POLLIN else 0, .turn (-1) .eof, .turn (-1) (.data [97]),
      .turn (-1) .eof, .poll fun i => if i = 1 then POLLIN else 0, .turn (-1) .eof,
      .turn (-1) (.data [98]), .turn (-1) .eof, .poll fun i => if i = 2 then POLLOUT else 0,
      .turn (-1) .eof, .turn (-1) .eof, .turn (-1) .eof] = some t ∧
    t.clients = [4, 5] ∧ owed 5 t.calls = [[97], [98]] ∧ got 5 t.calls = [some [98]] ∧
    t.pending 2 = none ∧ ¬ t.Delivered := by
  refine ⟨_, rfl, rfl, by decide, by decide, by decide, ?_⟩
  intro h
  have hall := (h 2 (by decide) (by decide)).2 (by decide)
  exact absurd hall (by decide)

end Delivery

end PollServer

end CLanguageLearning.Chat.Poll
