import CLanguageLearning.Chat.ThreadedServer

/-!
# The sockets that the handlers of the threaded chat server read

A handler reads its socket through the address of `client_sock`, which the next `accept` of `main`
overwrites. Every handler serves the client it was created for exactly when it has read the variable
before that `accept` returns (`handedOver_iff`).
-/

set_option autoImplicit false

namespace CLanguageLearning.Chat

open CLanguageLearning.Foundation

namespace Handler

/-- The socket that the thread has read. -/
def sock? : Handler → Option Nat
  | .serving sock | .closing sock | .done sock => some sock
  | .absent | .starting => none

/-- The socket that the thread uses. -/
def current? : Handler → Option Nat
  | .serving sock | .closing sock => some sock
  | .absent | .starting | .done _ => none

end Handler

namespace ThreadedServer

/-- Every accepted socket has one thread, the last one none before `main` has created it; a thread
has read the socket of the call of `accept` that it was created for, and no two threads use one
socket. -/
structure HandedOver (s : ThreadedServer) : Prop where
  created : ∀ k, s.handler k ≠ .absent ↔
    k < s.accepts.length ∧ (s.point = .accepting ∨ k + 1 ≠ s.accepts.length)
  own : ∀ k sock, (s.handler k).sock? = some sock → s.accepts[k]? = some sock
  one : ∀ j k sock, (s.handler j).current? = some sock → (s.handler k).current? = some sock →
    j = k

/-- A thread reads the variable before the next `accept` returns. -/
def ReadsInTime (s : ThreadedServer) : ThreadedEvent → Prop
  | .start k => s.accepts.length = k + 1
  | _ => True

instance (s : ThreadedServer) (e : ThreadedEvent) : Decidable (s.ReadsInTime e) := by
  unfold ReadsInTime
  split
  · exact Nat.decEq _ _
  · exact isTrue trivial

/-- The variable holds the last accepted socket, and a socket whose thread has not ended is open and
has not been accepted again. -/
structure Waiting (s : ThreadedServer) : Prop where
  some_accept : s.point ≠ .accepting → s.accepts ≠ []
  last : ∀ sock, s.accepts.getLast? = some sock → s.client_sock = sock
  opened : ∀ k sock, s.accepts[k]? = some sock → (∀ c, s.handler k ≠ .done c) →
    s.opened sock = true
  apart : ∀ j k sock, s.accepts[k]? = some sock → (∀ c, s.handler k ≠ .done c) → k < j →
    s.accepts[j]? ≠ some sock

section HandOver

variable {s t : ThreadedServer} {e : ThreadedEvent} {k sock : Nat}

theorem handedOver_start : start.HandedOver where
  created := fun k => ⟨fun h => absurd rfl h, fun h => absurd h.1 (Nat.not_lt_zero k)⟩
  own := by
    intro k sock h
    cases h
  one := by
    intro j k sock h
    cases h

theorem waiting_start : start.Waiting where
  some_accept := fun h => absurd rfl h
  last := by
    intro sock h
    cases h
  opened := by
    intro k sock h
    cases h
  apart := by
    intro j k sock h
    cases h

/-- Code under the mutex is not seen by the threads. -/
theorem HandedOver.congr (h : s.HandedOver) (hhandler : t.handler = s.handler)
    (haccepts : t.accepts = s.accepts) (hpoint : t.point = .accepting ↔ s.point = .accepting) :
    t.HandedOver where
  created := by
    rw [hhandler, haccepts, hpoint]
    exact h.created
  own := by
    rw [hhandler, haccepts]
    exact h.own
  one := by
    rw [hhandler]
    exact h.one

theorem Waiting.congr (h : s.Waiting) (hhandler : t.handler = s.handler)
    (haccepts : t.accepts = s.accepts) (hpoint : t.point = .accepting ↔ s.point = .accepting)
    (hsock : t.client_sock = s.client_sock) (hopened : t.opened = s.opened) : t.Waiting where
  some_accept := by
    rw [haccepts, ne_eq, hpoint]
    exact h.some_accept
  last := by
    rw [haccepts, hsock]
    exact h.last
  opened := by
    rw [haccepts, hhandler, hopened]
    exact h.opened
  apart := by
    rw [haccepts, hhandler]
    exact h.apart

/-- A thread that goes on with the socket it has. -/
theorem HandedOver.move {h' : Handler} (h : s.HandedOver) (hk : s.handler k ≠ .absent)
    (hk' : h' ≠ .absent) (hsock : h'.sock? = (s.handler k).sock?)
    (hcurrent : ∀ c, h'.current? = some c → (s.handler k).current? = some c) :
    (s.move k h').HandedOver := by
  have hold : ∀ j c, ((s.move k h').handler j).current? = some c →
      (s.handler j).current? = some c := by
    intro j c hj
    by_cases hjk : j = k
    · rw [hjk, move_self] at hj
      exact hjk ▸ hcurrent c hj
    · rwa [move_of_ne _ _ hjk] at hj
  constructor
  case created =>
    intro j
    refine Iff.trans ?_ (h.created j)
    by_cases hjk : j = k
    · rw [hjk, move_self]
      exact iff_of_true hk' hk
    · rw [move_of_ne _ _ hjk]
  case own =>
    intro j c hj
    by_cases hjk : j = k
    · rw [hjk, move_self, hsock] at hj
      exact hjk ▸ h.own k c hj
    · rw [move_of_ne _ _ hjk] at hj
      exact h.own j c hj
  case one =>
    intro i j c hi hj
    exact h.one i j c (hold i c hi) (hold j c hj)

/-- Only an end of a thread matters, and the thread had not ended. -/
theorem Waiting.move {h' : Handler} (h : s.Waiting) (hk : ∀ c, s.handler k ≠ .done c) :
    (s.move k h').Waiting := by
  have hold : ∀ j, (∀ c, (s.move k h').handler j ≠ .done c) → ∀ c, s.handler j ≠ .done c := by
    intro j hj
    by_cases hjk : j = k
    · exact hjk ▸ hk
    · rwa [move_of_ne _ _ hjk] at hj
  exact ⟨h.some_accept, h.last, fun j c hj hdone => h.opened j c hj (hold j hdone),
    fun i j c hj hdone => h.apart i j c hj (hold j hdone)⟩

/-! ## The steps of `main` -/

theorem HandedOver.accepted (h : s.HandedOver) (hpoint : s.point = .accepting) :
    (s.accepted sock).HandedOver where
  created := by
    intro k
    have hlen : (s.accepted sock).accepts.length = s.accepts.length + 1 := by
      simp [ThreadedServer.accepted]
    have hnot : (s.accepted sock).point ≠ .accepting := by simp [ThreadedServer.accepted]
    have hold : s.handler k ≠ .absent ↔ k < s.accepts.length := by
      rw [h.created k, hpoint]
      simp
    rw [hlen, or_iff_right hnot]
    refine hold.trans ?_
    omega
  own := by
    intro k c hk
    have hget := h.own k c hk
    have hlt := (List.getElem?_eq_some_iff.mp hget).1
    show (s.accepts ++ [sock])[k]? = some c
    rwa [List.getElem?_append_left hlt]
  one := h.one

theorem Waiting.accepted (h : s.Waiting) (hfresh : s.opened sock = false) :
    (s.accepted sock).Waiting where
  some_accept := fun _ => by simp [ThreadedServer.accepted]
  last := by
    intro c hc
    change (s.accepts ++ [sock]).getLast? = some c at hc
    rwa [List.getLast?_concat, Option.some.injEq] at hc
  opened := by
    intro k c hk hdone
    show Function.update s.opened sock true c = true
    by_cases hcs : c = sock
    · rw [hcs, Function.update_self]
    · rw [Function.update_of_ne hcs]
      have hlt : k < s.accepts.length := by
        by_contra hge
        change (s.accepts ++ [sock])[k]? = some c at hk
        rw [List.getElem?_append_right (not_lt.mp hge)] at hk
        exact hcs (List.mem_singleton.mp (List.mem_of_getElem? hk))
      refine h.opened k c ?_ hdone
      rwa [← List.getElem?_append_left hlt]
  apart := by
    intro j k c hk hdone hkj hj
    change (s.accepts ++ [sock])[k]? = some c at hk
    change (s.accepts ++ [sock])[j]? = some c at hj
    have hjlt := (List.getElem?_eq_some_iff.mp hj).1
    rw [List.length_append, List.length_singleton] at hjlt
    rw [List.getElem?_append_left (by omega)] at hk
    rcases Nat.lt_or_ge j s.accepts.length with hlt | hge
    · rw [List.getElem?_append_left hlt] at hj
      exact h.apart j k c hk hdone hkj hj
    · -- the new socket is that of no thread that has not ended
      rw [List.getElem?_append_right hge] at hj
      have hcs := List.mem_singleton.mp (List.mem_of_getElem? hj)
      have hopen := h.opened k c hk hdone
      rw [hcs, hfresh] at hopen
      cases hopen

/-- The thread is created for the last accepted socket. -/
theorem HandedOver.withThread (h : s.HandedOver) (hw : s.Waiting) (hpoint : s.point = .creating) :
    s.created.HandedOver ∧ s.created.Waiting := by
  have hlen : 0 < s.accepts.length :=
    List.length_pos_of_ne_nil (hw.some_accept (by simp [hpoint]))
  have habsent : s.handler (s.accepts.length - 1) = .absent := by
    by_contra hne
    obtain ⟨-, hor⟩ := (h.created _).mp hne
    rcases hor with hp | hk
    · rw [hpoint] at hp
      cases hp
    · omega
  have hmove : (s.move (s.accepts.length - 1) .starting).Waiting := hw.move (by simp [habsent])
  have hold : ∀ j, s.created.handler j = if j = s.accepts.length - 1 then .starting
      else s.handler j := fun j => Function.update_apply ..
  refine ⟨⟨?_, ?_, ?_⟩, ⟨fun hp => absurd rfl hp, hmove.last, hmove.opened, hmove.apart⟩⟩
  · intro k
    have haccepts : s.created.accepts = s.accepts := rfl
    have hp : s.created.point = .accepting := rfl
    rw [hold, haccepts, hp]
    have hk := h.created k
    rw [hpoint] at hk
    split
    · simp
      omega
    · simp only [hk, reduceCtorEq, false_or, true_or, and_true]
      omega
  · intro k c hk
    rw [hold] at hk
    split at hk
    · cases hk
    · exact h.own k c hk
  · intro j k c hj hk
    rw [hold] at hj hk
    split at hj
    · cases hj
    · split at hk
      · cases hk
      · exact h.one j k c hj hk

/-! ## The steps of a thread -/

/-- The thread reads the socket it was created for exactly when no other one has been accepted
since. -/
theorem HandedOver.start_iff (h : s.HandedOver) (hw : s.Waiting) (hk : s.handler k = .starting) :
    (s.move k (.serving s.client_sock)).HandedOver ↔ s.accepts.length = k + 1 := by
  have hlt := ((h.created k).mp (by simp [hk])).1
  have hlast : s.accepts[s.accepts.length - 1]? = some s.client_sock := by
    have hget : s.accepts.getLast? = some (s.accepts[s.accepts.length - 1]) := by
      rw [List.getLast?_eq_getElem?, List.getElem?_eq_getElem]
    rw [← List.getLast?_eq_getElem?, hget, hw.last _ hget]
  have hdone : ∀ c, s.handler k ≠ .done c := by simp [hk]
  constructor
  · intro ht
    have hown := ht.own k s.client_sock (by rw [move_self, Handler.sock?])
    by_contra hne
    exact hw.apart (s.accepts.length - 1) k _ hown hdone (by omega) hlast
  · intro hlen
    have hkey : s.accepts[k]? = some s.client_sock := by
      rw [← hlast, hlen, Nat.add_sub_cancel]
    -- a thread that uses this socket would have been created for it
    have hother : ∀ j, j ≠ k → (s.handler j).current? ≠ some s.client_sock := by
      intro j hjk hj
      have hsock : (s.handler j).sock? = some s.client_sock := by
        cases hc : s.handler j <;> rw [hc] at hj <;> first | exact hj | cases hj
      have hjget := h.own j _ hsock
      have hjlt := (List.getElem?_eq_some_iff.mp hjget).1
      refine hw.apart k j _ hjget ?_ (by omega) hkey
      intro c hc
      rw [hc] at hj
      cases hj
    constructor
    case created =>
      intro j
      refine Iff.trans ?_ (h.created j)
      by_cases hjk : j = k
      · rw [hjk, move_self]
        exact iff_of_true (by simp) (by simp [hk])
      · rw [move_of_ne _ _ hjk]
    case own =>
      intro j c hj
      by_cases hjk : j = k
      · rw [hjk, move_self] at hj
        cases hj
        rw [hjk]
        exact hkey
      · rw [move_of_ne _ _ hjk] at hj
        exact h.own j c hj
    case one =>
      intro i j c hi hj
      by_cases hik : i = k
      · by_cases hjk : j = k
        · rw [hik, hjk]
        · rw [hik, move_self] at hi
          rw [move_of_ne _ _ hjk] at hj
          exact absurd (hj.trans hi.symm) (hother j hjk)
      · rw [move_of_ne _ _ hik] at hi
        by_cases hjk : j = k
        · rw [hjk, move_self] at hj
          exact absurd (hi.trans hj.symm) (hother i hik)
        · rw [move_of_ne _ _ hjk] at hj
          exact h.one i j c hi hj

/-- A removal only takes the thread to its next point. -/
theorem left_handler (s : ThreadedServer) (k sock : Nat) :
    (s.left k sock).handler = (s.move k (.closing sock)).handler ∧
    (s.left k sock).accepts = s.accepts ∧ (s.left k sock).point = s.point ∧
    (s.left k sock).client_sock = s.client_sock ∧ (s.left k sock).opened = s.opened := by
  obtain ⟨hhandler, hopened, hpoint, -, hclient, haccepts⟩ :=
    critical_fields s (ClientTable.removeSock sock)
  refine ⟨?_, haccepts, hpoint, hclient, hopened⟩
  show Function.update (s.critical _).handler k _ = _
  rw [hhandler]
  rfl

theorem HandedOver.left (h : s.HandedOver) (hk : s.handler k = .serving sock) :
    (s.left k sock).HandedOver := by
  obtain ⟨hhandler, haccepts, hpoint, -, -⟩ := left_handler s k sock
  have hmove : (s.move k (.closing sock)).HandedOver :=
    h.move (by simp [hk]) (by simp) (by rw [hk]; rfl) fun c hc => by rw [hk]; exact hc
  exact hmove.congr hhandler haccepts (by rw [hpoint]; rfl)

theorem Waiting.left (h : s.Waiting) (hk : s.handler k = .serving sock) :
    (s.left k sock).Waiting := by
  obtain ⟨hhandler, haccepts, hpoint, hclient, hopened⟩ := left_handler s k sock
  have hmove : (s.move k (.closing sock)).Waiting := h.move (by simp [hk])
  exact hmove.congr hhandler haccepts (by rw [hpoint]; rfl) hclient hopened

theorem HandedOver.closed (h : s.HandedOver) (hk : s.handler k = .closing sock) :
    (s.closed k sock).HandedOver := by
  have hmove : (s.move k (.done sock)).HandedOver :=
    h.move (by simp [hk]) (by simp) (by rw [hk]; rfl) fun c hc => by cases hc
  exact hmove.congr rfl rfl Iff.rfl

/-- No other thread that has not ended has the socket that is closed. -/
theorem Waiting.closed (hw : s.Waiting) (h : s.HandedOver) (hk : s.handler k = .closing sock) :
    (s.closed k sock).Waiting := by
  have hmove : (s.move k (.done sock)).Waiting := hw.move (by simp [hk])
  refine ⟨hmove.some_accept, hmove.last, ?_, hmove.apart⟩
  intro j c hj hdone
  have hopen := hmove.opened j c hj hdone
  have hjk : j ≠ k := by
    rintro rfl
    exact hdone sock (move_self ..)
  have hown : s.accepts[k]? = some sock := h.own k sock (by rw [hk]; rfl)
  have hcs : c ≠ sock := by
    rintro rfl
    rcases Nat.lt_or_ge j k with hlt | hge
    · refine hw.apart k j c hj ?_ hlt hown
      intro d hd
      exact hdone d ((move_of_ne s _ hjk).trans hd)
    · exact hw.apart j k c hown (by simp [hk]) (by omega) hj
  show Function.update s.opened sock false c = true
  rwa [Function.update_of_ne hcs]

/-! ## Runs -/

/-- A step keeps the hand-over right exactly when a thread that reads the variable does so in
time. -/
theorem HandedOver.step_iff (hw : s.Waiting) (h : s.HandedOver) (hstep : s.step e = some t) :
    t.HandedOver ↔ s.ReadsInTime e := by
  cases Stepped.of_step hstep with
  | accept hpoint _ => exact iff_of_true (h.accepted hpoint) trivial
  | register hpoint =>
      obtain ⟨hhandler, -, -, -, -, haccepts⟩ :=
        critical_fields s (ClientTable.register s.client_sock)
      refine iff_of_true (h.congr hhandler haccepts ?_) trivial
      rw [hpoint]
      exact iff_of_false (fun hp => by cases hp) (fun hp => by cases hp)
  | create hpoint => exact iff_of_true (h.withThread hw hpoint).1 trivial
  | start hk => exact h.start_iff hw hk
  | send _ =>
      obtain ⟨hhandler, -, hpoint, -, -, haccepts⟩ := critical_fields s ClientTable.sendMessage
      exact iff_of_true (h.congr hhandler haccepts (by rw [hpoint])) trivial
  | leave hk => exact iff_of_true (h.left hk) trivial
  | close hk => exact iff_of_true (h.closed hk) trivial

theorem Waiting.step (hw : s.Waiting) (h : s.HandedOver) (hstep : s.step e = some t) :
    t.Waiting := by
  cases Stepped.of_step hstep with
  | accept _ hfresh => exact hw.accepted hfresh
  | register hpoint =>
      obtain ⟨hhandler, hopened, -, -, hclient, haccepts⟩ :=
        critical_fields s (ClientTable.register s.client_sock)
      refine hw.congr hhandler haccepts ?_ hclient hopened
      rw [hpoint]
      exact iff_of_false (fun hp => by cases hp) (fun hp => by cases hp)
  | create hpoint => exact (h.withThread hw hpoint).2
  | start hk => exact hw.move (by simp [hk])
  | send _ =>
      obtain ⟨hhandler, hopened, hpoint, -, hclient, haccepts⟩ :=
        critical_fields s ClientTable.sendMessage
      exact hw.congr hhandler haccepts (by rw [hpoint]) hclient hopened
  | leave hk => exact hw.left hk
  | close hk => exact hw.closed h hk

/-- For every interleaving of `main` with the threads it creates: the hand-over is right throughout
a run exactly when every thread reads the variable before the next `accept` returns. -/
theorem handedOver_iff {l : List ThreadedEvent} (hrun : runEvents step start l = some t) :
    (Along step (fun s _ => s.HandedOver) start l ∧ t.HandedOver) ↔
      Along step ReadsInTime start l :=
  always_iff_along_of (fun _ _ _ hw h hstep _ => hw.step h hstep)
    (fun _ _ _ hw h hstep => h.step_iff hw hstep) waiting_start handedOver_start hrun

/-- Two clients come; each thread reads its socket before the next turn of the loop. -/
theorem handedOver_iff_two_clients : ∃ t,
    runEvents step start [.accept 5, .register, .create, .start 0, .accept 6, .register, .create,
      .start 1] = some t ∧ t.HandedOver ∧ t.handler 0 = .serving 5 ∧ t.handler 1 = .serving 6 := by
  refine ⟨_, rfl, ?_, rfl, rfl⟩
  refine ((handedOver_iff (l := [.accept 5, .register, .create, .start 0, .accept 6, .register,
    .create, .start 1]) rfl).mpr ?_).2
  exact ⟨trivial, trivial, trivial, rfl, trivial, trivial, trivial, rfl, trivial⟩

/-- The second client comes before the first thread has read its socket: both threads serve the
second client. -/
theorem one_client_twice : ∃ t,
    runEvents step start [.accept 5, .register, .create, .accept 6, .start 0, .register, .create,
      .start 1] = some t ∧ t.accepts = [5, 6] ∧ t.handler 0 = .serving 6 ∧
      t.handler 1 = .serving 6 ∧ ¬ t.HandedOver := by
  refine ⟨_, rfl, rfl, rfl, rfl, ?_⟩
  intro h
  exact absurd (h.own 0 6 rfl) (by decide)

end HandOver

end ThreadedServer

end CLanguageLearning.Chat
