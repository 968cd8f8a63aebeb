import CLanguageLearning.Foundation.Transitions

/-!
# The children of the forking echo server

`echo_server.c` forks a child for each connection and waits for its children in the handler of
`SIGCHLD`, which calls `waitpid` once. The signal does not queue: while one is pending, another exit
leaves no trace but the zombie. The signal is blocked while its handler runs, and a process does not
go on with `main` before its handler has returned.

`no_zombies_iff` says when every child that has exited is waited for. The number of a child that has
been waited for may be used again.
-/

set_option autoImplicit false

namespace CLanguageLearning.Processes

open CLanguageLearning.Foundation

namespace EchoServer

/-- Where the server is in `main`. -/
inductive Main where
  /-- Before `accept`. -/
  | accept
  /-- With a connection, before `fork`. -/
  | fork
  deriving DecidableEq, Repr

/-- Where the server is in `read_child_process`. -/
inductive Handler (ι : Type) where
  | outside
  /-- Before `waitpid`. -/
  | entered
  /-- Before `printf`, with what `waitpid` has answered. -/
  | waited (pid : Option ι)
  deriving DecidableEq, Repr

/-- The server, with `ι` for the numbers of processes. -/
structure Server (ι : Type) where
  main : Main
  handler : Handler ι
  /-- A `SIGCHLD` is pending. -/
  pending : Bool
  running : List ι
  /-- The children that have exited and that nobody has waited for. -/
  zombies : List ι

/-- What can happen next. -/
inductive Event (ι : Type) where
  /-- `accept`, which may fail. -/
  | accept (ok : Bool)
  /-- `fork`, with the number of the child. -/
  | fork (pid : Option ι)
  | exit (pid : ι)
  /-- A child is stopped, which sends the signal too. -/
  | stop (pid : ι)
  /-- The pending signal is delivered. -/
  | deliver
  /-- `waitpid(-1, &status, WNOHANG)`: a child that has exited, or nobody. -/
  | waitpid (pid : Option ι)
  /-- The handler returns. -/
  | ret
  deriving DecidableEq, Repr

namespace Server

variable {ι : Type}

/-- After `listen`. -/
def start : Server ι := ⟨.accept, .outside, false, [], []⟩

section Steps

variable [DecidableEq ι]

def step (s : Server ι) : Event ι → Option (Server ι)
  | .accept ok =>
      if s.handler = .outside ∧ s.main = .accept then
        some { s with main := if ok then .fork else .accept }
      else none
  | .fork pid =>
      if s.handler = .outside ∧ s.main = .fork then
        match pid with
        | none => some { s with main := .accept }
        | some c =>
            if c ∈ s.running ∨ c ∈ s.zombies then none
            else some { s with main := .accept, running := c :: s.running }
      else none
  | .exit c =>
      if c ∈ s.running then
        some { s with running := s.running.erase c, zombies := c :: s.zombies, pending := true }
      else none
  | .stop c => if c ∈ s.running then some { s with pending := true } else none
  | .deliver =>
      if s.handler = .outside ∧ s.pending = true then
        some { s with pending := false, handler := .entered }
      else none
  | .waitpid pid =>
      if s.handler = .entered then
        match pid with
        | none => if s.zombies = [] then some { s with handler := .waited none } else none
        | some c =>
            if c ∈ s.zombies then
              some { s with zombies := s.zombies.erase c, handler := .waited (some c) }
            else none
      else none
  | .ret =>
      match s.handler with
      | .waited _ => some { s with handler := .outside }
      | _ => none

end Steps

/-- No signal is pending and the handler does not run. -/
def Quiet (s : Server ι) : Prop := s.pending = false ∧ s.handler = .outside

/-- Where no handler is to come, every child that has exited has been waited for. -/
def Reaped (s : Server ι) : Prop := s.Quiet → s.zombies = []

/-- The calls of `waitpid` to come: that of the handler which has been entered, and that of the
pending signal. -/
def waits (s : Server ι) : Nat :=
  (if s.pending then 1 else 0) + match s.handler with
    | .entered => 1
    | _ => 0

/-- A child exits while the signal is pending only if one of the calls to come finds nobody yet. -/
def ExitsApart (s : Server ι) : Event ι → Prop
  | .exit _ => s.pending = true → s.zombies.length < s.waits
  | _ => True

instance (s : Server ι) : ∀ e, Decidable (s.ExitsApart e)
  | .exit _ => inferInstanceAs (Decidable (s.pending = true → s.zombies.length < s.waits))
  | .accept _ | .fork _ | .stop _ | .deliver | .waitpid _ | .ret => isTrue trivial

/-- The signal comes from an exit. -/
def FromExit (_ : Server ι) : Event ι → Prop
  | .stop _ => False
  | _ => True

/-- Every child that has exited has a call of `waitpid` to come. -/
def Awaited (s : Server ι) : Prop := s.zombies.length ≤ s.waits

section Runs

variable {s t : Server ι} {e : Event ι} {l : List (Event ι)}

/-- What a step does to the numbers of zombies and of calls to come. -/
inductive Counts (s : Server ι) : Event ι → Server ι → Prop where
  | same {e : Event ι} {t : Server ι} (he : s.ExitsApart e)
      (hzombies : t.zombies.length = s.zombies.length) (hwaits : t.waits = s.waits) : Counts s e t
  | exit {c : ι} {t : Server ι} (hzombies : t.zombies.length = s.zombies.length + 1)
      (hwaits : t.waits = if s.pending then s.waits else s.waits + 1) : Counts s (.exit c) t
  | stop {c : ι} {t : Server ι} (hzombies : t.zombies.length = s.zombies.length)
      (hwaits : s.waits ≤ t.waits) : Counts s (.stop c) t
  | waitpid {pid : Option ι} {t : Server ι} (hzombies : t.zombies.length = s.zombies.length - 1)
      (hwaits : t.waits + 1 = s.waits) : Counts s (.waitpid pid) t

theorem awaited_start : (start : Server ι).Awaited := Nat.zero_le _

/-- Where no call is to come, no child is left. -/
theorem Awaited.reaped (h : s.Awaited) : s.Reaped := by
  rintro ⟨hpending, hhandler⟩
  rw [Awaited, waits, hpending, hhandler] at h
  exact List.length_eq_zero_iff.mp (Nat.le_zero.mp h)

/-- A child without a call to come is left in the end. -/
theorem not_reaped_of_waits_lt (h : s.waits < s.zombies.length) (hquiet : s.Quiet) : ¬ s.Reaped := by
  intro hreaped
  rw [hreaped hquiet] at h
  exact Nat.not_lt_zero _ h

variable [DecidableEq ι]

theorem Counts.of_step (hstep : s.step e = some t) : s.Counts e t := by
  cases e with
  | accept ok =>
      obtain ⟨-, h⟩ := Option.ite_none_right_eq_some.mp hstep
      cases h
      exact .same trivial rfl rfl
  | fork pid =>
      obtain ⟨-, h⟩ := Option.ite_none_right_eq_some.mp hstep
      cases pid with
      | none =>
          cases h
          exact .same trivial rfl rfl
      | some c =>
          obtain ⟨-, h⟩ := Option.ite_none_left_eq_some.mp h
          cases h
          exact .same trivial rfl rfl
  | exit c =>
      obtain ⟨-, h⟩ := Option.ite_none_right_eq_some.mp hstep
      cases h
      refine .exit (List.length_cons ..) ?_
      cases hpending : s.pending with
      | true => simp [waits, hpending]
      | false =>
          simp [waits, hpending]
          omega
  | stop c =>
      obtain ⟨-, h⟩ := Option.ite_none_right_eq_some.mp hstep
      cases h
      refine .stop rfl ?_
      simp only [waits, if_true]
      split
      · exact Nat.le_refl _
      · omega
  | deliver =>
      obtain ⟨⟨hhandler, hpending⟩, h⟩ := Option.ite_none_right_eq_some.mp hstep
      cases h
      refine .same trivial rfl ?_
      simp [waits, hhandler, hpending]
  | waitpid pid =>
      obtain ⟨hhandler, h⟩ := Option.ite_none_right_eq_some.mp hstep
      cases pid with
      | none =>
          obtain ⟨hempty, h⟩ := Option.ite_none_right_eq_some.mp h
          cases h
          exact .waitpid (by simp [hempty]) (by simp [waits, hhandler])
      | some c =>
          obtain ⟨hmem, h⟩ := Option.ite_none_right_eq_some.mp h
          cases h
          exact .waitpid (List.length_erase_of_mem hmem) (by simp [waits, hhandler])
  | ret =>
      simp only [step] at hstep
      split at hstep <;> cases hstep
      next pid hhandler => exact .same trivial rfl (by simp [waits, hhandler])

/-- The children stay awaited as long as the exits are apart. -/
theorem Awaited.step (h : s.Awaited) (he : s.ExitsApart e) (hstep : s.step e = some t) :
    t.Awaited := by
  rw [Awaited] at h ⊢
  cases Counts.of_step hstep with
  | same _ hzombies hwaits => rwa [hzombies, hwaits]
  | stop hzombies hwaits =>
      rw [hzombies]
      exact h.trans hwaits
  | waitpid hzombies hwaits => omega
  | exit hzombies hwaits =>
      cases hpending : s.pending with
      | true =>
          rw [hpending, if_pos rfl] at hwaits
          rw [hzombies, hwaits]
          exact he hpending
      | false =>
          rw [hpending, if_neg Bool.false_ne_true] at hwaits
          rw [hzombies, hwaits]
          exact Nat.succ_le_succ h

/-- An exit that is not apart leaves a child without a call to come. -/
theorem waits_lt_of_not_apart (he : ¬ s.ExitsApart e) (hstep : s.step e = some t) :
    t.waits < t.zombies.length := by
  cases Counts.of_step hstep with
  | same hapart => exact absurd hapart he
  | stop | waitpid => exact absurd trivial he
  | exit hzombies hwaits =>
      obtain ⟨hpending, hle⟩ := Classical.not_imp.mp he
      rw [hpending, if_pos rfl] at hwaits
      rw [hzombies, hwaits]
      exact Nat.lt_succ_of_le (not_lt.mp hle)

/-- A child without a call to come stays without one. -/
theorem waits_lt_step (h : s.waits < s.zombies.length) (he : s.FromExit e)
    (hstep : s.step e = some t) : t.waits < t.zombies.length := by
  cases Counts.of_step hstep with
  | same _ hzombies hwaits => rwa [hzombies, hwaits]
  | stop => cases he
  | waitpid hzombies hwaits => omega
  | exit hzombies hwaits =>
      rw [hzombies, hwaits]
      split
      · exact Nat.lt_succ_of_lt h
      · exact Nat.succ_lt_succ h

/-- For any number of children and every order and timing of their exits: in a run whose exits are
apart, no zombie is left in any state without a pending signal and outside of the handler. Where each
signal comes from an exit, a run that ends in such a state leaves none in it only if its exits are
apart. -/
theorem no_zombies_iff (hrun : runEvents step start l = some t) :
    (Along step ExitsApart start l → Along step (fun s _ => s.Reaped) start l ∧ t.Reaped) ∧
    (Along step FromExit start l → t.Quiet → (t.Reaped ↔ Along step ExitsApart start l)) := by
  constructor
  · intro hapart
    have hkeep : ∀ (s : Server ι) (e : Event ι) (u : Server ι), True → s.Awaited →
        step s e = some u → (u.Awaited ↔ s.ExitsApart e) := by
      intro s e u _ hs hstep
      refine ⟨fun hu => ?_, fun he => hs.step he hstep⟩
      by_contra he
      exact absurd hu (not_le.mpr (waits_lt_of_not_apart he hstep))
    obtain ⟨hl, ht⟩ := (always_iff_along (fun _ _ _ _ _ => trivial) hkeep trivial awaited_start
      hrun).mpr hapart
    exact ⟨hl.imp fun _ _ hs => hs.reaped, ht.reaped⟩
  · intro hfrom hquiet
    have hcases : (Along step ExitsApart start l ∧ t.Awaited) ∨
        (¬ Along step ExitsApart start l ∧ t.waits < t.zombies.length) := by
      refine along_or_lasting ?_ (fun s e u => waits_lt_step) awaited_start hfrom hrun
      intro s e u hs _ hstep
      by_cases he : s.ExitsApart e
      · exact Or.inl ⟨he, hs.step he hstep⟩
      · exact Or.inr ⟨he, waits_lt_of_not_apart he hstep⟩
    rcases hcases with ⟨hapart, ht⟩ | ⟨hapart, ht⟩
    · exact iff_of_true ht.reaped hapart
    · exact iff_of_false (not_reaped_of_waits_lt ht hquiet) hapart

/-- Two children, of which the second exits while the handler for the first one runs. -/
theorem no_zombies_iff_two : ∃ t : Server Nat,
    runEvents step start [.accept true, .fork (some 7), .accept true, .fork (some 8), .exit 7,
      .deliver, .exit 8, .waitpid (some 8), .ret, .deliver, .waitpid (some 7), .ret] = some t ∧
      t.Reaped := by
  have hall : ∀ t : Server Nat, runEvents step start [.accept true, .fork (some 7), .accept true,
      .fork (some 8), .exit 7, .deliver, .exit 8, .waitpid (some 8), .ret, .deliver,
      .waitpid (some 7), .ret] = some t → t.Reaped := by
    intro t hrun
    exact ((no_zombies_iff hrun).1 (by decide)).2
  exact ⟨_, rfl, hall _ rfl⟩

/-- Two children exit before the signal is delivered: one call of `waitpid` for both. -/
theorem merged_exits_leave_zombie : ∃ t : Server Nat,
    runEvents step start [.accept true, .fork (some 7), .accept true, .fork (some 8), .exit 7,
      .exit 8, .deliver, .waitpid (some 7), .ret] = some t ∧ t.zombies = [8] ∧ ¬ t.Reaped := by
  refine ⟨_, rfl, rfl, fun h => ?_⟩
  cases h ⟨rfl, rfl⟩

end Runs

end Server

end EchoServer

end CLanguageLearning.Processes
