import CLanguageLearning.Foundation.Transitions
import Mathlib.Order.CompletePartialOrder

/-!
# The chat server with shared memory

The tables of `13-4shm_talk_server.cpp`: one child process for each client, a table `users` that the
parent keeps without gaps, and a table `sub_process` from a child's pid to its slot. A child reads
into the region of the shared memory that belongs to the index it was forked with. When a child has
exited, the parent moves the last client into the free slot; the child of the moved client goes on
with its old index, which the parent will give to the next client (`shared_buffer`). An entry of
`sub_process` for a pid from `PROCESS_LIMIT` on is written outside the array, where a run ends.

`Table` is what the parent keeps in every run; `Owned` is what the children rely on, and
`owned_iff` says which runs keep it.
-/

set_option autoImplicit false

namespace CLanguageLearning.Chat

open CLanguageLearning.Foundation

def USER_LIMIT : Nat := 5

def BUFFER_SIZE : Nat := 1024

def PROCESS_LIMIT : Nat := 65536

/-- An entry of `users`. Both ends of the pipe are named by one number. -/
structure ClientData where
  connfd : Nat
  pid : Nat
  pipefd : Nat
  deriving DecidableEq, Repr

/-- A child process: what `run_child` was started with, and whether it has exited. -/
structure Child where
  idx : Nat
  connfd : Nat
  pipefd : Nat
  exited : Bool
  deriving DecidableEq, Repr

/-- The parent's tables and the processes that `waitpid` has not collected, by pid. After a write
`outside` the array `sub_process` nothing is known. -/
structure TalkServer where
  users : Nat → ClientData
  user_count : Nat
  sub_process : Nat → Int
  child : Nat → Option Child
  outside : Bool

/-- What can happen next: a connection is accepted, with the result of `fork`; a child exits;
`waitpid` collects a child. -/
inductive TalkEvent where
  | connect (connfd pipefd : Nat) (fork : Option Nat)
  | exit (pid : Nat)
  | reap (pid : Nat)
  deriving DecidableEq, Repr

namespace TalkServer

/-- The tables before the event loop. -/
def start : TalkServer := ⟨fun _ => ⟨0, 0, 0⟩, 0, fun _ => -1, fun _ => none, false⟩

/-- The accept branch with room for a client. A new pid is not that of a process not yet
collected. -/
def accept (s : TalkServer) (connfd pipefd : Nat) : Option Nat → Option TalkServer
  | none =>
      -- `fork` failed: the entry is written, and the slot stays free
      let user := { s.users s.user_count with connfd := connfd, pipefd := pipefd }
      some { s with users := Function.update s.users s.user_count user }
  | some pid =>
      if 0 < pid ∧ s.child pid = none then
        if pid < PROCESS_LIMIT then
          some { s with
            users := Function.update s.users s.user_count ⟨connfd, pid, pipefd⟩
            user_count := s.user_count + 1
            sub_process := Function.update s.sub_process pid s.user_count
            child := Function.update s.child pid (some ⟨s.user_count, connfd, pipefd, false⟩) }
        else some { s with outside := true }
      else none

/-- One turn of the loop of the SIGCHLD branch, for the child `pid`. -/
def remove (s : TalkServer) (pid : Nat) : Option TalkServer :=
  let del_user := s.sub_process pid
  let sub_process := Function.update s.sub_process pid (-1)
  let child := Function.update s.child pid none
  if del_user < 0 ∨ (USER_LIMIT : Int) < del_user then
    some { s with sub_process := sub_process, child := child }
  else
    match s.user_count with
    | 0 => none
    | user_count + 1 =>
        some { s with
          -- the last client moves; its child is not told
          users := Function.update s.users del_user.toNat (s.users user_count)
          user_count := user_count
          sub_process := Function.update sub_process (s.users user_count).pid del_user
          child := child }

def step (s : TalkServer) (e : TalkEvent) : Option TalkServer :=
  if s.outside = true then none
  else
    match e with
    | .connect connfd pipefd fork =>
        if USER_LIMIT ≤ s.user_count then some s else s.accept connfd pipefd fork
    | .exit pid =>
        match s.child pid with
        | some c =>
            if c.exited = true then none
            else some { s with child := Function.update s.child pid (some { c with exited := true }) }
        | none => none
    | .reap pid =>
        match s.child pid with
        | some c => if c.exited = true then s.remove pid else none
        | none => none

/-- The process `pid` is a child that has not exited, started as `c`. -/
def Live (s : TalkServer) (pid : Nat) (c : Child) : Prop := s.child pid = some c ∧ c.exited = false

/-- The part of the mapping that a child reads into, as offsets from `share_mem`. -/
def region (idx : Nat) : Set Nat := Set.Ico (idx * BUFFER_SIZE) (idx * BUFFER_SIZE + BUFFER_SIZE)

/-- Every live child has a part of the mapping to itself, and the parent knows it by its index: no
entry was written outside the table. -/
structure Owned (s : TalkServer) : Prop where
  inside : s.outside = false
  disjoint : ∀ p q c d, s.Live p c → s.Live q d → p ≠ q → Disjoint (region c.idx) (region d.idx)
  mapped : ∀ p c, s.Live p c → region c.idx ⊆ Set.Ico 0 (USER_LIMIT * BUFFER_SIZE)
  slot : ∀ p c, s.Live p c → s.sub_process p = c.idx

/-- The client that moves when the child `pid` is collected is that of the child itself, or its
child has exited; a new child that gets a slot has a pid below `PROCESS_LIMIT`. -/
def MovesNobody (s : TalkServer) : TalkEvent → Prop
  | .connect _ _ (some pid) => s.user_count < USER_LIMIT → pid < PROCESS_LIMIT
  | .reap pid =>
      (s.users (s.user_count - 1)).pid = pid ∨
        ∀ c, ¬ s.Live (s.users (s.user_count - 1)).pid c
  | _ => True

/-- The tables agree with each other and with the processes: the slots in use hold processes, each
named by the entry of its process, and every process is in such a slot. -/
structure Table (s : TalkServer) : Prop where
  count : s.user_count ≤ USER_LIMIT
  held : ∀ i, i < s.user_count → s.child (s.users i).pid ≠ none
  entry : ∀ i, i < s.user_count → s.sub_process (s.users i).pid = i
  user : ∀ p, s.child p ≠ none → ∃ i, i < s.user_count ∧ (s.users i).pid = p

theorem table_start : start.Table :=
  ⟨Nat.zero_le _, fun _ hi => absurd hi (Nat.not_lt_zero _),
    fun _ hi => absurd hi (Nat.not_lt_zero _), fun _ hp => absurd rfl hp⟩

theorem owned_start : start.Owned :=
  ⟨rfl, fun _ _ _ _ hp => (Option.some_ne_none _ hp.1.symm).elim,
    fun _ _ hp => (Option.some_ne_none _ hp.1.symm).elim,
    fun _ _ hp => (Option.some_ne_none _ hp.1.symm).elim⟩

section Steps

variable {s t : TalkServer} {p : Nat} {c : Child} {i j : Nat}

theorem region_disjoint (h : i ≠ j) : Disjoint (region i) (region j) := by
  rw [Set.disjoint_left]
  intro x hi hj
  obtain ⟨hi₁, hi₂⟩ := hi
  obtain ⟨hj₁, hj₂⟩ := hj
  rw [BUFFER_SIZE] at *
  omega

theorem region_subset (h : i < USER_LIMIT) : region i ⊆ Set.Ico 0 (USER_LIMIT * BUFFER_SIZE) := by
  intro x hx
  obtain ⟨-, hx₂⟩ := hx
  rw [USER_LIMIT] at *
  rw [BUFFER_SIZE] at *
  exact ⟨Nat.zero_le x, by omega⟩

/-- Different slots in use hold different processes. -/
theorem Table.pid_ne (h : s.Table) (hi : i < s.user_count) (hj : j < s.user_count) (hne : i ≠ j) :
    (s.users i).pid ≠ (s.users j).pid := by
  intro heq
  have hij := h.entry i hi
  rw [heq, h.entry j hj] at hij
  omega

/-- The index of a live child that owns its region is that of a slot in use. -/
theorem Table.idx_lt (h : s.Table) (ho : s.Owned) (hc : s.Live p c) : c.idx < s.user_count := by
  obtain ⟨i, hi, rfl⟩ := h.user p (by rw [hc.1]; simp)
  have hslot := ho.slot _ c hc
  rw [h.entry i hi] at hslot
  omega

/-- Children that stay live keep what they own. -/
theorem Owned.mono (ho : s.Owned) (hinside : t.outside = s.outside)
    (hlive : ∀ p c, t.Live p c → ∃ d, s.Live p d ∧ d.idx = c.idx)
    (hsub : ∀ p c, t.Live p c → t.sub_process p = s.sub_process p) : t.Owned where
  inside := hinside.trans ho.inside
  disjoint := by
    intro p q c d hp hq hne
    obtain ⟨c', hc', hidx⟩ := hlive p c hp
    obtain ⟨d', hd', hidx'⟩ := hlive q d hq
    rw [← hidx, ← hidx']
    exact ho.disjoint p q c' d' hc' hd' hne
  mapped := by
    intro p c hp
    obtain ⟨c', hc', hidx⟩ := hlive p c hp
    rw [← hidx]
    exact ho.mapped p c' hc'
  slot := by
    intro p c hp
    obtain ⟨c', hc', hidx⟩ := hlive p c hp
    rw [hsub p c hp, ← hidx]
    exact ho.slot p c' hc'

/-! ### A connection -/

/-- The tables after a fork. -/
def forked (s : TalkServer) (connfd pipefd pid : Nat) : TalkServer where
  outside := s.outside
  users := Function.update s.users s.user_count ⟨connfd, pid, pipefd⟩
  user_count := s.user_count + 1
  sub_process := Function.update s.sub_process pid s.user_count
  child := Function.update s.child pid (some ⟨s.user_count, connfd, pipefd, false⟩)

/-- A new child gets the first free slot. -/
theorem Table.forked (h : s.Table) (hroom : s.user_count < USER_LIMIT) (hp : s.child p = none)
    (connfd pipefd : Nat) : (s.forked connfd pipefd p).Table := by
  have hne : ∀ i, i < s.user_count → (s.users i).pid ≠ p := by
    rintro i hi rfl
    exact h.held i hi hp
  constructor
  case count => exact hroom
  case held =>
    intro i hi
    show Function.update s.child p _ (Function.update s.users s.user_count _ i).pid ≠ none
    rcases Nat.lt_or_eq_of_le (Nat.le_of_lt_succ hi) with hlt | rfl
    · rw [Function.update_of_ne (Nat.ne_of_lt hlt), Function.update_of_ne (hne i hlt)]
      exact h.held i hlt
    · rw [Function.update_self, Function.update_self]
      simp
  case entry =>
    intro i hi
    show Function.update s.sub_process p _ (Function.update s.users s.user_count _ i).pid = _
    rcases Nat.lt_or_eq_of_le (Nat.le_of_lt_succ hi) with hlt | rfl
    · rw [Function.update_of_ne (Nat.ne_of_lt hlt), Function.update_of_ne (hne i hlt)]
      exact h.entry i hlt
    · rw [Function.update_self, Function.update_self]
  case user =>
    intro q hq
    by_cases hqp : q = p
    · -- the new child is in the slot that was free
      subst hqp
      exact ⟨s.user_count, Nat.lt_succ_self _, by simp [TalkServer.forked]⟩
    · have hq' : s.child q ≠ none := by
        simpa [TalkServer.forked, Function.update_of_ne hqp] using hq
      obtain ⟨i, hi, hiq⟩ := h.user q hq'
      refine ⟨i, Nat.lt_succ_of_lt hi, ?_⟩
      rw [← hiq]
      simp [TalkServer.forked, Function.update_of_ne (Nat.ne_of_lt hi)]

/-- The region of a new child is free. -/
theorem Owned.forked (ho : s.Owned) (h : s.Table) (hroom : s.user_count < USER_LIMIT)
    (connfd pipefd : Nat) : (s.forked connfd pipefd p).Owned := by
  -- a live child is the new one, or it was live before
  have hlive : ∀ q d, (s.forked connfd pipefd p).Live q d →
      (q = p ∧ d.idx = s.user_count) ∨ (q ≠ p ∧ s.Live q d) := by
    rintro q d ⟨hd, hexited⟩
    by_cases hqp : q = p
    · subst hqp
      simp only [TalkServer.forked, Function.update_self, Option.some.injEq] at hd
      exact Or.inl ⟨rfl, by rw [← hd]⟩
    · simp only [TalkServer.forked, Function.update_of_ne hqp] at hd
      exact Or.inr ⟨hqp, hd, hexited⟩
  constructor
  case inside => exact ho.inside
  case disjoint =>
    intro q r c d hq hr hne
    rcases hlive q c hq with ⟨rfl, hc⟩ | ⟨-, hc⟩ <;> rcases hlive r d hr with ⟨rfl, hd⟩ | ⟨-, hd⟩
    · -- one process has one region
      exact absurd rfl hne
    · -- the indices in use are below that of the new child
      apply region_disjoint
      have := h.idx_lt ho hd
      omega
    · apply region_disjoint
      have := h.idx_lt ho hc
      omega
    · exact ho.disjoint q r c d hc hd hne
  case mapped =>
    intro q c hq
    rcases hlive q c hq with ⟨-, hc⟩ | ⟨-, hc⟩
    · exact region_subset (hc ▸ hroom)
    · exact ho.mapped q c hc
  case slot =>
    intro q c hq
    show Function.update s.sub_process p _ q = _
    rcases hlive q c hq with ⟨rfl, hc⟩ | ⟨hqp, hc⟩
    · rw [Function.update_self, hc]
    · rw [Function.update_of_ne hqp, ho.slot q c hc]

/-! ### The end of a child -/

/-- The tables after a child has exited. -/
def withExit (s : TalkServer) (pid : Nat) (c : Child) : TalkServer :=
  { s with child := Function.update s.child pid (some { c with exited := true }) }

theorem Table.withExit (h : s.Table) (hp : s.child p = some c) : (s.withExit p c).Table := by
  have hchild : ∀ q, (s.withExit p c).child q = none ↔ s.child q = none := by
    intro q
    by_cases hqp : q = p
    · subst hqp
      simp [TalkServer.withExit, hp]
    · simp [TalkServer.withExit, Function.update_of_ne hqp]
  constructor
  case count => exact h.count
  case held => exact fun i hi hnone => h.held i hi ((hchild _).mp hnone)
  case entry => exact h.entry
  case user => exact fun q hq => h.user q fun hnone => hq ((hchild q).mpr hnone)

theorem Owned.withExit (ho : s.Owned) : (s.withExit p c).Owned := by
  refine ho.mono rfl ?_ fun _ _ _ => rfl
  rintro q d ⟨hd, hexited⟩
  by_cases hqp : q = p
  · subst hqp
    simp only [TalkServer.withExit, Function.update_self, Option.some.injEq] at hd
    subst hd
    cases hexited
  · simp only [TalkServer.withExit, Function.update_of_ne hqp] at hd
    exact ⟨d, ⟨hd, hexited⟩, rfl⟩

/-- The tables after the last of `n + 1` clients has moved into the slot `k` of the child `pid`. -/
def compacted (s : TalkServer) (pid k n : Nat) : TalkServer where
  outside := s.outside
  users := Function.update s.users k (s.users n)
  user_count := n
  sub_process := Function.update (Function.update s.sub_process pid (-1)) (s.users n).pid k
  child := Function.update s.child pid none

/-- A child that is collected is found in its slot, and the last client moves there. -/
theorem Table.remove_eq (h : s.Table) (hp : s.child p ≠ none) :
    ∃ k n, k ≤ n ∧ s.user_count = n + 1 ∧ (s.users k).pid = p ∧
      s.remove p = some (s.compacted p k n) := by
  obtain ⟨k, hk, hkp⟩ := h.user p hp
  obtain ⟨n, hn⟩ := Nat.exists_eq_succ_of_ne_zero (Nat.ne_of_gt (Nat.zero_lt_of_lt hk))
  have hdel : s.sub_process p = (k : Int) := by rw [← hkp, h.entry k hk]
  have hcount := h.count
  have hguard : ¬ ((k : Int) < 0 ∨ (USER_LIMIT : Int) < k) := by omega
  refine ⟨k, n, by omega, hn, hkp, ?_⟩
  rw [remove, hdel, if_neg hguard, hn]
  rfl

theorem Table.compacted {k n : Nat} (h : s.Table) (hn : s.user_count = n + 1) (hk : k ≤ n)
    (hkp : (s.users k).pid = p) : (s.compacted p k n).Table := by
  have hne : ∀ i, i ≤ n → i ≠ k → (s.users i).pid ≠ p := by
    intro i hi hik
    rw [← hkp]
    exact h.pid_ne (by omega) (by omega) hik
  constructor
  case count =>
    have := h.count
    show n ≤ USER_LIMIT
    omega
  case held =>
    intro i hi
    show Function.update s.child p none (Function.update s.users k (s.users n) i).pid ≠ none
    have hi : i < n := hi
    by_cases hik : i = k
    · -- the slot has the client that was last
      subst hik
      rw [Function.update_self, Function.update_of_ne (hne n le_rfl (by omega))]
      exact h.held n (by omega)
    · rw [Function.update_of_ne hik, Function.update_of_ne (hne i (by omega) hik)]
      exact h.held i (by omega)
  case entry =>
    intro i hi
    show Function.update (Function.update s.sub_process p (-1)) (s.users n).pid (k : Int)
      (Function.update s.users k (s.users n) i).pid = i
    have hi : i < n := hi
    by_cases hik : i = k
    · -- the entry of the moved client is the slot it moved to
      subst hik
      rw [Function.update_self, Function.update_self]
    · rw [Function.update_of_ne hik,
        Function.update_of_ne (h.pid_ne (by omega) (by omega) (by omega)),
        Function.update_of_ne (hne i (by omega) hik)]
      exact h.entry i (by omega)
  case user =>
    intro q hq
    have hqp : q ≠ p := by
      rintro rfl
      exact hq (Function.update_self ..)
    have hq' : s.child q ≠ none := by
      simpa [TalkServer.compacted, Function.update_of_ne hqp] using hq
    obtain ⟨i, hi, rfl⟩ := h.user q hq'
    have hik : i ≠ k := by
      rintro rfl
      exact hqp hkp
    rcases Nat.lt_or_eq_of_le (show i ≤ n by omega) with hlt | rfl
    · refine ⟨i, hlt, ?_⟩
      simp [TalkServer.compacted, Function.update_of_ne hik]
    · -- the client that was last is found in the slot it moved to
      refine ⟨k, show k < i by omega, ?_⟩
      simp [TalkServer.compacted]

/-- A live child after the move was live before and is not the one that was collected. -/
theorem live_compacted {k n : Nat} {q : Nat} (hq : (s.compacted p k n).Live q c) :
    q ≠ p ∧ s.Live q c := by
  obtain ⟨hc, hexited⟩ := hq
  by_cases hqp : q = p
  · subst hqp
    simp [TalkServer.compacted] at hc
  · simp only [TalkServer.compacted, Function.update_of_ne hqp] at hc
    exact ⟨hqp, hc, hexited⟩

/-- After the move the live children own their regions exactly when no live child has moved. -/
theorem Owned.compacted_iff {k n : Nat} (ho : s.Owned) (h : s.Table) (hn : s.user_count = n + 1)
    (hkp : (s.users k).pid = p) :
    (s.compacted p k n).Owned ↔ (s.users n).pid = p ∨ ∀ c, ¬ s.Live (s.users n).pid c := by
  constructor
  · intro hown
    by_contra hmoves
    rw [not_or, not_forall] at hmoves
    obtain ⟨hnp, c, hc⟩ := hmoves
    rw [not_not] at hc
    -- the moved child is still live, with the index of the last slot
    have hlive : (s.compacted p k n).Live (s.users n).pid c :=
      ⟨(Function.update_of_ne hnp _ _).trans hc.1, hc.2⟩
    have hnew : (k : Int) = c.idx := by
      rw [← hown.slot _ c hlive]
      simp [TalkServer.compacted]
    have hold := ho.slot _ c hc
    rw [h.entry n (by omega)] at hold
    have hkn : k = n := by omega
    exact hnp (hkn ▸ hkp)
  · intro hmoves
    refine ho.mono rfl (fun q c hq => ⟨c, (live_compacted hq).2, rfl⟩) ?_
    intro q c hq
    obtain ⟨hqp, hlive⟩ := live_compacted hq
    have hqn : q ≠ (s.users n).pid := by
      rintro rfl
      rcases hmoves with heq | hno
      · exact hqp heq
      · exact hno c hlive
    show Function.update (Function.update s.sub_process p (-1)) (s.users n).pid (k : Int) q = _
    rw [Function.update_of_ne hqn, Function.update_of_ne hqp]

end Steps

section Runs

variable {s t : TalkServer} {e : TalkEvent}

/-- What a step does. -/
inductive Stepped (s : TalkServer) : TalkEvent → TalkServer → Prop
  | refuse (connfd pipefd : Nat) (fork : Option Nat) (hfull : USER_LIMIT ≤ s.user_count) :
      Stepped s (.connect connfd pipefd fork) s
  | forkFails (connfd pipefd : Nat) (user : ClientData) (hroom : s.user_count < USER_LIMIT) :
      Stepped s (.connect connfd pipefd none)
        { s with users := Function.update s.users s.user_count user }
  | fork (connfd pipefd : Nat) {pid : Nat} (hroom : s.user_count < USER_LIMIT)
      (hpid : s.child pid = none) (hlimit : pid < PROCESS_LIMIT) :
      Stepped s (.connect connfd pipefd (some pid)) (s.forked connfd pipefd pid)
  | forkOutside (connfd pipefd : Nat) {pid : Nat} (hroom : s.user_count < USER_LIMIT)
      (hlimit : PROCESS_LIMIT ≤ pid) :
      Stepped s (.connect connfd pipefd (some pid)) { s with outside := true }
  | exit {pid : Nat} {c : Child} (hc : s.child pid = some c) :
      Stepped s (.exit pid) (s.withExit pid c)
  | reap {pid : Nat} (t : TalkServer) (hpid : s.child pid ≠ none) (hremove : s.remove pid = some t) :
      Stepped s (.reap pid) t

/-- The step of an accepted connection, by the result of `fork`. -/
theorem Stepped.of_accept {connfd pipefd : Nat} {fork : Option Nat}
    (hroom : s.user_count < USER_LIMIT) (hstep : s.accept connfd pipefd fork = some t) :
    s.Stepped (.connect connfd pipefd fork) t := by
  cases fork with
  | none =>
      cases hstep
      exact .forkFails connfd pipefd _ hroom
  | some pid =>
      obtain ⟨⟨-, hfresh⟩, hstep⟩ := Option.ite_none_right_eq_some.mp hstep
      by_cases hlimit : pid < PROCESS_LIMIT
      · rw [if_pos hlimit] at hstep
        cases hstep
        exact .fork connfd pipefd hroom hfresh hlimit
      · rw [if_neg hlimit] at hstep
        cases hstep
        exact .forkOutside connfd pipefd hroom (not_lt.mp hlimit)

theorem Stepped.of_step (hstep : s.step e = some t) : s.Stepped e t := by
  obtain ⟨-, hstep⟩ := Option.ite_none_left_eq_some.mp hstep
  cases e with
  | connect connfd pipefd fork =>
      dsimp only at hstep
      split at hstep
      · next hfull =>
          cases hstep
          exact .refuse connfd pipefd fork hfull
      · next hroom => exact .of_accept (not_le.mp hroom) hstep
  | exit pid =>
      dsimp only at hstep
      split at hstep
      · next c hc =>
          split at hstep
          · cases hstep
          · cases hstep
            exact .exit hc
      · cases hstep
  | reap pid =>
      dsimp only at hstep
      split at hstep
      · next c hc =>
          split at hstep
          · exact .reap t (by rw [hc]; simp) hstep
          · cases hstep
      · cases hstep

/-- The slots in use are not touched by a connection that got no child. -/
theorem Table.failed {user : ClientData} (h : s.Table) :
    Table { s with users := Function.update s.users s.user_count user } := by
  have husers : ∀ i, i < s.user_count →
      Function.update s.users s.user_count user i = s.users i :=
    fun i hi => Function.update_of_ne (Nat.ne_of_lt hi) _ _
  constructor
  case count => exact h.count
  case held =>
    intro i hi
    show s.child (Function.update s.users s.user_count user i).pid ≠ none
    rw [husers i hi]
    exact h.held i hi
  case entry =>
    intro i hi
    show s.sub_process (Function.update s.users s.user_count user i).pid = _
    rw [husers i hi]
    exact h.entry i hi
  case user =>
    intro p hp
    obtain ⟨i, hi, hip⟩ := h.user p hp
    exact ⟨i, hi, by rw [← hip, ← husers i hi]⟩

/-- The parent keeps its tables. -/
theorem Table.step (h : s.Table) (hstep : s.step e = some t) : t.Table := by
  cases Stepped.of_step hstep with
  | refuse _ _ _ _ => exact h
  | forkFails _ _ user _ => exact h.failed
  | fork connfd pipefd hroom hpid _ => exact h.forked hroom hpid connfd pipefd
  | forkOutside _ _ _ _ => exact ⟨h.count, h.held, h.entry, h.user⟩
  | exit hc => exact h.withExit hc
  | reap t hpid hrem =>
      obtain ⟨k, n, hk, hn, hkp, hremove⟩ := h.remove_eq hpid
      rw [hremove] at hrem
      cases hrem
      exact h.compacted hn hk hkp

/-- A step takes nothing from the live children exactly when it moves none of them and writes inside
the table. -/
theorem Owned.step_iff (h : s.Table) (ho : s.Owned) (hstep : s.step e = some t) :
    t.Owned ↔ s.MovesNobody e := by
  cases Stepped.of_step hstep with
  | refuse _ _ fork hfull =>
      refine iff_of_true ho ?_
      cases fork with
      | none => trivial
      | some pid => exact fun hroom => absurd hroom (not_lt.mpr hfull)
  | forkFails _ _ user _ =>
      exact iff_of_true (ho.mono rfl (fun p c hp => ⟨c, hp, rfl⟩) fun _ _ _ => rfl) trivial
  | fork connfd pipefd hroom _ hlimit =>
      exact iff_of_true (ho.forked h hroom connfd pipefd) fun _ => hlimit
  | forkOutside _ _ hroom hlimit =>
      exact iff_of_false (fun hown => Bool.true_eq_false.mp hown.inside)
        fun hin => absurd (hin hroom) (not_lt.mpr hlimit)
  | exit _ => exact iff_of_true ho.withExit trivial
  | reap t hpid hrem =>
      obtain ⟨k, n, -, hn, hkp, hremove⟩ := h.remove_eq hpid
      rw [hremove] at hrem
      cases hrem
      rw [ho.compacted_iff h hn hkp, MovesNobody, hn, Nat.add_sub_cancel]

/-- The live children own their regions throughout a run exactly when no client of a live child is
ever moved, and every child that gets a slot has a pid that is an index of `sub_process`. -/
theorem owned_iff {l : List TalkEvent} (hrun : runEvents step start l = some t) :
    (Along step (fun s _ => s.Owned) start l ∧ t.Owned) ↔ Along step MovesNobody start l :=
  always_iff_along (I := Table) (fun _ _ _ h hstep => h.step hstep)
    (fun _ _ _ h ho hstep => ho.step_iff h hstep) table_start owned_start hrun

/-- Two clients come, and the second one leaves. -/
theorem owned_iff_two_clients : ∃ t,
    runEvents step start [.connect 10 20 (some 100), .connect 11 21 (some 101), .exit 101,
      .reap 101] = some t ∧ t.user_count = 1 ∧ t.Owned := by
  refine ⟨_, rfl, rfl, ?_⟩
  refine ((owned_iff (l := [.connect 10 20 (some 100), .connect 11 21 (some 101), .exit 101,
    .reap 101]) rfl).mpr ?_).2
  exact ⟨fun _ => by decide, fun _ => by decide, trivial, Or.inl rfl, trivial⟩

/-- Two clients come, the first one leaves, and a third one comes: two live children read into the
same region. -/
theorem shared_buffer : ∃ t,
    runEvents step start [.connect 10 20 (some 100), .connect 11 21 (some 101), .exit 100,
      .reap 100, .connect 12 22 (some 102)] = some t ∧
      t.Live 101 ⟨1, 11, 21, false⟩ ∧ t.Live 102 ⟨1, 12, 22, false⟩ ∧ ¬ t.Owned := by
  refine ⟨_, rfl, ⟨rfl, rfl⟩, ⟨rfl, rfl⟩, ?_⟩
  intro ho
  have hslot := ho.slot 101 ⟨1, 11, 21, false⟩ ⟨rfl, rfl⟩
  exact absurd hslot (by decide)

end Runs

end TalkServer

end CLanguageLearning.Chat
