import CLanguageLearning.ThreadPool.SpinlockPool

/-!
# Shutting the pool down

`thread_pool_terminate` sets `quit`, clears `block` under the mutex and broadcasts after it has
released the mutex. Between the test of `block` and the wait a worker holds the mutex, so with
`block` cleared no worker is on its way into the wait (`Guarded.closed`), and the broadcast, which
comes later, leaves nobody in it.
-/

set_option autoImplicit false

namespace CLanguageLearning.ThreadPool

open CLanguageLearning.Foundation

/-- At a point with the mutex. -/
def Worker.Holds {τ : Type} : Worker τ → Prop
  | check => True
  | leave => True
  | sleep => True
  | unlock => True
  | _ => False

namespace SpinPool

variable {ι κ τ : Type} {s t : SpinPool ι κ τ} {u : ι} {v w : κ}

/-- What a worker's step does with the mutex. -/
inductive Advanced [DecidableEq κ] (s : SpinPool ι κ τ) (w : κ) : SpinPool ι κ τ → Prop
  | outside (queue : List τ) (p : Worker τ) (hto : ¬p.Holds) (hwait : p ≠ .waiting) :
      Advanced s w ({ s with task_queue := queue }.moveWorker w p)
  | takes (p : Worker τ) (hfree : s.mutex = none) (hsleep : p ≠ .sleep) (hwait : p ≠ .waiting) :
      Advanced s w ({ s with mutex := some w }.moveWorker w p)
  | decides (p : Worker τ) (hfrom : (s.worker w).Holds) (hsleep : p = .sleep → s.block ≠ 0)
      (hwait : p ≠ .waiting) : Advanced s w (s.moveWorker w p)
  | gives (p : Worker τ) (hfrom : (s.worker w).Holds) (hto : ¬p.Holds)
      (hwait : p = .waiting → s.worker w = .sleep) :
      Advanced s w ({ s with mutex := none }.moveWorker w p)

theorem Advanced.of_advance [DecidableEq κ] (hstep : s.advance w = some t) : Advanced s w t := by
  cases hp : s.worker w with
  | waiting | exited =>
      rw [advance, hp] at hstep
      cases hstep
  | test =>
      rw [advance, hp] at hstep
      cases hstep
      by_cases hquit : s.quit = 0
      · rw [if_pos hquit]
        exact .outside s.task_queue .pop id (by simp)
      · rw [if_neg hquit]
        exact .outside s.task_queue .exited id (by simp)
  | pop =>
      rw [advance, hp] at hstep
      cases hqueue : s.task_queue with
      | nil =>
          rw [hqueue] at hstep
          cases hstep
          exact .outside s.task_queue .lock id (by simp)
      | cons task rest =>
          rw [hqueue] at hstep
          cases hstep
          exact .outside rest (.run task) id (by simp)
  | lock | woken =>
      rw [advance, hp] at hstep
      dsimp only at hstep
      split at hstep
      · next hfree =>
          cases hstep
          exact .takes _ hfree (by simp) (by simp)
      · cases hstep
  | check =>
      rw [advance, hp] at hstep
      cases hstep
      -- the test of `block` under the mutex
      refine .decides _ (by rw [hp]; trivial) ?_ (by split <;> simp)
      split
      · intro h
        cases h
      · next hblock => exact fun _ => hblock
  | leave | unlock =>
      rw [advance, hp] at hstep
      cases hstep
      exact .gives _ (by rw [hp]; trivial) id (by simp)
  | sleep =>
      rw [advance, hp] at hstep
      cases hstep
      exact .gives .waiting (by rw [hp]; trivial) id fun _ => hp
  | run task =>
      rw [advance, hp] at hstep
      cases hstep
      exact .outside s.task_queue .test id (by simp)

/-- Who holds the mutex, and what the cleared `block` excludes. -/
structure Guarded (s : SpinPool ι κ τ) : Prop where
  holder : ∀ w, (s.worker w).Holds → s.mutex = some w
  closed : s.block = 0 → ∀ w, s.worker w ≠ .sleep
  cleared : ∀ u, s.user u = .broadcasting → s.block = 0

theorem guarded_create : (create : SpinPool ι κ τ).Guarded where
  holder _ h := h.elim
  closed h := absurd h one_ne_zero
  cleared _ h := by cases h

/-- Workers that are woken do not hold the mutex. -/
theorem Guarded.wake (h : s.Guarded) {worker : κ → Worker τ} {user : ι → User τ}
    (hwake : ∀ w, worker w = s.worker w ∨ worker w = .woken)
    (huser : ∀ u, user u = s.user u ∨ user u = .outside) :
    Guarded { s with worker := worker, user := user } where
  holder w hw := by
    change (worker w).Holds at hw
    rcases hwake w with hsame | hwoken
    · rw [hsame] at hw
      exact h.holder w hw
    · rw [hwoken] at hw
      exact hw.elim
  closed hblock w := by
    change worker w ≠ .sleep
    rcases hwake w with hsame | hwoken
    · rw [hsame]
      exact h.closed hblock w
    · simp [hwoken]
  cleared u hu := by
    change user u = .broadcasting at hu
    rcases huser u with hsame | houtside
    · exact h.cleared u (hsame ▸ hu)
    · rw [houtside] at hu
      cases hu

section Steps

variable [DecidableEq κ]

theorem moveWorker_cases (s : SpinPool ι κ τ) (w : κ) (p : Worker τ) (v : κ) :
    (v = w ∧ (s.moveWorker w p).worker v = p) ∨
      (v ≠ w ∧ (s.moveWorker w p).worker v = s.worker v) := by
  rcases eq_or_ne v w with rfl | hne
  · exact Or.inl ⟨rfl, moveWorker_worker s v p⟩
  · exact Or.inr ⟨hne, Function.update_of_ne hne ..⟩

/-- A worker goes on, and takes the mutex with it or gives it back. -/
theorem Guarded.moveWorker (h : s.Guarded) {queue : List τ} {mutex : Option κ} {p : Worker τ}
    (hothers : ∀ v, v ≠ w → (s.worker v).Holds → mutex = some v)
    (hself : p.Holds → mutex = some w) (hsleep : s.block = 0 → p ≠ .sleep) :
    Guarded ({ s with task_queue := queue, mutex := mutex }.moveWorker w p) where
  holder v hv := by
    rcases moveWorker_cases { s with task_queue := queue, mutex := mutex } w p v with
      ⟨rfl, he⟩ | ⟨hne, he⟩
    · exact hself (he ▸ hv)
    · exact hothers v hne (he ▸ hv)
  closed hblock v := by
    rcases moveWorker_cases { s with task_queue := queue, mutex := mutex } w p v with
      ⟨-, he⟩ | ⟨-, he⟩
    · rw [he]
      exact hsleep hblock
    · rw [he]
      exact h.closed hblock v
  cleared := h.cleared

theorem Guarded.advance (h : s.Guarded) (hstep : s.advance w = some t) : t.Guarded := by
  cases Advanced.of_advance hstep with
  | outside queue p hto hwait =>
      refine h.moveWorker (fun v _ hv => h.holder v hv) (fun hp => absurd hp hto) fun _ hp => ?_
      rw [hp] at hto
      exact hto trivial
  | takes p hfree hsleep hwait =>
      refine h.moveWorker (fun v _ hv => ?_) (fun _ => rfl) fun _ => hsleep
      -- the mutex was free, so nobody else holds it
      have hold := h.holder v hv
      rw [hfree] at hold
      cases hold
  | decides p hfrom hsleep hwait =>
      exact h.moveWorker (fun v _ hv => h.holder v hv) (fun _ => h.holder w hfrom)
        fun hblock hp => hsleep hp hblock
  | gives p hfrom hto hwait =>
      refine h.moveWorker (fun v hne hv => ?_) (fun hp => absurd hp hto) fun _ hp => ?_
      · -- two workers do not hold it
        have hold := h.holder v hv
        rw [h.holder w hfrom] at hold
        exact absurd (Option.some.inj hold).symm hne
      · rw [hp] at hto
        exact hto trivial

/-- With `block` cleared a worker that is not in the wait does not come to it. -/
theorem Guarded.advance_awake (h : s.Guarded) (hblock : s.block = 0)
    (hawake : ∀ v, s.worker v ≠ .waiting) (hstep : s.advance w = some t) :
    t.block = 0 ∧ ∀ v, t.worker v ≠ .waiting := by
  obtain ⟨s', p, rfl, hworker, hb, hp⟩ : ∃ s' p, t = SpinPool.moveWorker s' w p ∧
      s'.worker = s.worker ∧ s'.block = s.block ∧ p ≠ .waiting := by
    cases Advanced.of_advance hstep with
    | outside queue p hto hwait => exact ⟨_, p, rfl, rfl, rfl, hwait⟩
    | takes p hfree hsleep hwait => exact ⟨_, p, rfl, rfl, rfl, hwait⟩
    | decides p hfrom hsleep hwait => exact ⟨_, p, rfl, rfl, rfl, hwait⟩
    | gives p hfrom hto hwait =>
        exact ⟨_, p, rfl, rfl, rfl, fun hp => h.closed hblock w (hwait hp)⟩
  refine ⟨hb.trans hblock, fun v => ?_⟩
  rcases moveWorker_cases s' w p v with ⟨-, he⟩ | ⟨-, he⟩
  · rw [he]
    exact hp
  · rw [he, hworker]
    exact hawake v

variable [DecidableEq ι]

omit [DecidableEq κ] in
theorem moveUser_cases (s : SpinPool ι κ τ) (u : ι) (p : User τ) (v : ι) :
    (v = u ∧ (s.moveUser u p).user v = p) ∨ (s.moveUser u p).user v = s.user v := by
  rcases eq_or_ne v u with rfl | hne
  · exact Or.inl ⟨rfl, Function.update_self ..⟩
  · exact Or.inr (Function.update_of_ne hne ..)

omit [DecidableEq κ] in
/-- A user goes on. -/
theorem Guarded.moveUser (h : s.Guarded) {queue : List τ} {quit : Int} {p : User τ}
    (hp : p ≠ .broadcasting) :
    Guarded ({ s with task_queue := queue, quit := quit }.moveUser u p) where
  holder := h.holder
  closed := h.closed
  cleared v hv := by
    rcases moveUser_cases { s with task_queue := queue, quit := quit } u p v with ⟨-, he⟩ | he
    · exact absurd (he.symm.trans hv) hp
    · exact h.cleared v (he.symm.trans hv)

omit [DecidableEq κ] in
/-- `block` is cleared while the mutex is free, so no worker is between its test and the wait. -/
theorem Guarded.clear (h : s.Guarded) (hfree : s.mutex = none) :
    Guarded ({ s with block := 0 }.moveUser u .broadcasting) where
  holder := h.holder
  closed _ w hw := by
    have hheld := h.holder w (by rw [show s.worker w = .sleep from hw]; trivial)
    rw [hfree] at hheld
    cases hheld
  cleared _ _ := rfl

/-- What an event does that is not a worker's own step. -/
inductive Served (s : SpinPool ι κ τ) : SpinPool ι κ τ → Prop
  | same : Served s s
  | user (u : ι) (queue : List τ) (quit : Int) (p : User τ) (hp : p ≠ .broadcasting) :
      Served s ({ s with task_queue := queue, quit := quit }.moveUser u p)
  | clears (u : ι) (hfree : s.mutex = none) :
      Served s ({ s with block := 0 }.moveUser u .broadcasting)
  | wakes (worker : κ → Worker τ) (user : ι → User τ)
      (hwake : ∀ w, worker w = s.worker w ∨ worker w = .woken)
      (huser : ∀ u, user u = s.user u ∨ user u = .outside) :
      Served s { s with worker := worker, user := user }

/-- One worker is woken. -/
theorem Served.wake_one (s : SpinPool ι κ τ) (w : κ) : Served s (s.moveWorker w .woken) := by
  refine .wakes _ s.user (fun v => ?_) fun u => Or.inl rfl
  rcases moveWorker_cases s w .woken v with ⟨-, he⟩ | ⟨-, he⟩
  · exact Or.inr he
  · exact Or.inl he

omit [DecidableEq κ] in
/-- The broadcast wakes all that wait. -/
theorem Served.wake_all (s : SpinPool ι κ τ) (u : ι) :
    Served s ({ s with worker := wakeAll s.worker }.moveUser u .outside) := by
  refine .wakes _ _ (fun v => ?_) fun v => ?_
  · change wakeAll s.worker v = s.worker v ∨ wakeAll s.worker v = .woken
    unfold wakeAll
    split
    · exact Or.inr rfl
    · exact Or.inl rfl
  · exact (moveUser_cases s u .outside v).symm.imp_right And.right

theorem Served.of_signal [Fintype κ] [DecidableEq τ] {woken : Option κ}
    (hstep : s.signal u woken = some t) : Served s t := by
  cases woken with
  | none =>
      rw [signal] at hstep
      split at hstep
      · cases hstep
        exact .user u s.task_queue s.quit .outside (by simp)
      · cases hstep
  | some w =>
      rw [signal] at hstep
      split at hstep
      · cases hstep
        refine .wakes _ _ (fun v => ?_) fun v => ?_
        · rcases moveWorker_cases (s.moveUser u .outside) w .woken v with ⟨-, he⟩ | ⟨-, he⟩
          · exact Or.inr he
          · exact Or.inl he
        · exact (moveUser_cases s u .outside v).symm.imp_right And.right
      · cases hstep

variable [Fintype κ] [DecidableEq τ]

/-- Every event is a worker's own step or one of the others. -/
theorem Served.of_step {e : SpinEvent ι κ τ} (hstep : s.step e = some t) :
    (∃ w, s.advance w = some t) ∨ Served s t := by
  cases e with
  | advance w => exact Or.inl ⟨w, hstep⟩
  | post u task =>
      rw [SpinPool.step] at hstep
      split at hstep
      · cases hstep
        split
        · exact Or.inr .same
        · exact Or.inr (.user u s.task_queue s.quit _ (by simp))
      · cases hstep
  | malloc u ok =>
      rw [SpinPool.step] at hstep
      split at hstep
      · cases hstep
        exact Or.inr (.user u s.task_queue s.quit _ (by split <;> simp))
      · cases hstep
  | append u =>
      rw [SpinPool.step] at hstep
      split at hstep
      · next task _ =>
          cases hstep
          exact Or.inr (.user u (s.task_queue ++ [task]) s.quit .signalling (by simp))
      · cases hstep
  | signal u woken =>
      rw [SpinPool.step] at hstep
      split at hstep
      · exact Or.inr (.of_signal hstep)
      · cases hstep
  | terminate u =>
      rw [SpinPool.step] at hstep
      split at hstep
      · cases hstep
        exact Or.inr (.user u s.task_queue 1 .closing (by simp))
      · cases hstep
  | nonblock u =>
      rw [SpinPool.step] at hstep
      split at hstep
      · split at hstep
        · next hfree =>
            cases hstep
            exact Or.inr (.clears u hfree)
        · cases hstep
      · cases hstep
  | broadcast u =>
      rw [SpinPool.step] at hstep
      split at hstep
      · cases hstep
        exact Or.inr (.wake_all s u)
      · cases hstep
  | wakeup w =>
      rw [SpinPool.step] at hstep
      split at hstep
      · cases hstep
        exact Or.inr (.wake_one s w)
      · cases hstep

theorem Guarded.step {e : SpinEvent ι κ τ} (h : s.Guarded) (hstep : s.step e = some t) :
    t.Guarded := by
  rcases Served.of_step hstep with ⟨w, hw⟩ | hserved
  · exact h.advance hw
  · cases hserved with
    | same => exact h
    | user u queue quit p hp => exact h.moveUser hp
    | clears u hfree => exact h.clear hfree
    | wakes worker user hwake huser => exact h.wake hwake huser

/-- The pool after the broadcast of a shutdown. -/
structure Released (s : SpinPool ι κ τ) : Prop where
  guarded : s.Guarded
  cleared : s.block = 0
  awake : ∀ w, s.worker w ≠ .waiting

/-- Nothing brings a worker into the wait again. -/
theorem Released.step {e : SpinEvent ι κ τ} (h : s.Released) (hstep : s.step e = some t) :
    t.Released := by
  have hguarded := h.guarded.step hstep
  rcases Served.of_step hstep with ⟨w, hw⟩ | hserved
  · obtain ⟨hblock, hawake⟩ := h.guarded.advance_awake h.cleared h.awake hw
    exact ⟨hguarded, hblock, hawake⟩
  · cases hserved with
    | same => exact h
    | user u queue quit p hp => exact ⟨hguarded, h.cleared, h.awake⟩
    | clears u hfree => exact ⟨hguarded, rfl, h.awake⟩
    | wakes worker user hwake huser =>
        refine ⟨hguarded, h.cleared, fun w => ?_⟩
        change worker w ≠ .waiting
        rcases hwake w with hsame | hwoken
        · rw [hsame]
          exact h.awake w
        · simp [hwoken]

/-- The broadcast comes after `block` has been cleared, and wakes all that wait. -/
theorem Guarded.broadcast (h : s.Guarded) (hstep : s.step (.broadcast u) = some t) :
    t.Released := by
  have hguarded := h.step hstep
  rw [SpinPool.step] at hstep
  split at hstep
  · next hu =>
      cases hstep
      exact ⟨hguarded, h.cleared u hu, wakeAll_ne_waiting s.worker⟩
  · cases hstep

/-- For any number of workers and users and every interleaving: once a shutdown has performed its
broadcast, no worker is in the wait, then or later, and none is on its way into it. -/
theorem awake_after_broadcast {l l' : List (SpinEvent ι κ τ)}
    (hrun : runEvents step create (l ++ .broadcast u :: l') = some t) (w : κ) :
    t.worker w ≠ .waiting ∧ t.worker w ≠ .sleep := by
  obtain ⟨s, hs, hrest⟩ := runEvents_append.mp hrun
  obtain ⟨s', hs', hlater⟩ := runEvents_cons_eq_some.mp hrest
  have hguarded : s.Guarded :=
    invariant (fun _ _ _ h hstep => Guarded.step h hstep) guarded_create hs
  have hreleased : t.Released :=
    invariant (fun _ _ _ h hstep => Released.step h hstep) (hguarded.broadcast hs') hlater
  exact ⟨hreleased.awake w, hreleased.guarded.closed hreleased.cleared w⟩

/-- The only worker waits when the pool is shut down. -/
theorem awake_after_broadcast_one_worker : ∃ t : SpinPool (Fin 1) (Fin 1) Nat,
    runEvents step create [.advance 0, .advance 0, .advance 0, .advance 0, .advance 0,
      .terminate 0, .nonblock 0, .broadcast 0, .advance 0] = some t ∧ t.worker 0 = .unlock ∧
      (t.worker 0 ≠ .waiting ∧ t.worker 0 ≠ .sleep) := by
  have hall : ∀ t : SpinPool (Fin 1) (Fin 1) Nat,
      runEvents step create ([.advance 0, .advance 0, .advance 0, .advance 0, .advance 0,
        .terminate 0, .nonblock 0] ++ .broadcast 0 :: [.advance 0]) = some t →
      t.worker 0 ≠ .waiting ∧ t.worker 0 ≠ .sleep :=
    fun t hrun => awake_after_broadcast hrun 0
  exact ⟨_, rfl, rfl, hall _ rfl⟩

end Steps

end SpinPool

end CLanguageLearning.ThreadPool
