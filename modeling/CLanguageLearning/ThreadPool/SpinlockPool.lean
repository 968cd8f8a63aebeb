import CLanguageLearning.Foundation.Transitions

/-!
# The thread pool with a spinlock

`threadpool.c` of the spinlock version: posting threads append tasks under a spinlock and then
signal a condition variable, workers pop under the same spinlock and sleep under a mutex. The queue
and the sleep are guarded by different locks, so between a pop that finds nothing and the wait a
task may arrive whose signal nobody hears (`lost_wakeup`). `awake_along` says which runs are spared.

A step is a critical section, a call of the pthread library, or an access to an atomic variable. The
task queue is the list of tasks from `head` on.
-/

set_option autoImplicit false

namespace CLanguageLearning.ThreadPool

open CLanguageLearning.Foundation

/-- Where a worker is in `__thread_pool_worker` and `__get_task`. At `check`, `leave`, `sleep` and
`unlock` it holds the mutex. -/
inductive Worker (τ : Type) where
  /-- Before the load of `quit`. -/
  | test
  /-- Before `__pop_task`. -/
  | pop
  /-- No task was found; before `pthread_mutex_lock`. -/
  | lock
  /-- Before the test of `block`. -/
  | check
  /-- `block` is 0; before `pthread_mutex_unlock` and `break`. -/
  | leave
  /-- Before `pthread_cond_wait`. -/
  | sleep
  /-- In `pthread_cond_wait`. -/
  | waiting
  /-- Woken in `pthread_cond_wait`, which takes the mutex again. -/
  | woken
  /-- After the wait, before `pthread_mutex_unlock`. -/
  | unlock
  /-- With a task, `handler(context)`. -/
  | run (task : τ)
  /-- After the loop. -/
  | exited
  deriving DecidableEq, Repr

/-- Where a thread that uses the pool is in `thread_pool_post` or `thread_pool_terminate`. -/
inductive User (τ : Type) where
  | outside
  /-- `quit` was 0; before `malloc`. -/
  | loaded (task : τ)
  /-- Before the append of `__add_task`. -/
  | appending (task : τ)
  /-- Before `pthread_cond_signal`. -/
  | signalling
  /-- `quit` is set; before `block = 0` under the mutex. -/
  | closing
  /-- Before `pthread_cond_broadcast`. -/
  | broadcasting
  deriving DecidableEq, Repr

/-- In `thread_pool_post`. -/
def User.Posting {τ : Type} : User τ → Prop
  | loaded _ => True
  | appending _ => True
  | signalling => True
  | _ => False

/-- A pool with the workers `κ`, used by the threads `ι`. -/
structure SpinPool (ι κ τ : Type) where
  task_queue : List τ
  block : Int
  quit : Int
  /-- The worker that holds the mutex. -/
  mutex : Option κ
  user : ι → User τ
  worker : κ → Worker τ

/-- What can happen next. A signal wakes a worker in the wait, and none only if there is none. -/
inductive SpinEvent (ι κ τ : Type) where
  | post (u : ι) (task : τ)
  | malloc (u : ι) (ok : Bool)
  | append (u : ι)
  | signal (u : ι) (woken : Option κ)
  | terminate (u : ι)
  | nonblock (u : ι)
  | broadcast (u : ι)
  | advance (w : κ)
  | wakeup (w : κ)
  deriving DecidableEq, Repr

namespace SpinPool

variable {ι κ τ : Type}

/-- A pool after `thread_pool_create`. -/
def create : SpinPool ι κ τ := ⟨[], 1, 0, none, fun _ => .outside, fun _ => .test⟩

section Steps

variable [DecidableEq ι] [DecidableEq κ]

/-- The thread `u` goes to the point `p`. -/
def moveUser (s : SpinPool ι κ τ) (u : ι) (p : User τ) : SpinPool ι κ τ :=
  { s with user := Function.update s.user u p }

/-- The worker `w` goes to the point `p`. -/
def moveWorker (s : SpinPool ι κ τ) (w : κ) (p : Worker τ) : SpinPool ι κ τ :=
  { s with worker := Function.update s.worker w p }

/-- The next step of a worker that is not in the wait. -/
def advance (s : SpinPool ι κ τ) (w : κ) : Option (SpinPool ι κ τ) :=
  match s.worker w with
  | .test => some (s.moveWorker w (if s.quit = 0 then .pop else .exited))
  | .pop =>
      match s.task_queue with
      | [] => some (s.moveWorker w .lock)
      | task :: rest => some ({ s with task_queue := rest }.moveWorker w (.run task))
  | .lock => if s.mutex = none then some ({ s with mutex := some w }.moveWorker w .check) else none
  | .check => some (s.moveWorker w (if s.block = 0 then .leave else .sleep))
  | .leave => some ({ s with mutex := none }.moveWorker w .exited)
  -- the queue is not tested again under the mutex
  | .sleep => some ({ s with mutex := none }.moveWorker w .waiting)
  | .woken => if s.mutex = none then some ({ s with mutex := some w }.moveWorker w .unlock) else none
  | .unlock => some ({ s with mutex := none }.moveWorker w .pop)
  | .run _ => some (s.moveWorker w .test)
  | .waiting => none
  | .exited => none

/-- `pthread_cond_broadcast`. -/
def wakeAll (worker : κ → Worker τ) : κ → Worker τ := fun w =>
  match worker w with
  | .waiting => .woken
  | p => p

/-- `pthread_cond_signal` by `u`, with its choice. -/
def signal [Fintype κ] [DecidableEq τ] (s : SpinPool ι κ τ) (u : ι) :
    Option κ → Option (SpinPool ι κ τ)
  | some w =>
      if s.worker w = .waiting then some ((s.moveUser u .outside).moveWorker w .woken) else none
  | none => if ∀ w, s.worker w ≠ .waiting then some (s.moveUser u .outside) else none

def step [Fintype κ] [DecidableEq τ] (s : SpinPool ι κ τ) :
    SpinEvent ι κ τ → Option (SpinPool ι κ τ)
  | .post u task =>
      match s.user u with
      | .outside => some (if s.quit = 1 then s else s.moveUser u (.loaded task))
      | _ => none
  | .malloc u ok =>
      match s.user u with
      | .loaded task => some (s.moveUser u (if ok then .appending task else .outside))
      | _ => none
  | .append u =>
      match s.user u with
      | .appending task =>
          some ({ s with task_queue := s.task_queue ++ [task] }.moveUser u .signalling)
      | _ => none
  | .signal u woken =>
      match s.user u with
      | .signalling => s.signal u woken
      | _ => none
  | .terminate u =>
      match s.user u with
      | .outside => some ({ s with quit := 1 }.moveUser u .closing)
      | _ => none
  | .nonblock u =>
      match s.user u with
      | .closing =>
          if s.mutex = none then some ({ s with block := 0 }.moveUser u .broadcasting) else none
      | _ => none
  | .broadcast u =>
      match s.user u with
      | .broadcasting => some ({ s with worker := wakeAll s.worker }.moveUser u .outside)
      | _ => none
  | .advance w => s.advance w
  | .wakeup w =>
      match s.worker w with
      | .waiting => some (s.moveWorker w .woken)
      | _ => none

end Steps

/-- A task is in the queue that nobody will take: all workers wait, no signal is on its way, and the
pool has not been told to stop. -/
def Stranded (s : SpinPool ι κ τ) : Prop :=
  s.task_queue ≠ [] ∧ (∀ u, ¬ (s.user u).Posting) ∧ s.quit = 0 ∧ ∀ w, s.worker w = .waiting

/-- A worker goes to sleep only with an empty queue, or when a signal is about to come or another
worker is not in the wait. A pool that was told to stop is let go. -/
def SleepsSafely (s : SpinPool ι κ τ) : SpinEvent ι κ τ → Prop
  | .advance w => s.worker w = .sleep →
      s.quit ≠ 0 ∨ s.task_queue = [] ∨ (∃ u, s.user u = .signalling) ∨
        ∃ v, v ≠ w ∧ s.worker v ≠ .waiting
  | _ => True

/-- Tasks in the queue of a running pool have a signal on its way or a worker that is not in the
wait. -/
def Attended (s : SpinPool ι κ τ) : Prop :=
  s.quit = 0 → s.task_queue ≠ [] →
    (∃ u, s.user u = .signalling) ∨ ∃ w, s.worker w ≠ .waiting

theorem Attended.not_stranded {s : SpinPool ι κ τ} (h : s.Attended) : ¬ s.Stranded := by
  rintro ⟨hqueue, huser, hquit, hworker⟩
  rcases h hquit hqueue with ⟨u, hu⟩ | ⟨w, hw⟩
  · exact huser u (by rw [hu]; trivial)
  · exact hw (hworker w)

section Runs

variable [DecidableEq ι] [DecidableEq κ] {s t : SpinPool ι κ τ} {u : ι} {w : κ}

omit [DecidableEq ι] in
@[simp] theorem moveWorker_worker (s : SpinPool ι κ τ) (w : κ) (p : Worker τ) :
    (s.moveWorker w p).worker w = p :=
  Function.update_self ..

omit [DecidableEq ι] in
/-- A step of a worker leads into the wait from the call of `pthread_cond_wait` only. -/
theorem advance_point (hstep : s.advance w = some t) (hw : s.worker w ≠ .sleep) :
    t.worker w ≠ .waiting := by
  cases hp : s.worker w with
  | sleep => exact absurd hp hw
  -- a blocked worker is woken by others, and one that has left takes no step
  | waiting | exited =>
      rw [advance, hp] at hstep
      cases hstep
  | test | check =>
      rw [advance, hp] at hstep
      cases hstep
      rw [moveWorker_worker]
      split <;> simp
  | pop =>
      rw [advance, hp] at hstep
      cases hqueue : s.task_queue with
      | nil =>
          rw [hqueue] at hstep
          cases hstep
          simp
      | cons task rest =>
          rw [hqueue] at hstep
          cases hstep
          simp
  -- the mutex is free, or the step is not taken
  | lock | woken =>
      rw [advance, hp] at hstep
      dsimp only at hstep
      split at hstep
      · cases hstep
        simp
      · cases hstep
  | leave | unlock | run task =>
      rw [advance, hp] at hstep
      cases hstep
      simp

omit [DecidableEq κ] in
/-- A user that is not about to signal goes on, and the queue stays. -/
theorem Attended.moveUser (h : s.Attended) (hu : s.user u ≠ .signalling) (p : User τ) :
    (s.moveUser u p).Attended := by
  intro hquit hqueue
  -- the user that is about to signal is another one
  rcases h hquit hqueue with ⟨v, hv⟩ | hw
  · refine Or.inl ⟨v, ?_⟩
    show Function.update s.user u p v = .signalling
    rw [Function.update_of_ne (by rintro rfl; exact hu hv), hv]
  · exact Or.inr hw

omit [DecidableEq ι] in
/-- A worker that is in the wait afterwards went to sleep safely. -/
theorem Attended.advance (hsafe : SleepsSafely s (.advance w)) (hstep : s.advance w = some t) :
    t.Attended := by
  by_cases hw : s.worker w = .sleep
  · rw [SpinPool.advance, hw] at hstep
    cases hstep
    intro hquit hqueue
    rcases hsafe hw with hq | hq | hu | ⟨v, hv, hvw⟩
    · exact absurd hquit hq
    · exact absurd hq hqueue
    · exact Or.inl hu
    · refine Or.inr ⟨v, ?_⟩
      show Function.update s.worker w .waiting v ≠ .waiting
      rwa [Function.update_of_ne hv]
  · exact fun _ _ => Or.inr ⟨w, advance_point hstep hw⟩

/-- A signal that wakes nobody has found a worker outside the wait. -/
theorem Attended.signal [Fintype κ] [DecidableEq τ] [Nonempty κ] {woken : Option κ}
    (hstep : s.signal u woken = some t) : t.Attended := by
  intro _ _
  cases woken with
  | some w =>
      rw [SpinPool.signal] at hstep
      split at hstep
      · cases hstep
        exact Or.inr ⟨w, by simp⟩
      · cases hstep
  | none =>
      rw [SpinPool.signal] at hstep
      split at hstep
      · next hno =>
          cases hstep
          obtain ⟨w⟩ := ‹Nonempty κ›
          exact Or.inr ⟨w, hno w⟩
      · cases hstep

omit [DecidableEq κ] in
/-- After a broadcast all workers are outside the wait. -/
theorem wakeAll_ne_waiting (worker : κ → Worker τ) (w : κ) : wakeAll worker w ≠ .waiting := by
  unfold wakeAll
  split
  · simp
  · next h => exact h

variable [Fintype κ] [DecidableEq τ] [Nonempty κ]

theorem Attended.step {e : SpinEvent ι κ τ} (h : s.Attended) (hsafe : SleepsSafely s e)
    (hstep : s.step e = some t) : t.Attended := by
  cases e with
  | post u task =>
      rw [SpinPool.step] at hstep
      split at hstep
      · next hu =>
          cases hstep
          split
          · exact h
          · exact h.moveUser (by simp [hu]) _
      · cases hstep
  | malloc u ok =>
      rw [SpinPool.step] at hstep
      split at hstep
      · next hu =>
          cases hstep
          exact h.moveUser (by simp [hu]) _
      · cases hstep
  | append u =>
      rw [SpinPool.step] at hstep
      split at hstep
      · cases hstep
        -- the task has been appended and the signal is still to come
        exact fun _ _ => Or.inl ⟨u, Function.update_self ..⟩
      · cases hstep
  | signal u woken =>
      rw [SpinPool.step] at hstep
      split at hstep
      · exact Attended.signal hstep
      · cases hstep
  | terminate u =>
      rw [SpinPool.step] at hstep
      split at hstep
      · cases hstep
        -- `quit` is set from now on
        intro hquit
        exact absurd hquit one_ne_zero
      · cases hstep
  | nonblock u =>
      rw [SpinPool.step] at hstep
      split at hstep
      · next hu =>
          split at hstep
          · cases hstep
            exact Attended.moveUser (s := { s with block := 0 }) h (by simp [hu]) _
          · cases hstep
      · cases hstep
  | broadcast u =>
      rw [SpinPool.step] at hstep
      split at hstep
      · cases hstep
        obtain ⟨w⟩ := ‹Nonempty κ›
        exact fun _ _ => Or.inr ⟨w, wakeAll_ne_waiting s.worker w⟩
      · cases hstep
  | advance w => exact Attended.advance hsafe hstep
  | wakeup w =>
      rw [SpinPool.step] at hstep
      split at hstep
      · cases hstep
        exact fun _ _ => Or.inr ⟨w, by simp⟩
      · cases hstep

/-- A pool with at least one worker, in which no worker goes to sleep unsafely, never strands a
task. -/
theorem awake_along {l : List (SpinEvent ι κ τ)} (hsafe : Along step SleepsSafely create l)
    (hrun : runEvents step create l = some t) : ¬ t.Stranded :=
  (invariant_along (I := Attended) (fun _ _ _ h hs hstep => h.step hs hstep)
    (fun _ hqueue => absurd rfl hqueue) hsafe hrun).not_stranded

/-- One worker takes the task that a user posts before the worker has looked for it. -/
theorem awake_along_one_worker : ∃ t : SpinPool (Fin 1) (Fin 1) Nat,
    runEvents step create [.post 0 7, .malloc 0 true, .append 0, .signal 0 none, .advance 0,
      .advance 0] = some t ∧ t.worker 0 = .run 7 ∧ ¬ t.Stranded := by
  refine ⟨_, rfl, rfl, ?_⟩
  refine awake_along (l := [.post 0 7, .malloc 0 true, .append 0, .signal 0 none, .advance 0,
    .advance 0]) ?_ rfl
  simp [Along, SleepsSafely, step, create, SpinPool.moveUser, moveWorker, SpinPool.signal,
    SpinPool.advance]

end Runs

/-- The lost wakeup: the worker finds nothing, a task is appended and its signal finds nobody in the
wait, and then the worker goes to sleep. -/
theorem lost_wakeup : ∃ t : SpinPool (Fin 1) (Fin 1) Nat,
    runEvents step create [.advance 0, .advance 0, .post 0 7, .malloc 0 true, .append 0,
      .signal 0 none, .advance 0, .advance 0, .advance 0] = some t ∧ t.Stranded := by
  refine ⟨_, rfl, List.cons_ne_nil _ _, ?_, rfl, ?_⟩
  · intro u
    rw [Subsingleton.elim u 0]
    exact id
  · intro w
    rw [Subsingleton.elim w 0]
    rfl

end SpinPool

end CLanguageLearning.ThreadPool
