import CLanguageLearning.Foundation.Transitions

/-!
# Taking down the first thread pool

`threadpool.c` of `version1`: the workers are in a linked list from which no node is ever taken out.
`thread_destroy` walks over the list without the mutex and sets `termination` in every node, and a
worker that sees its flag frees its own node. `untouched_iff` says which runs never touch a freed
node: a worker has to wait until the walk has read the `next` of its node, and no second call may
come after a worker has freed its node.

A step is a critical section or one access to a field that is used without the mutex. The tasks are
the list from `tasks` on.
-/

set_option autoImplicit false

namespace CLanguageLearning.ThreadPool

open CLanguageLearning.Foundation

/-- A node of the list of workers, with `κ` for addresses. -/
structure worker_t (κ : Type) where
  termination : Int
  prev : Option κ
  next : Option κ
  deriving DecidableEq, Repr

/-- Where a worker is in `thread_callback` and `get_task`. From `test` to `unlock`, the wait apart,
it holds the mutex. -/
inductive Callback (τ : Type) where
  /-- Not created. -/
  | absent
  /-- Before `pthread_mutex_lock`. -/
  | lock
  /-- Before the test whether the list of workers is empty. -/
  | test
  /-- It was empty; before the test of `termination` in the loop. -/
  | check
  /-- In `pthread_cond_wait`. -/
  | waiting
  /-- Woken in `pthread_cond_wait`, which takes the mutex again. -/
  | woken
  /-- Before the test of `termination` after the loop. -/
  | leave
  /-- The flag was not set; before `LL_REMOVE` of the first task. -/
  | take
  /-- The flag was set; before `pthread_mutex_unlock`. -/
  | unlock
  /-- Before `free(worker)`. -/
  | free
  | exited
  /-- With a task, `task_func(task)`. -/
  | run (task : τ)
  deriving DecidableEq, Repr

/-- Where the thread that uses the pool is. -/
inductive Main (κ : Type) where
  /-- In `thread_pool_create`, with so many workers left to create. -/
  | creating (left : Nat)
  /-- Before `pthread_create`. -/
  | allocated (worker : κ) (left : Nat)
  /-- Before `LL_ADD`. -/
  | created (worker : κ) (left : Nat)
  | outside
  /-- In `thread_destroy`, before the test of the loop. -/
  | walking (worker : Option κ)
  /-- The flag of the node is set; before `worker->next` is read. -/
  | flagged (worker : κ)
  /-- A node was used that had been freed. -/
  | faulted
  deriving DecidableEq, Repr

/-- The node that `thread_destroy` uses next. -/
def Main.cursor {κ : Type} : Main κ → Option κ
  | walking worker => worker
  | flagged worker => some worker
  | _ => none

/-- A pool with the nodes that have been allocated and not freed (`live`), and the threads of the
nodes. -/
structure ListPool (κ τ : Type) where
  workers : Option κ
  tasks : List τ
  /-- The worker that holds the mutex. -/
  mutex : Option κ
  node : κ → worker_t κ
  live : κ → Bool
  thread : κ → Callback τ
  main : Main κ

/-- What can happen next. A signal wakes a worker in the wait, or nobody. -/
inductive ListEvent (κ τ : Type) where
  | malloc (worker : Option κ)
  | create (ok : Bool)
  | link
  | ret
  | push (task : τ) (woken : Option κ)
  | destroy
  | flag
  | next
  | broadcast
  | advance (w : κ)
  | free (w : κ)
  | wakeup (w : κ)
  deriving DecidableEq, Repr

namespace ListPool

variable {κ τ : Type}

/-- The start of `thread_pool_create`. -/
def create (thread_num : Int) : ListPool κ τ where
  workers := none
  tasks := []
  mutex := none
  node _ := ⟨0, none, none⟩
  live _ := false
  thread _ := .absent
  main := .creating (if thread_num < 1 then 1 else thread_num).toNat

section Steps

variable [DecidableEq κ]

/-- The worker `w` goes to the point `p`. -/
def moveThread (s : ListPool κ τ) (w : κ) (p : Callback τ) : ListPool κ τ :=
  { s with thread := Function.update s.thread w p }

/-- `LL_ADD(worker, thread_pool->workers)`. -/
def addWorker (s : ListPool κ τ) (x : κ) : ListPool κ τ :=
  let node := Function.update s.node x { s.node x with prev := none, next := s.workers }
  { s with
    node := match s.workers with
      | none => node
      | some y => Function.update node y { node y with prev := some x }
    workers := some x }

/-- The next step of a worker that is not in the wait and is not about to free its node. -/
def advance (s : ListPool κ τ) (w : κ) : Option (ListPool κ τ) :=
  match s.thread w with
  | .lock => if s.mutex = none then some ({ s with mutex := some w }.moveThread w .test) else none
  -- the list of workers is tested, not the list of tasks
  | .test => some (s.moveThread w (if s.workers = none then .check else .leave))
  -- without workers: wait, or leave with the flag set
  | .check =>
      if (s.node w).termination = 0 then some ({ s with mutex := none }.moveThread w .waiting)
      else some (s.moveThread w .leave)
  | .woken => if s.mutex = none then some ({ s with mutex := some w }.moveThread w .test) else none
  | .leave => some (s.moveThread w (if (s.node w).termination = 0 then .take else .unlock))
  | .take =>
      match s.tasks with
      -- nothing was taken, and `get_task` begins again
      | [] => some ({ s with mutex := none }.moveThread w .lock)
      | task :: rest => some ({ s with tasks := rest, mutex := none }.moveThread w (.run task))
  -- the worker does not take its node out of the list
  | .unlock => some ({ s with mutex := none }.moveThread w .free)
  | .run _ => some (s.moveThread w .lock)
  | .absent => none
  | .waiting => none
  | .free => none
  | .exited => none

/-- `pthread_cond_broadcast`. -/
def wakeAll (thread : κ → Callback τ) : κ → Callback τ := fun w =>
  match thread w with
  | .waiting => .woken
  | p => p

/-- `pthread_cond_signal` with its choice. -/
def signal (s : ListPool κ τ) : Option κ → Option (ListPool κ τ)
  | none => some s
  | some w =>
      match s.thread w with
      | .waiting => some (s.moveThread w .woken)
      | _ => none

def step (s : ListPool κ τ) : ListEvent κ τ → Option (ListPool κ τ)
  | .malloc none =>
      match s.main with
      | .creating (_ + 1) => some { s with main := .outside }
      | _ => none
  | .malloc (some x) =>
      match s.main with
      | .creating (left + 1) =>
          if s.live x then none
          else some { s with
            live := Function.update s.live x true
            node := Function.update s.node x ⟨0, none, none⟩
            main := .allocated x left }
      | _ => none
  | .create ok =>
      match s.main with
      | .allocated x left =>
          if ok then some { s.moveThread x .lock with main := .created x left }
          -- `pthread_create` failed: the node is freed and the pool is as far as it is
          else some { s with live := Function.update s.live x false, main := .outside }
      | _ => none
  | .link =>
      match s.main with
      | .created x left => some { s.addWorker x with main := .creating left }
      | _ => none
  | .ret =>
      match s.main with
      | .creating 0 => some { s with main := .outside }
      | _ => none
  | .push task woken =>
      match s.main with
      | .outside =>
          if s.mutex = none then { s with tasks := task :: s.tasks }.signal woken else none
      | _ => none
  | .destroy =>
      match s.main with
      -- the walk does not take the mutex
      | .outside => some { s with main := .walking s.workers }
      | _ => none
  | .flag =>
      match s.main with
      | .walking (some x) =>
          if s.live x then
            some { s with
              node := Function.update s.node x { s.node x with termination := 1 }
              main := .flagged x }
          -- the node was freed by its worker
          else some { s with main := .faulted }
      | _ => none
  | .next =>
      match s.main with
      | .flagged x =>
          if s.live x then some { s with main := .walking (s.node x).next }
          else some { s with main := .faulted }
      | _ => none
  | .broadcast =>
      match s.main with
      | .walking none =>
          if s.mutex = none then some { s with thread := wakeAll s.thread, main := .outside }
          else none
      | _ => none
  | .advance w => s.advance w
  | .free w =>
      match s.thread w with
      | .free => some ({ s with live := Function.update s.live w false }.moveThread w .exited)
      | _ => none
  | .wakeup w =>
      match s.thread w with
      | .waiting => some (s.moveThread w .woken)
      | _ => none

end Steps

/-- `y` is met when `next` is followed from `p`. -/
inductive Met (node : κ → worker_t κ) : Option κ → κ → Prop where
  | here (x : κ) : Met node (some x) x
  | further {x y : κ} (h : Met node (node x).next y) : Met node (some x) y

/-- `thread_destroy` is on its way to the node. -/
def Ahead (s : ListPool κ τ) : κ → Prop := Met s.node s.main.cursor

/-- The node is in the list of workers. -/
def Listed (s : ListPool κ τ) : κ → Prop := Met s.node s.workers

/-- `thread_destroy` has not used a node that had been freed. -/
def Untouched (s : ListPool κ τ) : Prop := s.main ≠ .faulted

/-- A worker frees its node only behind the walk of `thread_destroy`, which is not called once a
node of the list has been freed. -/
def BehindTheWalk (s : ListPool κ τ) : ListEvent κ τ → Prop
  | .free w => ¬ s.Ahead w
  | .destroy => ∀ x, s.Listed x → s.live x = true
  | _ => True

/-- No freed node has been used, and none is ahead of the walk. -/
structure Clear (s : ListPool κ τ) : Prop where
  untouched : s.Untouched
  live : ∀ x, s.Ahead x → s.live x = true

section Runs

variable {s t t' : ListPool κ τ} {e : ListEvent κ τ} {node node' : κ → worker_t κ} {p : Option κ}
  {w x y : κ}

theorem not_met_none : ¬ Met node none x := fun h => by cases h

theorem met_some_iff : Met node (some x) y ↔ y = x ∨ Met node (node x).next y := by
  constructor
  · intro h
    cases h with
    | here => exact Or.inl rfl
    | further h => exact Or.inr h
  · rintro (rfl | h)
    · exact .here y
    · exact .further h

theorem Met.congr (hnext : ∀ z, (node' z).next = (node z).next) (h : Met node p y) :
    Met node' p y := by
  induction h with
  | here x => exact .here x
  | further _ ih => exact .further (by rwa [hnext])

/-- Nothing is ahead of a walk that is over. -/
theorem clear_iff_of_cursor (hcursor : s.main.cursor = none) : s.Clear ↔ s.Untouched := by
  refine ⟨Clear.untouched, fun h => ⟨h, fun x hx => ?_⟩⟩
  rw [Ahead, hcursor] at hx
  exact absurd hx not_met_none

/-- A state with the same walk over the same nodes. -/
theorem clear_congr (hmain : t.main = s.main) (hnode : t.node = s.node) (hlive : t.live = s.live) :
    t.Clear ↔ s.Clear := by
  have hiff : ∀ x, t.Ahead x ↔ s.Ahead x := fun x => by rw [Ahead, hmain, hnode, Ahead]
  constructor
  · rintro ⟨hu, hl⟩
    refine ⟨by rwa [Untouched, ← hmain], fun x hx => ?_⟩
    rw [← hlive]
    exact hl x ((hiff x).mpr hx)
  · rintro ⟨hu, hl⟩
    refine ⟨by rwa [Untouched, hmain], fun x hx => ?_⟩
    rw [hlive]
    exact hl x ((hiff x).mp hx)

variable [DecidableEq κ]

/-- What a step does to the walk of `thread_destroy` and to the nodes that it may come to. -/
inductive Walks (s : ListPool κ τ) : ListEvent κ τ → ListPool κ τ → Prop where
  /-- No walk goes on, and none is begun. -/
  | apart {e : ListEvent κ τ} {t : ListPool κ τ} (he : s.BehindTheWalk e) (hs : s.main.cursor = none)
      (hs' : s.Untouched) (ht : t.main.cursor = none) (ht' : t.Untouched) : Walks s e t
  /-- The walk and the nodes stay as they are. -/
  | same {e : ListEvent κ τ} {t : ListPool κ τ} (he : s.BehindTheWalk e) (hmain : t.main = s.main)
      (hnode : t.node = s.node) (hlive : t.live = s.live) : Walks s e t
  | destroy (hmain : s.main = .outside) : Walks s .destroy { s with main := .walking s.workers }
  | flag (x : κ) (hmain : s.main = .walking (some x)) (hx : s.live x = true) :
      Walks s .flag { s with
        node := Function.update s.node x { s.node x with termination := 1 }
        main := .flagged x }
  | next (x : κ) (hmain : s.main = .flagged x) (hx : s.live x = true) :
      Walks s .next { s with main := .walking (s.node x).next }
  | fault {e : ListEvent κ τ} (x : κ) (hcursor : s.main.cursor = some x) (hx : s.live x = false)
      (he : s.BehindTheWalk e) : Walks s e { s with main := .faulted }
  | free (w : κ) :
      Walks s (.free w) ({ s with live := Function.update s.live w false }.moveThread w .exited)

/-- A worker that moves on leaves the nodes and the walk alone. -/
theorem advance_same (hstep : s.advance w = some t) :
    t.main = s.main ∧ t.node = s.node ∧ t.live = s.live := by
  cases hp : s.thread w with
  | absent | waiting | free | exited =>
      rw [advance, hp] at hstep
      cases hstep
  | test | leave | unlock | run =>
      rw [advance, hp] at hstep
      cases hstep
      exact ⟨rfl, rfl, rfl⟩
  | lock | woken =>
      rw [advance, hp] at hstep
      rcases Option.ite_none_right_eq_some.mp hstep with ⟨-, h⟩
      cases h
      exact ⟨rfl, rfl, rfl⟩
  | check =>
      simp only [advance, hp] at hstep
      split at hstep <;> cases hstep <;> exact ⟨rfl, rfl, rfl⟩
  | take =>
      simp only [advance, hp] at hstep
      split at hstep <;> cases hstep <;> exact ⟨rfl, rfl, rfl⟩

theorem signal_same {woken : Option κ} (hstep : s.signal woken = some t) :
    t.main = s.main ∧ t.node = s.node ∧ t.live = s.live := by
  cases woken with
  | none =>
      cases hstep
      exact ⟨rfl, rfl, rfl⟩
  | some w =>
      simp only [signal] at hstep
      split at hstep <;> cases hstep
      exact ⟨rfl, rfl, rfl⟩

/-- A step that uses the node of the walk, if it is not freed. -/
theorem Walks.of_access {x : κ} (hcursor : s.main.cursor = some x) (he : s.BehindTheWalk e)
    (hok : s.live x = true → s.Walks e t')
    (hstep : (if s.live x then some t' else some { s with main := .faulted }) = some t) :
    s.Walks e t := by
  cases hx : s.live x with
  | true =>
      rw [hx, if_pos rfl] at hstep
      cases hstep
      exact hok hx
  | false =>
      rw [hx, if_neg Bool.false_ne_true] at hstep
      cases hstep
      exact .fault x hcursor hx he

theorem Walks.of_step (hstep : s.step e = some t) : s.Walks e t := by
  -- outside of the walk, from one point of the thread to another
  have hapart : ∀ {m m' : Main κ}, s.main = m → m.cursor = none → m ≠ .faulted → t.main = m' →
      m'.cursor = none → m' ≠ .faulted → s.BehindTheWalk e → s.Walks e t := by
    rintro m m' rfl hs hs' rfl ht ht' he
    exact .apart he hs hs' ht ht'
  cases e with
  | malloc worker =>
      cases worker with
      | none =>
          simp only [step] at hstep
          split at hstep <;> cases hstep
          next left hmain => exact hapart hmain rfl (by simp) rfl rfl (by simp) trivial
      | some x =>
          simp only [step] at hstep
          split at hstep
          next left hmain =>
            rcases Option.ite_none_left_eq_some.mp hstep with ⟨-, h⟩
            cases h
            exact hapart hmain rfl (by simp) rfl rfl (by simp) trivial
          next => cases hstep
  | create ok =>
      simp only [step] at hstep
      split at hstep
      next x left hmain =>
        cases ok with
        | true | false =>
            cases hstep
            exact hapart hmain rfl (by simp) rfl rfl (by simp) trivial
      next => cases hstep
  | link =>
      simp only [step] at hstep
      split at hstep <;> cases hstep
      next x left hmain => exact hapart hmain rfl (by simp) rfl rfl (by simp) trivial
  | ret =>
      simp only [step] at hstep
      split at hstep <;> cases hstep
      next hmain => exact hapart hmain rfl (by simp) rfl rfl (by simp) trivial
  | push task woken =>
      simp only [step] at hstep
      split at hstep
      next =>
        rcases Option.ite_none_right_eq_some.mp hstep with ⟨-, h⟩
        obtain ⟨hmain, hnode, hlive⟩ := signal_same h
        exact .same trivial hmain hnode hlive
      next => cases hstep
  | destroy =>
      simp only [step] at hstep
      split at hstep <;> cases hstep
      next hmain => exact .destroy hmain
  | flag =>
      simp only [step] at hstep
      split at hstep
      next x hmain =>
        refine .of_access ?_ trivial (.flag x hmain) hstep
        rw [hmain]
        rfl
      next => cases hstep
  | next =>
      simp only [step] at hstep
      split at hstep
      next x hmain =>
        refine .of_access ?_ trivial (.next x hmain) hstep
        rw [hmain]
        rfl
      next => cases hstep
  | broadcast =>
      simp only [step] at hstep
      split at hstep
      next hmain =>
        rcases Option.ite_none_right_eq_some.mp hstep with ⟨-, h⟩
        cases h
        exact hapart hmain rfl (by simp) rfl rfl (by simp) trivial
      next => cases hstep
  | advance w =>
      obtain ⟨hmain, hnode, hlive⟩ := advance_same hstep
      exact .same trivial hmain hnode hlive
  | free w =>
      simp only [step] at hstep
      split at hstep <;> cases hstep
      exact .free w
  | wakeup w =>
      simp only [step] at hstep
      split at hstep <;> cases hstep
      exact .same trivial rfl rfl rfl

/-- From a clear state a step leads to a clear one exactly when it is behind the walk. -/
theorem Clear.step_iff (h : s.Clear) (hstep : s.step e = some t) :
    t.Clear ↔ s.BehindTheWalk e := by
  cases Walks.of_step hstep with
  | apart he _ _ ht ht' => exact iff_of_true ((clear_iff_of_cursor ht).mpr ht') he
  | same he hmain hnode hlive => exact iff_of_true ((clear_congr hmain hnode hlive).mpr h) he
  | destroy => exact ⟨fun ht => ht.live, fun he => ⟨by simp [Untouched], he⟩⟩
  | flag x hmain =>
      refine iff_of_true ⟨by simp [Untouched], fun y hy => h.live y ?_⟩ trivial
      -- the flag leaves the links as they are
      rw [Ahead, hmain]
      refine hy.congr fun z => ?_
      rcases eq_or_ne z x with rfl | hzx
      · simp
      · simp [hzx]
  | next x hmain =>
      refine iff_of_true ⟨by simp [Untouched], fun y hy => h.live y ?_⟩ trivial
      rw [Ahead, hmain]
      exact .further hy
  | fault x hcursor hx =>
      -- the walk has come to a freed node, which a clear state excludes
      have hlive := h.live x (by rw [Ahead, hcursor]; exact .here x)
      rw [hx] at hlive
      cases hlive
  | free w =>
      constructor
      -- what is freed must not lie ahead, and nothing else changes
      · intro ht hw
        have hlive : Function.update s.live w false w = true := ht.live w hw
        rw [Function.update_self] at hlive
        cases hlive
      · intro hw
        refine ⟨h.untouched, fun y hy => ?_⟩
        have hyw : y ≠ w := fun hyw => hw (hyw ▸ hy)
        change Function.update s.live w false y = true
        rw [Function.update_of_ne hyw]
        exact h.live y hy

/-- A step does not lead back to a clear state. -/
theorem Clear.back (hstep : s.step e = some t) (h : t.Clear) : s.Clear := by
  cases Walks.of_step hstep with
  | apart _ hs hs' => exact (clear_iff_of_cursor hs).mpr hs'
  | same _ hmain hnode hlive => exact (clear_congr hmain hnode hlive).mp h
  | destroy hmain =>
      refine (clear_iff_of_cursor ?_).mpr ?_
      · rw [hmain]
        rfl
      · rw [Untouched, hmain]
        simp
  | flag x hmain =>
      refine ⟨by rw [Untouched, hmain]; simp, fun y hy => h.live y ?_⟩
      rw [Ahead, hmain] at hy
      refine hy.congr fun z => ?_
      rcases eq_or_ne z x with rfl | hzx
      · simp
      · simp [hzx]
  | next x hmain hx =>
      refine ⟨by rw [Untouched, hmain]; simp, fun y hy => ?_⟩
      rw [Ahead, hmain] at hy
      rcases met_some_iff.mp hy with rfl | hy
      · exact hx
      · exact h.live y hy
  | fault => exact absurd rfl h.untouched
  | free w =>
      refine ⟨h.untouched, fun y hy => ?_⟩
      have hlive : Function.update s.live w false y = true := h.live y hy
      rcases eq_or_ne y w with rfl | hyw
      · rw [Function.update_self] at hlive
        cases hlive
      · rwa [Function.update_of_ne hyw] at hlive

omit [DecidableEq κ] in
theorem clear_create (thread_num : Int) : (create thread_num : ListPool κ τ).Clear :=
  (clear_iff_of_cursor rfl).mpr (by simp [Untouched, create])

/-- For any number of workers, any number of calls and every interleaving: `thread_destroy` uses no
freed node in a run whose nodes are all freed behind its walk. Where no walk is going on at the end,
these are the only such runs. -/
theorem untouched_iff {thread_num : Int} {l : List (ListEvent κ τ)}
    (hrun : runEvents step (create thread_num) l = some t) :
    (Along step BehindTheWalk (create thread_num) l →
      Along step (fun s _ => s.Untouched) (create thread_num) l ∧ t.Untouched) ∧
    (t.main.cursor = none →
      Along step (fun s _ => s.Untouched) (create thread_num) l ∧ t.Untouched →
        Along step BehindTheWalk (create thread_num) l) := by
  have hiff : (Along step (fun s _ => s.Clear) (create thread_num) l ∧ t.Clear) ↔
      Along step BehindTheWalk (create thread_num) l :=
    always_iff_along (I := fun _ => True) (fun _ _ _ _ _ => trivial)
      (fun _ _ _ _ hs hstep => hs.step_iff hstep) trivial (clear_create thread_num) hrun
  constructor
  · intro hbehind
    obtain ⟨hl, ht⟩ := hiff.mpr hbehind
    exact ⟨hl.imp fun _ _ hs => hs.untouched, ht.untouched⟩
  -- a state at the end that is clear was reached through clear states only
  · rintro hcursor ⟨-, ht⟩
    have hclear : t.Clear := (clear_iff_of_cursor hcursor).mpr ht
    exact hiff.mp ⟨(along_of_end (fun _ _ _ hstep => Clear.back hstep) hrun hclear).2, hclear⟩

/-- A pool of one worker, which frees its node after `thread_destroy` has read `next`. -/
theorem untouched_iff_one_worker : ∃ t : ListPool Nat Unit,
    runEvents step (create 1) [.malloc (some 8), .create true, .link, .ret, .advance 8, .destroy,
      .flag, .next, .advance 8, .advance 8, .advance 8, .free 8, .broadcast] = some t ∧
      t.thread 8 = .exited ∧ t.main = .outside ∧ t.Untouched := by
  have hall : ∀ t : ListPool Nat Unit,
      runEvents step (create 1) [.malloc (some 8), .create true, .link, .ret, .advance 8, .destroy,
        .flag, .next, .advance 8, .advance 8, .advance 8, .free 8, .broadcast] = some t →
        t.Untouched := by
    intro t hrun
    refine ((untouched_iff hrun).1 ⟨trivial, trivial, trivial, trivial, trivial, fun x hx => ?_,
      trivial, trivial, trivial, trivial, trivial, not_met_none, trivial, trivial⟩).2
    rcases met_some_iff.mp hx with rfl | hx
    · rfl
    · exact absurd hx not_met_none
  exact ⟨_, rfl, rfl, rfl, hall _ rfl⟩

/-- The worker sees its flag and frees its node before `thread_destroy` has read `next`. -/
theorem destroy_reads_freed : ∃ t : ListPool Nat Unit,
    runEvents step (create 1) [.malloc (some 8), .create true, .link, .ret, .advance 8, .destroy,
      .flag, .advance 8, .advance 8, .advance 8, .free 8, .next] = some t ∧
      ¬ t.Untouched :=
  ⟨_, rfl, fun h => h rfl⟩

end Runs

end ListPool

end CLanguageLearning.ThreadPool
