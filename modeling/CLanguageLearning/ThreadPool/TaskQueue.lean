import CLanguageLearning.Foundation.Exec
import CLanguageLearning.Foundation.TailPointer
import CLanguageLearning.Foundation.Transitions

/-!
# The queue of the thread pool with a spinlock

The queue of `threadpool.c` with its pointers: `tail` is the address of the last link, which is the
head field or the `next` field of the last task (its first member). A task is allocated by the
thread that posts it and freed by the worker that takes it, and the allocator may hand out the
address of a freed task at once. An access to a task that is not allocated has no meaning.

`add_task` and `pop_task` are the critical sections under the spinlock. `*link = NULL` comes before
the lock, so it is a step of its own. `queue_fifo` says what holds in every reachable state; the
ledger of the pool (`added`, `taken`, `freed`, `executed`) is there to state it.
-/

set_option autoImplicit false

namespace CLanguageLearning.ThreadPool

open CLanguageLearning.Foundation

/-- `task_t`, with `handler` and `arg` as one value. -/
structure TaskNode (τ : Type) where
  next : Option Nat
  task : τ
  deriving DecidableEq, Repr

/-- The tasks that are allocated, by their addresses, and the pointers of `task_queue_t`. -/
structure TaskQueue (τ : Type) where
  node : Nat → Option (TaskNode τ)
  head : Option Nat
  tail : Slot Nat

namespace TaskQueue

variable {τ : Type}

/-- After `__task_queue_create`. -/
def create : TaskQueue τ := ⟨fun _ => none, none, .head⟩

/-- Read the task at `x`. -/
def loadTask (x : Nat) : Exec (TaskQueue τ) (TaskNode τ) := do
  let q ← get
  match q.node x with
  | none => throw .undefined
  | some n => return n

/-- `*link = v`. -/
def storeLink (link : Slot Nat) (v : Option Nat) : Exec (TaskQueue τ) Unit :=
  match link with
  | .head => modify fun q => { q with head := v }
  | .next x => do
      let n ← loadTask x
      modify fun q => { q with node := Function.update q.node x (some { n with next := v }) }

/-- `malloc` at the address `x`, and the stores to `handler` and `arg`; `next` is as it was. -/
def allocTask (x : Nat) (next : Option Nat) (task : τ) : Exec (TaskQueue τ) Unit :=
  modify fun q => { q with node := Function.update q.node x (some ⟨next, task⟩) }

/-- `free(task)`. -/
def freeTask (x : Nat) : Exec (TaskQueue τ) Unit := do
  let _ ← loadTask x
  modify fun q => { q with node := Function.update q.node x none }

/-- `__add_task` between `spinlock_lock` and `spinlock_unlock`. -/
def add_task (x : Nat) : Exec (TaskQueue τ) Unit := do
  let q ← get
  storeLink q.tail (some x)
  modify fun q => { q with tail := .next x }

/-- `__pop_task` between `spinlock_lock` and `spinlock_unlock`. -/
def pop_task : Exec (TaskQueue τ) (Option Nat) := do
  let q ← get
  match q.head with
  | none => return none
  | some x =>
      let n ← loadTask x
      modify fun q => { q with head := n.next }
      if n.next = none then modify fun q => { q with tail := .head }
      return some x

/-- The next field of the task at an address. -/
def next (q : TaskQueue τ) (x : Nat) : Option Nat := (q.node x).bind TaskNode.next

section Runs

variable {q : TaskQueue τ} {x : Nat} {n : TaskNode τ} {v : Option Nat}

theorem loadTask_run (h : q.node x = some n) : (loadTask x).run q = .ok (n, q) := by
  simp [loadTask, h]

theorem storeLink_run_head (q : TaskQueue τ) (v : Option Nat) :
    (storeLink .head v).run q = .ok ((), { q with head := v }) := rfl

theorem storeLink_run_next (h : q.node x = some n) (v : Option Nat) :
    (storeLink (.next x) v).run q =
      .ok ((), { q with node := Function.update q.node x (some { n with next := v }) }) := by
  rw [storeLink, run_bind_of_ok (loadTask_run h)]
  rfl

theorem freeTask_run (h : q.node x = some n) :
    (freeTask x).run q = .ok ((), { q with node := Function.update q.node x none }) := by
  rw [freeTask, run_bind_of_ok (loadTask_run h)]
  rfl

theorem next_eq (h : q.node x = some n) : q.next x = n.next := by
  simp [next, h]

/-- The next fields after a store to the task at `x`. -/
theorem next_update (q : TaskQueue τ) (x : Nat) (n : TaskNode τ) :
    next { q with node := Function.update q.node x (some n) } =
      Function.update q.next x n.next :=
  bind_update TaskNode.next q.node x (some n)

/-- The queue does not change with a task that is not in it. -/
theorem queued_update {l : List Nat} (h : Queued q.head q.next q.tail l) (hx : x ∉ l)
    (m : Option (TaskNode τ)) :
    Queued q.head (next { q with node := Function.update q.node x m }) q.tail l := by
  have hnext : next { q with node := Function.update q.node x m } =
      Function.update q.next x (m.bind TaskNode.next) := bind_update TaskNode.next q.node x m
  rw [hnext]
  exact h.update hx _

/-- What an operation keeps of the tasks: they stay allocated, with their values. -/
def Keeps (q q' : TaskQueue τ) : Prop :=
  ∀ y nx task, q.node y = some ⟨nx, task⟩ → ∃ nx', q'.node y = some ⟨nx', task⟩

/-- The critical section of `__add_task`, for a task that is not in the queue. -/
theorem add_task_run {l : List Nat} {task : τ} (hq : Queued q.head q.next q.tail l)
    (hlive : ∀ y ∈ l, ∃ n, q.node y = some n) (hx : x ∉ l) (hnode : q.node x = some ⟨none, task⟩) :
    ∃ q', (add_task x).run q = .ok ((), q') ∧ Queued q'.head q'.next q'.tail (l ++ [x]) ∧
      Keeps q q' ∧ ∀ y, y ∉ l → q'.node y = q.node y := by
  have hnext : q.next x = none := next_eq hnode
  have hpush := hq.push hx hnext
  cases htail : q.tail with
  | head =>
      rw [htail] at hpush
      refine ⟨{ q with head := some x, tail := .next x }, ?_, hpush,
        fun y nx task hy => ⟨nx, hy⟩, fun _ _ => rfl⟩
      simp [add_task, htail, storeLink_run_head]
  | next a =>
      have hmem := mem_of_lastSlot (hq.tail.symm.trans htail)
      obtain ⟨n, ha⟩ := hlive a hmem
      have hstore := storeLink_run_next ha (some x)
      rw [htail] at hpush
      refine ⟨{ q with node := Function.update q.node a (some { n with next := some x }),
                       tail := .next x }, ?_, ?_, fun y nx task hy => ?_, fun y hy => ?_⟩
      · simp [add_task, htail, hstore]
      · have hupdate := next_update q a { n with next := some x }
        show Queued q.head (next { q with
          node := Function.update q.node a (some { n with next := some x }) }) (.next x) (l ++ [x])
        rw [hupdate]
        exact hpush
      · -- the last task has a new next field and its old value
        rcases eq_or_ne y a with rfl | hne
        · rw [ha] at hy
          cases hy
          exact ⟨some x, Function.update_self ..⟩
        · exact ⟨nx, (Function.update_of_ne hne ..).trans hy⟩
      · have hne : y ≠ a := fun he => hy (he ▸ hmem)
        exact Function.update_of_ne hne ..

theorem pop_task_run_nil (hq : Queued q.head q.next q.tail []) :
    pop_task.run q = .ok (none, q) := by
  simp [pop_task, hq.head_nil]

theorem pop_task_run_cons {l : List Nat} (hq : Queued q.head q.next q.tail (x :: l))
    (hnode : q.node x = some n) :
    ∃ q', pop_task.run q = .ok (some x, q') ∧ Queued q'.head q'.next q'.tail l ∧
      q'.node = q.node := by
  have hpop := hq.pop
  rw [next_eq hnode] at hpop
  have hload := loadTask_run hnode
  refine ⟨{ q with head := n.next, tail := if n.next = none then .head else q.tail }, ?_, hpop, rfl⟩
  by_cases hn : n.next = none
  · simp [pop_task, hq.head_eq, hload, hn]
  · simp [pop_task, hq.head_eq, hload, hn]

end Runs

end TaskQueue

/-! ## The pool -/

/-- Where a thread is in `thread_pool_post`. -/
inductive Poster (τ : Type) where
  | outside
  /-- The task is allocated and filled in; before `*link = NULL`. -/
  | filled (x : Nat) (task : τ)
  /-- Before the critical section of `__add_task`. -/
  | cleared (x : Nat) (task : τ)
  deriving DecidableEq, Repr

/-- Where a worker is in `__thread_pool_worker`; `n` is the number of its task in the order of
addition. -/
inductive Taker (τ : Type) where
  | idle
  /-- With a task that it has popped; before it reads `handler` and `arg`. -/
  | holding (x n : Nat)
  /-- Before `free(task)`. -/
  | loaded (x n : Nat) (task : τ)
  /-- Before `handler(context)`. -/
  | freed (n : Nat) (task : τ)
  deriving DecidableEq, Repr

/-- The pool. The ledger has the tasks in the order of addition with their addresses, the workers
that took them, the numbers of the freed ones and the numbers and values of the executed ones. -/
structure TaskPool (ι κ τ : Type) where
  queue : TaskQueue τ
  poster : ι → Poster τ
  taker : κ → Taker τ
  faulted : Bool
  added : List (Nat × τ)
  taken : List κ
  freed : List Nat
  executed : List (Nat × τ)

/-- What can happen next. `malloc` has an address that is not in use, with what was left there. -/
inductive TaskEvent (ι κ τ : Type) where
  | malloc (u : ι) (x : Nat) (junk : Option Nat) (task : τ)
  | clear (u : ι)
  | add (u : ι)
  | pop (w : κ)
  | load (w : κ)
  | free (w : κ)
  | execute (w : κ)
  deriving DecidableEq, Repr

namespace TaskPool

variable {ι κ τ : Type}

def create : TaskPool ι κ τ :=
  ⟨.create, fun _ => .outside, fun _ => .idle, false, [], [], [], []⟩

section Steps

variable [DecidableEq ι] [DecidableEq κ]

/-- Run an operation on the queue. The pool has no further step when it has no meaning. -/
def call {α : Type} (s : TaskPool ι κ τ) (op : Exec (TaskQueue τ) α)
    (k : TaskPool ι κ τ → α → TaskPool ι κ τ) : TaskPool ι κ τ :=
  match op.run s.queue with
  | .ok (a, q) => k { s with queue := q } a
  | .error _ => { s with faulted := true }

def movePoster (s : TaskPool ι κ τ) (u : ι) (p : Poster τ) : TaskPool ι κ τ :=
  { s with poster := Function.update s.poster u p }

def moveTaker (s : TaskPool ι κ τ) (w : κ) (p : Taker τ) : TaskPool ι κ τ :=
  { s with taker := Function.update s.taker w p }

/-- A pop that found a task, or none. -/
def popped (s : TaskPool ι κ τ) (w : κ) : Option Nat → TaskPool ι κ τ
  | none => s
  | some x => { s with taken := s.taken ++ [w] }.moveTaker w (.holding x s.taken.length)

def step (s : TaskPool ι κ τ) (e : TaskEvent ι κ τ) : Option (TaskPool ι κ τ) :=
  if s.faulted then none
  else
    match e with
    | .malloc u x junk task =>
        match s.poster u, s.queue.node x with
        -- the address may be that of a task freed before
        | .outside, none =>
            some (s.call (TaskQueue.allocTask x junk task) fun s _ =>
              s.movePoster u (.filled x task))
        | _, _ => none
    | .clear u =>
        match s.poster u with
        | .filled x task =>
            -- before the spinlock is taken
            some (s.call (TaskQueue.storeLink (.next x) none) fun s _ =>
              s.movePoster u (.cleared x task))
        | _ => none
    | .add u =>
        match s.poster u with
        | .cleared x task =>
            some (s.call (TaskQueue.add_task x) fun s _ =>
              { s with added := s.added ++ [(x, task)] }.movePoster u .outside)
        | _ => none
    | .pop w =>
        match s.taker w with
        -- the worker goes on without a task when there is none
        | .idle => some (s.call TaskQueue.pop_task fun s x => s.popped w x)
        | _ => none
    | .load w =>
        match s.taker w with
        | .holding x n =>
            some (s.call (TaskQueue.loadTask x) fun s t => s.moveTaker w (.loaded x n t.task))
        | _ => none
    | .free w =>
        match s.taker w with
        | .loaded x n task =>
            some (s.call (TaskQueue.freeTask x) fun s _ =>
              { s with freed := s.freed ++ [n] }.moveTaker w (.freed n task))
        | _ => none
    | .execute w =>
        match s.taker w with
        | .freed n task =>
            -- the task is freed, its value was read before
            some ({ s with executed := s.executed ++ [(n, task)] }.moveTaker w .idle)
        | _ => none

end Steps

/-! ## What holds in every reachable state -/

/-- The tasks that have been added and not yet taken. -/
def pending (s : TaskPool ι κ τ) : List (Nat × τ) := s.added.drop s.taken.length

end TaskPool

/-- The number of the task that a worker has. -/
def Taker.number {τ : Type} : Taker τ → Option Nat
  | idle => none
  | holding _ n => some n
  | loaded _ n _ => some n
  | freed n _ => some n

/-- A worker with the task `n`, which it has not freed. -/
def Taker.Holds {τ : Type} (p : Taker τ) (n : Nat) : Prop :=
  (∃ x, p = .holding x n) ∨ ∃ x task, p = .loaded x n task

theorem Taker.Holds.number {τ : Type} {p : Taker τ} {n : Nat} (h : p.Holds n) :
    p.number = some n := by
  rcases h with ⟨x, rfl⟩ | ⟨x, task, rfl⟩
  · rfl
  · rfl

theorem Taker.not_holds_idle {τ : Type} {n : Nat} : ¬(idle : Taker τ).Holds n := by
  rintro (⟨x, h⟩ | ⟨x, task, h⟩)
  · cases h
  · cases h

theorem Taker.not_holds_freed {τ : Type} {m n : Nat} {task : τ} : ¬(freed m task).Holds n := by
  rintro (⟨x, h⟩ | ⟨x, task', h⟩)
  · cases h
  · cases h

/-- The task of a worker is the one that its number stands for in the ledger. -/
def Taker.Tracked {τ : Type} (added : List (Nat × τ)) : Taker τ → Prop
  | idle => True
  | holding x n => ∃ task, added[n]? = some (x, task)
  | loaded x n task => added[n]? = some (x, task)
  | freed n task => ∃ x, added[n]? = some (x, task)

namespace Taker.Tracked

variable {τ : Type} {added : List (Nat × τ)} {p : Taker τ} {x n : Nat} {task : τ}

theorem of_holding (h : p.Tracked added) (hp : p = .holding x n) :
    ∃ task, added[n]? = some (x, task) := by
  rw [hp] at h
  exact h

theorem of_loaded (h : p.Tracked added) (hp : p = .loaded x n task) :
    added[n]? = some (x, task) := by
  rw [hp] at h
  exact h

theorem of_freed (h : p.Tracked added) (hp : p = .freed n task) :
    ∃ x, added[n]? = some (x, task) := by
  rw [hp] at h
  exact h

end Taker.Tracked

namespace TaskPool

variable {ι κ τ : Type}

/-- Nothing freed has been touched. The chain from the head ends, with exactly the tasks that have
been added and not taken, in their order and with their values, and `tail` is its last link. No more
tasks are taken than added. A worker with the `n`-th task is the `n`-th to take one, and until it
frees the task it holds what was added as the `n`-th. A task is freed at most once, namely when its
taker no longer holds it, and executed at most once after that, with the value that was posted. -/
structure Fifo (s : TaskPool ι κ τ) : Prop where
  sound : s.faulted = false
  chain : Follows s.queue.next s.queue.head (s.pending.map Prod.fst)
  tail : s.queue.tail = lastSlot (s.pending.map Prod.fst)
  tasks : ∀ p ∈ s.pending, ∃ nx, s.queue.node p.1 = some ⟨nx, p.2⟩
  taken_le : s.taken.length ≤ s.added.length
  handed : ∀ w n, (s.taker w).number = some n → s.taken[n]? = some w
  held : ∀ w x n, s.taker w = .holding x n → ∃ task, s.added[n]? = some (x, task)
  freed_once : ∀ n, s.freed.count n ≤ 1
  freed_iff : ∀ n, n ∈ s.freed ↔ n < s.taken.length ∧ ∀ w, ¬(s.taker w).Holds n
  executed_once : ∀ n, (s.executed.map Prod.fst).count n ≤ 1
  executed_iff : ∀ n, n ∈ s.executed.map Prod.fst ↔
    n ∈ s.freed ∧ ∀ w task, s.taker w ≠ .freed n task
  executed_task : ∀ p ∈ s.executed, ∃ x, s.added[p.1]? = some (x, p.2)

/-- Who is to take care of a task. -/
inductive Owner (ι κ : Type) where
  | queue
  | poster (u : ι)
  | taker (w : κ)
  deriving DecidableEq

/-- The task at `x` with its value is owned. -/
def Owns (s : TaskPool ι κ τ) : Owner ι κ → Nat → τ → Prop
  | .queue, x, task => (x, task) ∈ s.pending
  | .poster u, x, task => s.poster u = .filled x task ∨ s.poster u = .cleared x task
  | .taker w, x, task => ∃ n, s.added[n]? = some (x, task) ∧
      (s.taker w = .holding x n ∨ s.taker w = .loaded x n task)

/-- Every owned task is allocated and has one owner. -/
structure Placed (s : TaskPool ι κ τ) : Prop where
  sound : s.faulted = false
  queued : Queued s.queue.head s.queue.next s.queue.tail (s.pending.map Prod.fst)
  one : ∀ o o' x task task', s.Owns o x task → s.Owns o' x task' → o = o'
  live : ∀ o x task, s.Owns o x task → ∃ nx, s.queue.node x = some ⟨nx, task⟩
  cleared : ∀ u x task, s.poster u = .cleared x task → s.queue.node x = some ⟨none, task⟩

/-- What the ledger says of the workers. -/
structure Recorded (s : TaskPool ι κ τ) : Prop where
  taken_le : s.taken.length ≤ s.added.length
  handed : ∀ w n, (s.taker w).number = some n → s.taken[n]? = some w
  holding : ∀ w x n, s.taker w = .holding x n → ∃ task, s.added[n]? = some (x, task)
  loaded : ∀ w x n task, s.taker w = .loaded x n task → s.added[n]? = some (x, task)
  freed : ∀ w n task, s.taker w = .freed n task → ∃ x, s.added[n]? = some (x, task)
  freed_nodup : s.freed.Nodup
  freed_iff : ∀ n, n ∈ s.freed ↔ n < s.taken.length ∧ ∀ w, ¬(s.taker w).Holds n
  executed_nodup : (s.executed.map Prod.fst).Nodup
  executed_iff : ∀ n, n ∈ s.executed.map Prod.fst ↔
    n ∈ s.freed ∧ ∀ w task, s.taker w ≠ .freed n task
  executed_task : ∀ p ∈ s.executed, ∃ x, s.added[p.1]? = some (x, p.2)

section Runs

variable {s t : TaskPool ι κ τ} {u : ι} {v w : κ} {x y n : Nat} {task : τ} {q : TaskQueue τ}
  {o : Owner ι κ}

theorem placed_create : (create : TaskPool ι κ τ).Placed where
  sound := rfl
  queued := Queued.nil _
  one o o' x task task' h := by
    cases o with
    | queue => cases h
    | poster u => rcases h with h | h <;> cases h
    | taker w => obtain ⟨n, h, -⟩ := h; cases h
  live o x task h := by
    cases o with
    | queue => cases h
    | poster u => rcases h with h | h <;> cases h
    | taker w => obtain ⟨n, h, -⟩ := h; cases h
  cleared u x task h := by cases h

theorem recorded_create : (create : TaskPool ι κ τ).Recorded where
  taken_le := le_refl 0
  handed w n h := by cases h
  holding w x n h := by cases h
  loaded w x n task h := by cases h
  freed w n task h := by cases h
  freed_nodup := List.nodup_nil
  freed_iff n := by simp [create]
  executed_nodup := List.nodup_nil
  executed_iff n := by simp [create]
  executed_task p h := by cases h

variable [DecidableEq ι] [DecidableEq κ]

/-- What a step can do, with the result of its operation on the queue. -/
inductive Moves (s : TaskPool ι κ τ) : TaskPool ι κ τ → Prop
  | malloc (u : ι) (x : Nat) (junk : Option Nat) (task : τ) (hu : s.poster u = .outside)
      (hx : s.queue.node x = none) : Moves s ({ s with queue := { s.queue with
        node := Function.update s.queue.node x (some ⟨junk, task⟩) } }.movePoster u (.filled x task))
  | clear (u : ι) (x : Nat) (task : τ) (hu : s.poster u = .filled x task) :
      Moves s ({ s with queue := { s.queue with
        node := Function.update s.queue.node x (some ⟨none, task⟩) } }.movePoster u (.cleared x task))
  | add (u : ι) (x : Nat) (task : τ) (q : TaskQueue τ) (hu : s.poster u = .cleared x task)
      (hq : Queued q.head q.next q.tail (s.pending.map Prod.fst ++ [x]))
      (hkeeps : s.queue.Keeps q)
      (hsame : ∀ y, y ∉ s.pending.map Prod.fst → q.node y = s.queue.node y) : Moves s ({ s with
        queue := q, added := s.added ++ [(x, task)] }.movePoster u .outside)
  | nothing : Moves s s
  | pop (w : κ) (x : Nat) (task : τ) (rest : List (Nat × τ)) (q : TaskQueue τ)
      (hw : s.taker w = .idle) (hpending : s.pending = (x, task) :: rest)
      (hq : Queued q.head q.next q.tail (rest.map Prod.fst)) (hnode : q.node = s.queue.node) :
      Moves s ({ s with queue := q, taken := s.taken ++ [w] }.moveTaker w
        (.holding x s.taken.length))
  | load (w : κ) (x n : Nat) (task : τ) (hw : s.taker w = .holding x n)
      (htask : s.added[n]? = some (x, task)) : Moves s (s.moveTaker w (.loaded x n task))
  | free (w : κ) (x n : Nat) (task : τ) (hw : s.taker w = .loaded x n task) :
      Moves s ({ s with
        queue := { s.queue with node := Function.update s.queue.node x none }
        freed := s.freed ++ [n] }.moveTaker w (.freed n task))
  | execute (w : κ) (n : Nat) (task : τ) (hw : s.taker w = .freed n task) :
      Moves s ({ s with executed := s.executed ++ [(n, task)] }.moveTaker w .idle)

omit [DecidableEq ι] [DecidableEq κ] in
theorem call_ok {α : Type} {op : Exec (TaskQueue τ) α} {a : α}
    (h : op.run s.queue = .ok (a, q)) (k : TaskPool ι κ τ → α → TaskPool ι κ τ) :
    s.call op k = k { s with queue := q } a := by
  rw [call, h]

omit [DecidableEq ι] [DecidableEq κ] in
/-- The tasks of the queue are allocated. -/
theorem Placed.queue_live (h : s.Placed) (hy : y ∈ s.pending.map Prod.fst) :
    ∃ n, s.queue.node y = some n := by
  obtain ⟨p, hp, rfl⟩ := List.mem_map.mp hy
  obtain ⟨nx, hnode⟩ := h.live .queue p.1 p.2 hp
  exact ⟨_, hnode⟩

omit [DecidableEq ι] [DecidableEq κ] in
/-- The task of a poster is not in the queue. -/
theorem Placed.not_queued (h : s.Placed) (hu : s.Owns (.poster u) x task) :
    x ∉ s.pending.map Prod.fst := by
  intro hmem
  obtain ⟨⟨y, task'⟩, hp, rfl⟩ := List.mem_map.mp hmem
  cases h.one _ _ _ _ _ hu (show s.Owns .queue y task' from hp)

/-- No operation on the queue is without meaning. -/
theorem Moves.of_step {e : TaskEvent ι κ τ} (h : s.Placed) (hr : s.Recorded)
    (hstep : s.step e = some t) : s.Moves t := by
  rw [step.eq_def, if_neg (by simp [h.sound])] at hstep
  cases e with
  | malloc u x junk task =>
      dsimp only at hstep
      split at hstep
      · next hu hx =>
          cases hstep
          exact .malloc u x junk task hu hx
      · cases hstep
  | clear u =>
      dsimp only at hstep
      split at hstep
      · next x task hu =>
          obtain ⟨nx, hnode⟩ := h.live (.poster u) x task (Or.inl hu)
          rw [call_ok (TaskQueue.storeLink_run_next hnode none), Option.some.injEq] at hstep
          subst hstep
          exact .clear u x task hu
      · cases hstep
  | add u =>
      dsimp only at hstep
      split at hstep
      · next x task hu =>
          obtain ⟨q, hrun, hq, hkeeps, hsame⟩ := TaskQueue.add_task_run h.queued
            (fun y hy => h.queue_live hy) (h.not_queued (Or.inr hu)) (h.cleared u x task hu)
          rw [call_ok hrun, Option.some.injEq] at hstep
          subst hstep
          exact .add u x task q hu hq hkeeps hsame
      · cases hstep
  | pop w =>
      dsimp only at hstep
      split at hstep
      · next hw =>
          have hqueued := h.queued
          cases hpending : s.pending with
          | nil =>
              rw [hpending] at hqueued
              -- the head is `NULL`
              rw [call_ok (TaskQueue.pop_task_run_nil hqueued), Option.some.injEq] at hstep
              subst hstep
              exact .nothing
          | cons p rest =>
              obtain ⟨x, task⟩ := p
              rw [hpending] at hqueued
              obtain ⟨nx, hnode⟩ := h.live .queue x task (by simp [Owns, hpending])
              obtain ⟨q, hrun, hq, hsame⟩ := TaskQueue.pop_task_run_cons hqueued hnode
              rw [call_ok hrun, Option.some.injEq] at hstep
              subst hstep
              exact .pop w x task rest q hw hpending hq hsame
      · cases hstep
  | load w =>
      dsimp only at hstep
      split at hstep
      · next x n hw =>
          obtain ⟨task, htask⟩ := hr.holding w x n hw
          obtain ⟨nx, hnode⟩ := h.live (.taker w) x task ⟨n, htask, Or.inl hw⟩
          rw [call_ok (TaskQueue.loadTask_run hnode), Option.some.injEq] at hstep
          subst hstep
          exact .load w x n task hw htask
      · cases hstep
  | free w =>
      dsimp only at hstep
      split at hstep
      · next x n task hw =>
          have htask := hr.loaded w x n task hw
          obtain ⟨nx, hnode⟩ := h.live (.taker w) x task ⟨n, htask, Or.inr hw⟩
          rw [call_ok (TaskQueue.freeTask_run hnode), Option.some.injEq] at hstep
          subst hstep
          exact .free w x n task hw
      · cases hstep
  | execute w =>
      dsimp only at hstep
      split at hstep
      · next n task hw =>
          cases hstep
          exact .execute w n task hw
      · cases hstep

omit [DecidableEq ι] [DecidableEq κ] in
/-- The task at `x` comes to one owner, and all others stay with theirs. -/
theorem Placed.one_of (h : s.Placed) {b : Owner ι κ}
    (hcases : ∀ o y task', t.Owns o y task' →
      (y = x ∧ o = b ∧ task' = task) ∨ (y ≠ x ∧ s.Owns o y task')) :
    ∀ o o' y task' task'', t.Owns o y task' → t.Owns o' y task'' → o = o' := by
  intro o o' y task' task'' ho ho'
  rcases hcases o y task' ho with ⟨hy, rfl, -⟩ | ⟨hy, hold⟩
  · rcases hcases o' y task'' ho' with ⟨-, rfl, -⟩ | ⟨hy', -⟩
    · rfl
    · exact absurd hy hy'
  · rcases hcases o' y task'' ho' with ⟨hy', -⟩ | ⟨-, hold'⟩
    · exact absurd hy' hy
    · exact h.one _ _ _ _ _ hold hold'

omit [DecidableEq ι] [DecidableEq κ] in
/-- The task of another owner is another one. -/
theorem Placed.ne_of_owner (h : s.Placed) {o : Owner ι κ} (o' : Owner ι κ) {task' : τ}
    (ho : s.Owns o x task) (ho' : s.Owns o' y task') (hne : o' ≠ o) : y ≠ x := by
  rintro rfl
  exact hne (h.one _ _ _ _ _ ho' ho)

omit [DecidableEq κ] in
theorem movePoster_cases (s : TaskPool ι κ τ) (u : ι) (p : Poster τ) (v : ι) :
    (v = u ∧ (s.movePoster u p).poster v = p) ∨
      (v ≠ u ∧ (s.movePoster u p).poster v = s.poster v) := by
  rcases eq_or_ne v u with rfl | hne
  · exact Or.inl ⟨rfl, Function.update_self ..⟩
  · exact Or.inr ⟨hne, Function.update_of_ne hne ..⟩

omit [DecidableEq ι] in
theorem moveTaker_cases (s : TaskPool ι κ τ) (w : κ) (p : Taker τ) (v : κ) :
    (v = w ∧ (s.moveTaker w p).taker v = p) ∨
      (v ≠ w ∧ (s.moveTaker w p).taker v = s.taker v) := by
  rcases eq_or_ne v w with rfl | hne
  · exact Or.inl ⟨rfl, Function.update_self ..⟩
  · exact Or.inr ⟨hne, Function.update_of_ne hne ..⟩

omit [DecidableEq κ] in
/-- A poster fills in a task that nobody else has: after `malloc`, and with `*link = NULL`. -/
theorem Placed.fill (h : s.Placed) {nx : Option Nat} {p : Poster τ}
    (hothers : ∀ o y task', s.Owns o y task' → o ≠ .poster u → y ≠ x)
    (hp : p = .filled x task ∨ p = .cleared x task ∧ nx = none) :
    Placed ({ s with queue := { s.queue with
      node := Function.update s.queue.node x (some ⟨nx, task⟩) } }.movePoster u p) := by
  have hposter : ∀ v, (v = u ∧ Function.update s.poster u p v = p) ∨
      (v ≠ u ∧ Function.update s.poster u p v = s.poster v) :=
    movePoster_cases s u p
  have hcases : ∀ o y task', Owns ({ s with queue := { s.queue with
      node := Function.update s.queue.node x (some ⟨nx, task⟩) } }.movePoster u p) o y task' →
      (y = x ∧ o = .poster u ∧ task' = task) ∨ (y ≠ x ∧ s.Owns o y task') := by
    intro o y task' ho
    cases o with
    | queue => exact Or.inr ⟨hothers .queue y task' ho (by simp), ho⟩
    | taker w => exact Or.inr ⟨hothers (.taker w) y task' ho (by simp), ho⟩
    | poster v =>
        change Function.update s.poster u p v = .filled y task' ∨
          Function.update s.poster u p v = .cleared y task' at ho
        rcases hposter v with ⟨rfl, he⟩ | ⟨hne, he⟩
        · -- the poster has the task at `x` and no other one
          rw [he] at ho
          rcases hp with rfl | ⟨rfl, -⟩ <;> rcases ho with ho | ho <;> cases ho <;>
            exact Or.inl ⟨rfl, rfl, rfl⟩
        · rw [he] at ho
          exact Or.inr ⟨hothers (.poster v) y task' ho (by simpa using hne), ho⟩
  constructor
  case sound => exact h.sound
  -- the queue does not have the task, so its links are as before
  case queued =>
    refine TaskQueue.queued_update h.queued (fun hmem => ?_) _
    obtain ⟨e, he, hex⟩ := List.mem_map.mp hmem
    exact hothers .queue e.1 e.2 he (by simp) hex
  case one => exact h.one_of hcases
  case live =>
    intro o y task' ho
    rcases hcases o y task' ho with ⟨rfl, -, rfl⟩ | ⟨hne, hold⟩
    · exact ⟨nx, Function.update_self ..⟩
    · obtain ⟨nx, hnode⟩ := h.live o y task' hold
      exact ⟨nx, (Function.update_of_ne hne ..).trans hnode⟩
  case cleared =>
    intro v y task' hv
    change Function.update s.poster u p v = .cleared y task' at hv
    show Function.update s.queue.node x (some ⟨nx, task⟩) y = some ⟨none, task'⟩
    rcases hposter v with ⟨rfl, he⟩ | ⟨hne, he⟩
    · rw [he] at hv
      rcases hp with rfl | ⟨rfl, rfl⟩
      · cases hv
      · cases hv
        exact Function.update_self ..
    · rw [he] at hv
      have hyx := hothers (.poster v) y task' (Or.inr hv) (by simpa using hne)
      rw [Function.update_of_ne hyx, h.cleared v y task' hv]

omit [DecidableEq ι] [DecidableEq κ] in
/-- One more task has been added. -/
theorem pending_add (hle : s.taken.length ≤ s.added.length) (p : Nat × τ) :
    (s.added ++ [p]).drop s.taken.length = s.pending ++ [p] :=
  List.drop_append_of_le_length hle

omit [DecidableEq ι] [DecidableEq κ] in
/-- A worker's task has been added before. -/
theorem Recorded.lt_added (hr : s.Recorded) (hw : (s.taker w).number = some n) :
    n < s.added.length := by
  obtain ⟨hlt, -⟩ := List.getElem?_eq_some_iff.mp (hr.handed w n hw)
  exact Nat.lt_of_lt_of_le hlt hr.taken_le

omit [DecidableEq κ] in
/-- The task goes from its poster to the queue. -/
theorem Placed.add (h : s.Placed) (hr : s.Recorded) (hu : s.poster u = .cleared x task)
    (hq : Queued q.head q.next q.tail (s.pending.map Prod.fst ++ [x]))
    (hkeeps : s.queue.Keeps q)
    (hsame : ∀ y, y ∉ s.pending.map Prod.fst → q.node y = s.queue.node y) :
    Placed ({ s with queue := q, added := s.added ++ [(x, task)] }.movePoster u .outside) := by
  have howned : s.Owns (.poster u) x task := Or.inr hu
  have hposter : ∀ v, (v = u ∧ Function.update s.poster u .outside v = .outside) ∨
      (v ≠ u ∧ Function.update s.poster u .outside v = s.poster v) :=
    movePoster_cases s u .outside
  have hpending := pending_add hr.taken_le (x, task)
  have hcases : ∀ o y task', Owns ({ s with
      queue := q, added := s.added ++ [(x, task)] }.movePoster u .outside) o y task' →
      (y = x ∧ o = .queue ∧ task' = task) ∨ (y ≠ x ∧ s.Owns o y task') := by
    intro o y task' ho
    cases o with
    | queue =>
        change (y, task') ∈ (s.added ++ [(x, task)]).drop s.taken.length at ho
        rw [hpending, List.mem_append, List.mem_singleton] at ho
        rcases ho with ho | ho
        · exact Or.inr ⟨h.ne_of_owner .queue howned ho (by simp), ho⟩
        · cases ho
          exact Or.inl ⟨rfl, rfl, rfl⟩
    | poster v =>
        change Function.update s.poster u .outside v = .filled y task' ∨
          Function.update s.poster u .outside v = .cleared y task' at ho
        rcases hposter v with ⟨rfl, he⟩ | ⟨hne, he⟩
        · rw [he] at ho
          rcases ho with ho | ho <;> cases ho
        · rw [he] at ho
          exact Or.inr ⟨h.ne_of_owner (.poster v) howned ho (by simpa using hne), ho⟩
    | taker w =>
        obtain ⟨n, hn, hw⟩ := ho
        change (s.added ++ [(x, task)])[n]? = some (y, task') at hn
        have hnum : (s.taker w).number = some n := by
          rcases hw with hw | hw
          · rw [show s.taker w = _ from hw]; rfl
          · rw [show s.taker w = _ from hw]; rfl
        rw [List.getElem?_append_left (hr.lt_added hnum)] at hn
        have ho : s.Owns (.taker w) y task' := ⟨n, hn, hw⟩
        exact Or.inr ⟨h.ne_of_owner _ howned ho (by simp), ho⟩
  constructor
  case sound => exact h.sound
  case queued =>
    show Queued q.head q.next q.tail
      (((s.added ++ [(x, task)]).drop s.taken.length).map Prod.fst)
    rw [hpending, List.map_append]
    exact hq
  case one => exact h.one_of hcases
  case live =>
    intro o y task' ho
    rcases hcases o y task' ho with ⟨rfl, -, rfl⟩ | ⟨-, hold⟩
    · exact hkeeps _ _ _ (h.cleared u _ _ hu)
    · obtain ⟨nx, hnode⟩ := h.live o y task' hold
      exact hkeeps y nx task' hnode
  case cleared =>
    intro v y task' hv
    change Function.update s.poster u .outside v = .cleared y task' at hv
    rcases hposter v with ⟨rfl, he⟩ | ⟨hne, he⟩
    · rw [he] at hv
      cases hv
    · rw [he] at hv
      exact (hsame y (h.not_queued (Or.inr hv))).trans (h.cleared v y task' hv)

omit [DecidableEq ι] in
/-- The first task of the queue goes to a worker. -/
theorem Placed.pop (h : s.Placed) {rest : List (Nat × τ)} (hpending : s.pending = (x, task) :: rest)
    (hq : Queued q.head q.next q.tail (rest.map Prod.fst)) (hnode : q.node = s.queue.node) :
    Placed ({ s with queue := q, taken := s.taken ++ [w] }.moveTaker w
      (.holding x s.taken.length)) := by
  have howned : s.Owns .queue x task := by simp [Owns, hpending]
  have hnodup := h.queued.nodup
  rw [hpending, List.map_cons, List.nodup_cons] at hnodup
  have hfirst : s.added[s.taken.length]? = some (x, task) := by
    rw [← List.head?_drop]
    exact congrArg List.head? hpending
  have hrest : s.added.drop (s.taken ++ [w]).length = rest := by
    rw [List.length_append, List.length_singleton, ← List.drop_drop]
    exact congrArg (List.drop 1) hpending
  have hcases : ∀ o y task', Owns ({ s with queue := q, taken := s.taken ++ [w] }.moveTaker w
      (.holding x s.taken.length)) o y task' →
      (y = x ∧ o = .taker w ∧ task' = task) ∨ (y ≠ x ∧ s.Owns o y task') := by
    intro o y task' ho
    cases o with
    | queue =>
        change (y, task') ∈ s.added.drop (s.taken ++ [w]).length at ho
        rw [hrest] at ho
        refine Or.inr ⟨?_, ?_⟩
        -- an address is in the queue only once
        · exact fun he => hnodup.1 (List.mem_map.mpr ⟨(y, task'), ho, he⟩)
        · show (y, task') ∈ s.pending
          rw [hpending]
          exact List.mem_cons_of_mem _ ho
    | poster v => exact Or.inr ⟨h.ne_of_owner (.poster v) howned ho (by simp), ho⟩
    | taker v =>
        obtain ⟨n, hn, hv⟩ := ho
        rcases moveTaker_cases { s with queue := q, taken := s.taken ++ [w] } w
          (.holding x s.taken.length) v with ⟨rfl, he⟩ | ⟨-, he⟩
        · rw [he] at hv
          rcases hv with hv | hv
          -- the number of the new task is the number of tasks taken before
          · rw [Taker.holding.injEq] at hv
            change s.added[n]? = some (y, task') at hn
            rw [← hv.2, hfirst] at hn
            cases hn
            exact Or.inl ⟨rfl, rfl, rfl⟩
          · cases hv
        · rw [he] at hv
          have ho : s.Owns (.taker v) y task' := ⟨n, hn, hv⟩
          exact Or.inr ⟨h.ne_of_owner _ howned ho (by simp), ho⟩
  constructor
  case sound => exact h.sound
  case queued =>
    show Queued q.head q.next q.tail ((s.added.drop (s.taken ++ [w]).length).map Prod.fst)
    rw [hrest]
    exact hq
  case one => exact h.one_of hcases
  case live =>
    intro o y task' ho
    show ∃ nx, q.node y = some ⟨nx, task'⟩
    rw [hnode]
    rcases hcases o y task' ho with ⟨rfl, -, rfl⟩ | ⟨-, hold⟩
    · exact h.live _ _ _ howned
    · exact h.live o y task' hold
  case cleared =>
    intro v y task' hv
    show q.node y = some ⟨none, task'⟩
    rw [hnode]
    exact h.cleared v y task' hv

omit [DecidableEq ι] [DecidableEq κ] in
/-- Owners give tasks up, or keep them as they are. -/
theorem Placed.restrict (h : s.Placed) (hsound : t.faulted = s.faulted)
    (hpending : t.pending = s.pending) (hhead : t.queue.head = s.queue.head)
    (htail : t.queue.tail = s.queue.tail) (hposter : t.poster = s.poster)
    (howns : ∀ o y task, t.Owns o y task →
      s.Owns o y task ∧ t.queue.node y = s.queue.node y) : t.Placed where
  sound := by rw [hsound, h.sound]
  queued := by
    rw [hhead, htail, hpending]
    refine h.queued.congr fun y hy => ?_
    rw [← hpending] at hy
    obtain ⟨p, hp, rfl⟩ := List.mem_map.mp hy
    simp only [TaskQueue.next, (howns .queue p.1 p.2 hp).2]
  one o o' y task task' ho ho' :=
    h.one o o' y task task' (howns o y task ho).1 (howns o' y task' ho').1
  live o y task ho := by
    rw [(howns o y task ho).2]
    exact h.live o y task (howns o y task ho).1
  cleared v y task hv := by
    rw [(howns (.poster v) y task (Or.inr hv)).2]
    exact h.cleared v y task (hposter ▸ hv)

/-- A step keeps every owned task allocated and with one owner. -/
theorem Placed.moves (h : s.Placed) (hr : s.Recorded) (hmoves : s.Moves t) : t.Placed := by
  cases hmoves with
  | malloc u x junk task hu hx =>
      refine h.fill (fun o y task' ho _ => ?_) (Or.inl rfl)
      rintro rfl
      obtain ⟨nx, hnode⟩ := h.live o y task' ho
      rw [hx] at hnode
      cases hnode
  | clear u x task hu =>
      have howned : s.Owns (.poster u) x task := Or.inl hu
      exact h.fill (fun o y task' ho hne => h.ne_of_owner _ howned ho hne) (Or.inr ⟨rfl, rfl⟩)
  | add u x task q hu hq hkeeps hsame => exact h.add hr hu hq hkeeps hsame
  | nothing => exact h
  | pop w x task rest q hw hpending hq hnode => exact h.pop hpending hq hnode
  | load w x n task hw htask =>
      refine h.restrict rfl rfl rfl rfl rfl fun o y task' ho => ⟨?_, rfl⟩
      cases o with
      | queue => exact ho
      | poster v => exact ho
      | taker v =>
          obtain ⟨m, hm, hv⟩ := ho
          rcases moveTaker_cases s w (.loaded x n task) v with ⟨rfl, he⟩ | ⟨-, he⟩
          · rw [he] at hv
            rcases hv with hv | hv
            · cases hv
            · cases hv
              exact ⟨n, htask, Or.inl hw⟩
          · rw [he] at hv
            exact ⟨m, hm, hv⟩
  | free w x n task hw =>
      have howned : s.Owns (.taker w) x task := ⟨n, hr.loaded w x n task hw, Or.inr hw⟩
      refine h.restrict rfl rfl rfl rfl rfl fun o y task' ho => ?_
      have hold : s.Owns o y task' ∧ o ≠ .taker w := by
        cases o with
        | queue => exact ⟨ho, by simp⟩
        | poster v => exact ⟨ho, by simp⟩
        | taker v =>
            obtain ⟨m, hm, hv⟩ := ho
            rcases moveTaker_cases { s with
              queue := { s.queue with node := Function.update s.queue.node x none }
              freed := s.freed ++ [n] } w (.freed n task) v with ⟨rfl, he⟩ | ⟨hne, he⟩
            · rw [he] at hv
              rcases hv with hv | hv <;> cases hv
            · rw [he] at hv
              exact ⟨⟨m, hm, hv⟩, by simpa using hne⟩
      exact ⟨hold.1, Function.update_of_ne (h.ne_of_owner _ howned hold.1 hold.2) ..⟩
  | execute w n task hw =>
      refine h.restrict rfl rfl rfl rfl rfl fun o y task' ho => ⟨?_, rfl⟩
      cases o with
      | queue => exact ho
      | poster v => exact ho
      | taker v =>
          obtain ⟨m, hm, hv⟩ := ho
          rcases moveTaker_cases { s with executed := s.executed ++ [(n, task)] } w .idle v with
            ⟨rfl, he⟩ | ⟨-, he⟩
          · rw [he] at hv
            rcases hv with hv | hv <;> cases hv
          · rw [he] at hv
            exact ⟨m, hm, hv⟩

omit [DecidableEq ι] [DecidableEq κ] in
/-- No two workers have the same task. -/
theorem Recorded.number_unique (h : s.Recorded) (hv : (s.taker v).number = some n)
    (hw : (s.taker w).number = some n) : v = w := by
  have hv := h.handed v n hv
  rw [h.handed w n hw] at hv
  exact (Option.some.inj hv).symm

omit [DecidableEq κ] in
theorem Recorded.add (h : s.Recorded) (p : Nat × τ) :
    Recorded ({ s with queue := q, added := s.added ++ [p] }.movePoster u .outside) := by
  have hmore : ∀ {m : Nat} {e : Nat × τ}, s.added[m]? = some e → (s.added ++ [p])[m]? = some e := by
    intro m e hm
    rw [List.getElem?_append_left (List.getElem?_eq_some_iff.mp hm).1, hm]
  exact
    { taken_le := by
        show s.taken.length ≤ (s.added ++ [p]).length
        rw [List.length_append]
        exact Nat.le_add_right_of_le h.taken_le
      handed := h.handed
      holding := fun w x n hw => (h.holding w x n hw).imp fun _ => hmore
      loaded := fun w x n task hw => hmore (h.loaded w x n task hw)
      freed := fun w n task hw => (h.freed w n task hw).imp fun _ => hmore
      freed_nodup := h.freed_nodup
      freed_iff := h.freed_iff
      executed_nodup := h.executed_nodup
      executed_iff := h.executed_iff
      executed_task := fun e he => (h.executed_task e he).imp fun _ => hmore }

omit [DecidableEq ι] [DecidableEq κ] in
theorem Recorded.tracked (h : s.Recorded) (w : κ) : (s.taker w).Tracked s.added := by
  cases hw : s.taker w with
  | idle => trivial
  | holding x n => exact h.holding w x n hw
  | loaded x n task => exact h.loaded w x n task hw
  | freed n task => exact h.freed w n task hw

omit [DecidableEq ι] in
/-- A worker moves, and the tasks of all workers are those of the ledger. -/
theorem Recorded.tracked_move (h : s.Recorded) {p : Taker τ} (w : κ) (hp : p.Tracked s.added) :
    ∀ v, ((s.moveTaker w p).taker v).Tracked s.added := by
  apply (Function.forall_update_iff s.taker fun _ p => p.Tracked s.added).mpr
  exact ⟨hp, fun v _ => h.tracked v⟩

omit [DecidableEq ι] in
/-- A move between points without a freed task does not change who has freed one. -/
theorem freed_move_iff {p : Taker τ} (hw : ∀ m task', s.taker w ≠ .freed m task')
    (hp : ∀ m task', p ≠ .freed m task') (m : Nat) :
    (∀ v task', (s.moveTaker w p).taker v ≠ .freed m task') ↔
      ∀ v task', s.taker v ≠ .freed m task' := by
  refine forall_congr' fun v => forall_congr' fun task' => ?_
  rcases moveTaker_cases s w p v with ⟨rfl, he⟩ | ⟨-, he⟩
  · rw [he]
    exact iff_of_true (hp m task') (hw m task')
  · rw [he]

omit [DecidableEq ι] in
/-- The next task goes to a worker without one. -/
theorem Recorded.pop (h : s.Recorded) (hw : s.taker w = .idle)
    (hfirst : s.added[s.taken.length]? = some (x, task)) :
    Recorded ({ s with queue := q, taken := s.taken ++ [w] }.moveTaker w
      (.holding x s.taken.length)) := by
  have htaker := moveTaker_cases { s with queue := q, taken := s.taken ++ [w] } w
    (.holding x s.taken.length)
  have htracked := h.tracked_move w (p := .holding x s.taken.length) ⟨task, hfirst⟩
  constructor
  case taken_le =>
    change (s.taken ++ [w]).length ≤ s.added.length
    rw [List.length_append, List.length_singleton]
    exact (List.getElem?_eq_some_iff.mp hfirst).1
  case handed =>
    intro v n hv
    change (s.taken ++ [w])[n]? = some v
    rcases htaker v with ⟨rfl, he⟩ | ⟨-, he⟩
    · rw [he] at hv
      cases hv
      exact List.getElem?_concat_length ..
    · rw [he] at hv
      have hold := h.handed v n hv
      rw [List.getElem?_append_left (List.getElem?_eq_some_iff.mp hold).1, hold]
  case holding => exact fun v y n hv => (htracked v).of_holding hv
  case loaded => exact fun v y n task' hv => (htracked v).of_loaded hv
  case freed => exact fun v n task' hv => (htracked v).of_freed hv
  case freed_nodup => exact h.freed_nodup
  case freed_iff =>
    intro n
    change n ∈ s.freed ↔ n < (s.taken ++ [w]).length ∧ _
    rw [h.freed_iff n, List.length_append, List.length_singleton]
    constructor
    · rintro ⟨hlt, hno⟩
      refine ⟨by omega, fun v hv => ?_⟩
      rcases htaker v with ⟨rfl, he⟩ | ⟨-, he⟩
      · -- the number of the new task is larger than all numbers so far
        rw [he] at hv
        have := hv.number
        cases this
        exact lt_irrefl _ hlt
      · exact hno v (he ▸ hv)
    · rintro ⟨hlt, hno⟩
      have hne : n ≠ s.taken.length := by
        rintro rfl
        refine hno w (Or.inl ⟨x, ?_⟩)
        exact Function.update_self ..
      refine ⟨by omega, fun v hv => ?_⟩
      rcases htaker v with ⟨rfl, -⟩ | ⟨-, he⟩
      · rw [hw] at hv
        exact Taker.not_holds_idle hv
      · exact hno v (he.symm ▸ hv)
  case executed_nodup => exact h.executed_nodup
  case executed_iff =>
    intro n
    have hsame := freed_move_iff (s := s) (w := w) (p := .holding x s.taken.length) (by simp [hw])
      (by simp) n
    exact (h.executed_iff n).trans (and_congr_right fun _ => hsame.symm)
  case executed_task => exact h.executed_task

omit [DecidableEq ι] in
/-- A worker reads its task. -/
theorem Recorded.load (h : s.Recorded) (hw : s.taker w = .holding x n)
    (htask : s.added[n]? = some (x, task)) :
    Recorded (s.moveTaker w (.loaded x n task)) := by
  have htaker := moveTaker_cases s w (.loaded x n task)
  have htracked := h.tracked_move w (p := .loaded x n task) htask
  -- whose task it is does not change
  have hnumber : ∀ v, ((s.moveTaker w (.loaded x n task)).taker v).number =
      (s.taker v).number := by
    intro v
    rcases htaker v with ⟨rfl, he⟩ | ⟨-, he⟩
    · rw [he, hw]
      rfl
    · rw [he]
  have hholds : ∀ v m, ((s.moveTaker w (.loaded x n task)).taker v).Holds m ↔
      (s.taker v).Holds m := by
    intro v m
    rcases htaker v with ⟨rfl, he⟩ | ⟨-, he⟩
    · rw [he, hw]
      simp [Taker.Holds]
    · rw [he]
  constructor
  case taken_le => exact h.taken_le
  case handed => exact fun v m hv => h.handed v m ((hnumber v).symm.trans hv)
  case holding => exact fun v y m hv => (htracked v).of_holding hv
  case loaded => exact fun v y m task' hv => (htracked v).of_loaded hv
  case freed => exact fun v m task' hv => (htracked v).of_freed hv
  case freed_nodup => exact h.freed_nodup
  case freed_iff =>
    intro m
    simp only [hholds]
    exact h.freed_iff m
  case executed_nodup => exact h.executed_nodup
  case executed_iff =>
    intro m
    have hsame := freed_move_iff (s := s) (w := w) (p := .loaded x n task) (by simp [hw])
      (by simp) m
    exact (h.executed_iff m).trans (and_congr_right fun _ => hsame.symm)
  case executed_task => exact h.executed_task

omit [DecidableEq ι] in
/-- A worker frees its task, which it alone has. -/
theorem Recorded.free (h : s.Recorded) (hw : s.taker w = .loaded x n task) :
    Recorded ({ s with queue := q, freed := s.freed ++ [n] }.moveTaker w (.freed n task)) := by
  have htaker := moveTaker_cases { s with queue := q, freed := s.freed ++ [n] } w (.freed n task)
  have htracked := h.tracked_move w (p := .freed n task) ⟨x, h.loaded w x n task hw⟩
  have hholds : (s.taker w).Holds n := Or.inr ⟨x, task, hw⟩
  have hnew : n ∉ s.freed := fun hmem => ((h.freed_iff n).mp hmem).2 w hholds
  constructor
  case taken_le => exact h.taken_le
  case handed =>
    intro v m hv
    rcases htaker v with ⟨rfl, he⟩ | ⟨-, he⟩
    · rw [he] at hv
      exact h.handed v m (by rw [hw]; exact hv)
    · exact h.handed v m (he ▸ hv)
  case holding => exact fun v y m hv => (htracked v).of_holding hv
  case loaded => exact fun v y m task' hv => (htracked v).of_loaded hv
  case freed => exact fun v m task' hv => (htracked v).of_freed hv
  case freed_nodup =>
    have hconcat := h.freed_nodup.concat hnew
    rwa [List.concat_eq_append] at hconcat
  case freed_iff =>
    intro m
    change m ∈ s.freed ++ [n] ↔ m < s.taken.length ∧ _
    rw [List.mem_append, List.mem_singleton, h.freed_iff m]
    constructor
    · rintro (⟨hlt, hno⟩ | rfl)
      · refine ⟨hlt, fun v hv => ?_⟩
        rcases htaker v with ⟨rfl, he⟩ | ⟨-, he⟩
        · rw [he] at hv
          exact Taker.not_holds_freed hv
        · exact hno v (he ▸ hv)
      · refine ⟨(List.getElem?_eq_some_iff.mp (h.handed w m hholds.number)).1, fun v hv => ?_⟩
        rcases htaker v with ⟨rfl, he⟩ | ⟨hne, he⟩
        · rw [he] at hv
          exact Taker.not_holds_freed hv
        · -- no two workers have the same task
          rw [he] at hv
          exact hne (h.number_unique hv.number hholds.number)
    · rintro ⟨hlt, hno⟩
      rcases eq_or_ne m n with rfl | hmn
      · exact Or.inr rfl
      · refine Or.inl ⟨hlt, fun v hv => ?_⟩
        rcases htaker v with ⟨rfl, -⟩ | ⟨-, he⟩
        · have hm := hv.number
          rw [hholds.number] at hm
          exact hmn (Option.some.inj hm).symm
        · exact hno v (he.symm ▸ hv)
  case executed_nodup => exact h.executed_nodup
  case executed_iff =>
    intro m
    refine (h.executed_iff m).trans ?_
    change _ ↔ m ∈ s.freed ++ [n] ∧ _
    rw [List.mem_append, List.mem_singleton]
    constructor
    · rintro ⟨hmem, hno⟩
      refine ⟨Or.inl hmem, fun v task' hv => ?_⟩
      rcases htaker v with ⟨rfl, he⟩ | ⟨-, he⟩
      · rw [he] at hv
        cases hv
        exact hnew hmem
      · exact hno v task' (he ▸ hv)
    · rintro ⟨hmem | rfl, hno⟩
      · refine ⟨hmem, fun v task' hv => ?_⟩
        rcases htaker v with ⟨rfl, -⟩ | ⟨-, he⟩
        · rw [hw] at hv
          cases hv
        · exact hno v task' (he.trans hv)
      · exact absurd (Function.update_self ..) (hno w task)
  case executed_task => exact h.executed_task

omit [DecidableEq ι] in
/-- A worker executes the task that it has freed. -/
theorem Recorded.execute (h : s.Recorded) (hw : s.taker w = .freed n task) :
    Recorded ({ s with executed := s.executed ++ [(n, task)] }.moveTaker w .idle) := by
  have htaker := moveTaker_cases { s with executed := s.executed ++ [(n, task)] } w .idle
  have htracked := h.tracked_move w (p := .idle) trivial
  have hnumber : (s.taker w).number = some n := by rw [hw]; rfl
  have hnew : n ∉ s.executed.map Prod.fst := fun hmem => ((h.executed_iff n).mp hmem).2 w task hw
  have hother : ∀ v m, ((({ s with
      executed := s.executed ++ [(n, task)] } : TaskPool ι κ τ).moveTaker w .idle).taker v).number =
        some m → v ≠ w ∧ (s.taker v).number = some m := by
    intro v m hv
    rcases htaker v with ⟨-, he⟩ | ⟨hne, he⟩
    · rw [he] at hv
      cases hv
    · exact ⟨hne, he ▸ hv⟩
  constructor
  case taken_le => exact h.taken_le
  case handed => exact fun v m hv => h.handed v m (hother v m hv).2
  case holding => exact fun v y m hv => (htracked v).of_holding hv
  case loaded => exact fun v y m task' hv => (htracked v).of_loaded hv
  case freed => exact fun v m task' hv => (htracked v).of_freed hv
  case freed_nodup => exact h.freed_nodup
  case freed_iff =>
    intro m
    refine (h.freed_iff m).trans ?_
    refine and_congr_right fun _ => forall_congr' fun v => not_congr ?_
    rcases htaker v with ⟨rfl, he⟩ | ⟨-, he⟩
    · rw [he, hw]
      exact iff_of_false Taker.not_holds_freed Taker.not_holds_idle
    · rw [he]
  case executed_nodup =>
    have hconcat := h.executed_nodup.concat hnew
    rw [List.concat_eq_append] at hconcat
    change ((s.executed ++ [(n, task)]).map Prod.fst).Nodup
    rwa [List.map_append]
  case executed_iff =>
    intro m
    change m ∈ (s.executed ++ [(n, task)]).map Prod.fst ↔ m ∈ s.freed ∧ _
    rw [List.map_append, List.mem_append, h.executed_iff m]
    change _ ∨ m ∈ [n] ↔ _
    rw [List.mem_singleton]
    constructor
    · rintro (⟨hmem, hno⟩ | rfl)
      · refine ⟨hmem, fun v task' hv => ?_⟩
        rcases htaker v with ⟨rfl, he⟩ | ⟨-, he⟩
        · rw [he] at hv
          cases hv
        · exact hno v task' (he ▸ hv)
      · -- the task was freed by `w`, and only `w` had it
        refine ⟨(h.freed_iff m).mpr ⟨?_, fun v hv => ?_⟩, fun v task' hv => ?_⟩
        · exact (List.getElem?_eq_some_iff.mp (h.handed w m hnumber)).1
        · have hvw := h.number_unique hv.number hnumber
          subst hvw
          rw [hw] at hv
          exact Taker.not_holds_freed hv
        · obtain ⟨hne, hnum⟩ := hother v m (by rw [hv]; rfl)
          exact hne (h.number_unique hnum hnumber)
    · rintro ⟨hmem, hno⟩
      rcases eq_or_ne m n with rfl | hmn
      · exact Or.inr rfl
      · refine Or.inl ⟨hmem, fun v task' hv => ?_⟩
        rcases htaker v with ⟨rfl, -⟩ | ⟨-, he⟩
        · rw [hw] at hv
          cases hv
          exact hmn rfl
        · exact hno v task' (he.trans hv)
  case executed_task =>
    intro p hp
    rcases List.mem_append.mp hp with hold | hlast
    · exact h.executed_task p hold
    · rw [List.mem_singleton.mp hlast]
      exact h.freed w n task hw

theorem Recorded.moves (hr : s.Recorded) (hmoves : s.Moves t) : t.Recorded := by
  cases hmoves with
  | malloc u x junk task hu hx =>
      exact ⟨hr.1, hr.2, hr.3, hr.4, hr.5, hr.6, hr.7, hr.8, hr.9, hr.10⟩
  | clear u x task hu => exact ⟨hr.1, hr.2, hr.3, hr.4, hr.5, hr.6, hr.7, hr.8, hr.9, hr.10⟩
  | add u x task q hu hq hkeeps hsame => exact hr.add (x, task)
  | nothing => exact hr
  | pop w x task rest q hw hpending hq hnode =>
      have hfirst : s.added[s.taken.length]? = some (x, task) := by
        rw [← List.head?_drop]
        exact congrArg List.head? hpending
      exact hr.pop hw hfirst
  | load w x n task hw htask => exact hr.load hw htask
  | free w x n task hw => exact hr.free hw
  | execute w n task hw => exact hr.execute hw

omit [DecidableEq ι] [DecidableEq κ] in
theorem Placed.fifo (h : s.Placed) (hr : s.Recorded) : s.Fifo where
  sound := h.sound
  chain := h.queued.follows
  tail := h.queued.tail
  tasks p hp := h.live .queue p.1 p.2 hp
  taken_le := hr.taken_le
  handed := hr.handed
  held := hr.holding
  freed_once n := List.nodup_iff_count_le_one.mp hr.freed_nodup n
  freed_iff := hr.freed_iff
  executed_once n := List.nodup_iff_count_le_one.mp hr.executed_nodup n
  executed_iff := hr.executed_iff
  executed_task := hr.executed_task

/-- For any number of posting threads and workers and every interleaving, with every address that
`malloc` may hand out: the queue is a chain of the tasks added and not yet taken, in their order, and
every task is taken, freed and executed at most once, by one worker. -/
theorem queue_fifo {l : List (TaskEvent ι κ τ)} (hrun : runEvents step create l = some t) :
    t.Fifo := by
  have hinv : t.Placed ∧ t.Recorded := by
    refine invariant (I := fun s : TaskPool ι κ τ => s.Placed ∧ s.Recorded) ?_
      ⟨placed_create, recorded_create⟩ hrun
    rintro s e u ⟨h, hr⟩ hstep
    have hmoves := Moves.of_step h hr hstep
    exact ⟨h.moves hr hmoves, hr.moves hmoves⟩
  exact hinv.1.fifo hinv.2

/-- Two tasks are posted, the first is taken and freed, and its address is used for a third one. -/
theorem queue_fifo_address_again : ∃ t : TaskPool (Fin 2) (Fin 1) Nat,
    runEvents step create [.malloc 0 8 none 70, .clear 0, .add 0, .malloc 1 9 (some 8) 71, .clear 1,
      .add 1, .pop 0, .load 0, .free 0, .malloc 0 8 (some 9) 72, .clear 0, .add 0, .execute 0] =
        some t ∧ t.pending = [(9, 71), (8, 72)] ∧ t.queue.head = some 9 ∧
      t.queue.tail = .next 8 ∧ t.executed = [(0, 70)] ∧ t.Fifo := by
  have hall : ∀ t : TaskPool (Fin 2) (Fin 1) Nat,
      runEvents step create [.malloc 0 8 none 70, .clear 0, .add 0, .malloc 1 9 (some 8) 71,
        .clear 1, .add 1, .pop 0, .load 0, .free 0, .malloc 0 8 (some 9) 72, .clear 0, .add 0,
        .execute 0] = some t → t.Fifo := fun t hrun => queue_fifo hrun
  exact ⟨_, rfl, rfl, rfl, rfl, rfl, hall _ rfl⟩

end Runs

end TaskPool

end CLanguageLearning.ThreadPool
