import CLanguageLearning.ThreadPool.Spinlock
import CLanguageLearning.ThreadPool.TaskQueue

/-!
# The queue of the thread pool under the spinlock itself

`TaskPool` takes the critical sections of `__add_task` and `__pop_task` as single steps. Here every
load and every store of them is a step, the lock is the word of `spinlock.h`, and the other threads go
on between any two steps: they allocate, clear, read, free and execute tasks, and spin. What is
reached is what the pool with whole sections reaches (`sections_fifo`).
-/

set_option autoImplicit false

namespace CLanguageLearning.ThreadPool

open CLanguageLearning.Foundation

/-- Where a thread is between `spinlock_lock` and `spinlock_unlock`, with its registers. -/
inductive QueuePoint where
  /-- In `__add_task` with the link at `x`, before `task_queue->tail` is loaded. -/
  | addTail (x : Nat)
  /-- Before `*tail = link`. -/
  | addLink (x : Nat) (tail : Slot Nat)
  /-- Before `task_queue->tail = link`. -/
  | addStore (x : Nat)
  | addDone (x : Nat)
  /-- In `__pop_task`, before the test of `task_queue->head`. -/
  | popTest
  /-- Before `task = task_queue->head`. -/
  | popTask
  /-- Before `task->next` is loaded. -/
  | popNext (task : Option Nat)
  /-- Before `task_queue->head` is stored. -/
  | popHead (task : Nat) (next : Option Nat)
  /-- Before the second test of `task_queue->head`. -/
  | popTestHead (task : Nat)
  /-- Before `task_queue->tail = &task_queue->head`. -/
  | popTail (task : Nat)
  | popDone (task : Option Nat)
  deriving DecidableEq, Repr

namespace QueuePoint

variable {τ : Type}

/-- The thread is before `spinlock_unlock`. -/
def Done : QueuePoint → Prop
  | addDone _ => True
  | popDone _ => True
  | _ => False

/-- One load or store. -/
def step : QueuePoint → Exec (TaskQueue τ) QueuePoint
  | addTail x => do
      let q ← get
      return addLink x q.tail
  | addLink x tail => do
      TaskQueue.storeLink tail (some x)
      return addStore x
  | addStore x => do
      modify fun q => { q with tail := .next x }
      return addDone x
  | popTest => do
      let q ← get
      return if q.head = none then popDone none else popTask
  | popTask => do
      let q ← get
      return popNext q.head
  | popNext none => throw .undefined
  | popNext (some x) => do
      let n ← TaskQueue.loadTask x
      return popHead x n.next
  | popHead x next => do
      modify fun q => { q with head := next }
      return popTestHead x
  | popTestHead x => do
      let q ← get
      return if q.head = none then popTail x else popDone (some x)
  | popTail x => do
      modify fun q => { q with tail := .head }
      return popDone (some x)
  | addDone x => return addDone x
  | popDone x => return popDone x

/-- How far a section has come that began at `start` with the queue `q`. -/
inductive Reached (q : TaskQueue τ) : QueuePoint → QueuePoint → TaskQueue τ → Prop
  | addTail (x : Nat) : Reached q (addTail x) (addTail x) q
  | addLink (x : Nat) : Reached q (addTail x) (addLink x q.tail) q
  | addStore (x : Nat) (q' : TaskQueue τ)
      (h : (TaskQueue.storeLink q.tail (some x)).run q = .ok ((), q')) :
      Reached q (addTail x) (addStore x) q'
  | addDone (x : Nat) (q' : TaskQueue τ)
      (h : (TaskQueue.storeLink q.tail (some x)).run q = .ok ((), q')) :
      Reached q (addTail x) (addDone x) { q' with tail := .next x }
  | popTest : Reached q popTest popTest q
  | popNone (h : q.head = none) : Reached q popTest (popDone none) q
  | popTask (x : Nat) (h : q.head = some x) : Reached q popTest popTask q
  | popNext (x : Nat) (h : q.head = some x) : Reached q popTest (popNext (some x)) q
  | popHead (x : Nat) (n : TaskNode τ) (h : q.head = some x) (hnode : q.node x = some n) :
      Reached q popTest (popHead x n.next) q
  | popTestHead (x : Nat) (n : TaskNode τ) (h : q.head = some x) (hnode : q.node x = some n) :
      Reached q popTest (popTestHead x) { q with head := n.next }
  | popTail (x : Nat) (n : TaskNode τ) (h : q.head = some x) (hnode : q.node x = some n)
      (hnext : n.next = none) : Reached q popTest (popTail x) { q with head := n.next }
  | popSome (x : Nat) (n : TaskNode τ) (h : q.head = some x) (hnode : q.node x = some n) :
      Reached q popTest (popDone (some x))
        { q with head := n.next, tail := if n.next = none then .head else q.tail }

end QueuePoint

namespace TaskQueue

variable {τ : Type}

/-- What a thread outside of its section can do to the tasks. -/
def setNode (q : TaskQueue τ) (x : Nat) (m : Option (TaskNode τ)) : TaskQueue τ :=
  { q with node := Function.update q.node x m }

variable {q q' : TaskQueue τ} {x y : Nat} {m : Option (TaskNode τ)} {l : List Nat}

@[simp] theorem setNode_head (q : TaskQueue τ) (x : Nat) (m : Option (TaskNode τ)) :
    (q.setNode x m).head = q.head := rfl

@[simp] theorem setNode_tail (q : TaskQueue τ) (x : Nat) (m : Option (TaskNode τ)) :
    (q.setNode x m).tail = q.tail := rfl

theorem setNode_of_ne (h : y ≠ x) (q : TaskQueue τ) (m : Option (TaskNode τ)) :
    (q.setNode x m).node y = q.node y :=
  Function.update_of_ne h ..

theorem setNode_self (h : q.node x = m) : q.setNode x m = q := by
  rw [setNode, ← h, Function.update_eq_self]

theorem loadTask_run_iff {n : TaskNode τ} :
    (loadTask x).run q = .ok (n, q') ↔ q.node x = some n ∧ q' = q := by
  cases hx : q.node x with
  | none => simp [loadTask, hx]
  | some n' => simp [loadTask, hx, eq_comm]

/-- A load of another task. -/
theorem loadTask_setNode {n : TaskNode τ} (hx : y ≠ x) (h : (loadTask y).run q = .ok (n, q')) :
    (loadTask y).run (q.setNode x m) = .ok (n, q'.setNode x m) := by
  obtain ⟨hnode, rfl⟩ := loadTask_run_iff.mp h
  exact loadTask_run ((setNode_of_ne hx _ m).trans hnode)

/-- A store to another link. -/
theorem storeLink_setNode {link : Slot Nat} {v : Option Nat} (hx : link ≠ .next x)
    (h : (storeLink link v).run q = .ok ((), q')) :
    (storeLink link v).run (q.setNode x m) = .ok ((), q'.setNode x m) := by
  cases link with
  | head =>
      cases h
      rfl
  | next y =>
      have hne : y ≠ x := fun hyx => hx (by rw [hyx])
      cases hy : q.node y with
      | none => simp [storeLink, loadTask, hy] at h
      | some n =>
          rw [storeLink_run_next hy] at h
          cases h
          have hset : (q.setNode x m).node y = some n := (setNode_of_ne hne q m).trans hy
          rw [storeLink_run_next hset]
          simp only [setNode, Function.update_comm hne]

theorem storeLink_live {link : Slot Nat} {v : Option Nat}
    (h : (storeLink link v).run q = .ok ((), q')) (hy : ∃ n, q.node y = some n) :
    ∃ n, q'.node y = some n := by
  cases link with
  | head =>
      cases h
      exact hy
  | next a =>
      cases hnode : q.node a with
      | none => simp [storeLink, loadTask, hnode] at h
      | some n =>
          rw [storeLink_run_next hnode] at h
          cases h
          rcases eq_or_ne y a with rfl | hne
          · exact ⟨_, Function.update_self ..⟩
          · obtain ⟨m, hm⟩ := hy
            exact ⟨m, (Function.update_of_ne hne ..).trans hm⟩

/-- A store to a link leaves the tasks alone that are not in the queue. -/
theorem storeLink_node (hq : Queued q.head q.next q.tail l) (hy : y ∉ l) {v : Option Nat}
    (h : (storeLink q.tail v).run q = .ok ((), q')) : q'.node y = q.node y := by
  cases htail : q.tail with
  | head =>
      rw [htail] at h
      cases h
      rfl
  | next a =>
      have ha := mem_of_lastSlot (hq.tail.symm.trans htail)
      rw [htail] at h
      cases hnode : q.node a with
      | none => simp [storeLink, loadTask, hnode] at h
      | some n =>
          rw [storeLink_run_next hnode] at h
          cases h
          have hne : y ≠ a := fun he => hy (he ▸ ha)
          exact Function.update_of_ne hne ..

/-- The last link of a queue can be written. -/
theorem storeLink_tail (hq : Queued q.head q.next q.tail l)
    (hlive : ∀ y ∈ l, ∃ n, q.node y = some n) (v : Option Nat) :
    ∃ q', (storeLink q.tail v).run q = .ok ((), q') := by
  cases htail : q.tail with
  | head => exact ⟨_, storeLink_run_head q v⟩
  | next a =>
      obtain ⟨n, hn⟩ := hlive a (mem_of_lastSlot (hq.tail.symm.trans htail))
      exact ⟨_, storeLink_run_next hn v⟩

end TaskQueue

namespace QueuePoint.Reached

variable {τ : Type} {q q' q'' : TaskQueue τ} {start p p' : QueuePoint} {l : List Nat} {x : Nat}

/-- Every step of a section has a meaning. -/
theorem step (hq : Queued q.head q.next q.tail l) (hlive : ∀ y ∈ l, ∃ n, q.node y = some n)
    (h : Reached q start p q') :
    ∃ p' q'', p.step.run q' = .ok (p', q'') ∧ Reached q start p' q'' := by
  cases h with
  | addTail x => exact ⟨_, _, rfl, .addLink x⟩
  | addLink x =>
      obtain ⟨q', hstore⟩ := TaskQueue.storeLink_tail hq hlive (some x)
      exact ⟨_, _, by simp [QueuePoint.step, hstore], .addStore x q' hstore⟩
  | addStore x q' hstore => exact ⟨_, _, rfl, .addDone x q' hstore⟩
  | addDone x q' hstore => exact ⟨_, _, rfl, .addDone x q' hstore⟩
  | popTest =>
      cases hhead : q.head with
      | none => exact ⟨_, _, by simp [QueuePoint.step, hhead], .popNone hhead⟩
      | some x => exact ⟨_, _, by simp [QueuePoint.step, hhead], .popTask x hhead⟩
  | popNone hhead => exact ⟨_, _, rfl, .popNone hhead⟩
  | popTask x hhead => exact ⟨_, _, by simp [QueuePoint.step, hhead], .popNext x hhead⟩
  | popNext x hhead =>
      obtain ⟨n, hn⟩ := hlive x (List.mem_of_mem_head? (hq.follows.head.symm.trans hhead))
      have hload := TaskQueue.loadTask_run hn
      exact ⟨_, _, by simp [QueuePoint.step, hload], .popHead x n hhead hn⟩
  | popHead x n hhead hn => exact ⟨_, _, rfl, .popTestHead x n hhead hn⟩
  | popTestHead x n hhead hn =>
      cases hnext : n.next with
      | none =>
          have htail := Reached.popTail x n hhead hn hnext
          rw [hnext] at htail
          exact ⟨_, _, rfl, htail⟩
      | some y =>
          have hsome := Reached.popSome x n hhead hn
          simp only [hnext, reduceCtorEq, if_false] at hsome
          exact ⟨_, _, rfl, hsome⟩
  | popTail x n hhead hn hnext =>
      have hsome := Reached.popSome x n hhead hn
      rw [if_pos hnext] at hsome
      exact ⟨_, _, rfl, hsome⟩
  | popSome x n hhead hn => exact ⟨_, _, rfl, .popSome x n hhead hn⟩

/-- A section leaves the tasks alone that are not in the queue. -/
theorem node_eq (hq : Queued q.head q.next q.tail l) (hx : x ∉ l) (h : Reached q start p q') :
    q'.node x = q.node x := by
  cases h with
  | addStore y q' hstore => exact TaskQueue.storeLink_node hq hx hstore
  | addDone y q' hstore =>
      have hnode := TaskQueue.storeLink_node hq hx hstore
      exact hnode
  | _ => rfl

/-- A section leaves the tasks of the queue allocated. -/
theorem live (h : Reached q start p q')
    (hx : ∃ n, q.node x = some n) : ∃ n, q'.node x = some n := by
  cases h with
  | addStore y q' hstore => exact TaskQueue.storeLink_live hstore hx
  | addDone y q' hstore =>
      have hlive := TaskQueue.storeLink_live hstore hx
      exact hlive
  | _ => exact hx

/-- A step of a section does not depend on a task that is not in the queue. -/
theorem step_setNode (hq : Queued q.head q.next q.tail l) (hx : x ∉ l) (h : Reached q start p q')
    (hstep : p.step.run q' = .ok (p', q'')) (m : Option (TaskNode τ)) :
    p.step.run (q'.setNode x m) = .ok (p', q''.setNode x m) := by
  cases h with
  | addLink y =>
      have hne : q.tail ≠ .next x := fun htail => hx (mem_of_lastSlot (hq.tail.symm.trans htail))
      obtain ⟨u, q₁, hstore, hrest⟩ := run_bind_eq_ok hstep
      cases hrest
      rw [QueuePoint.step, run_bind_of_ok (TaskQueue.storeLink_setNode hne hstore)]
      rfl
  | popNext y hhead =>
      have hne : y ≠ x := by
        rintro rfl
        exact hx (List.mem_of_mem_head? (hq.follows.head.symm.trans hhead))
      obtain ⟨n, q₁, hload, hrest⟩ := run_bind_eq_ok hstep
      cases hrest
      rw [QueuePoint.step, run_bind_of_ok (TaskQueue.loadTask_setNode hne hload)]
      rfl
  | _ =>
      cases hstep
      rfl

/-- A section of `__add_task` that is done has done `add_task`. -/
theorem add_task_run (h : Reached q (.addTail x) p q') (hdone : p.Done) :
    p = .addDone x ∧ (TaskQueue.add_task x).run q = .ok ((), q') := by
  cases h with
  | addDone x q' hstore =>
      refine ⟨rfl, ?_⟩
      simp [TaskQueue.add_task, hstore]
  | _ => cases hdone

/-- A section of `__pop_task` that is done has done `pop_task`. -/
theorem pop_task_run (h : Reached q .popTest p q') (hdone : p.Done) :
    ∃ task, p = .popDone task ∧ TaskQueue.pop_task.run q = .ok (task, q') := by
  cases h with
  | popNone hhead => exact ⟨none, rfl, by simp [TaskQueue.pop_task, hhead]⟩
  | popSome x n hhead hn =>
      have hload := TaskQueue.loadTask_run hn
      refine ⟨some x, rfl, ?_⟩
      cases hnext : n.next <;> simp [TaskQueue.pop_task, hhead, hload, hnext]
  | _ => cases hdone

end QueuePoint.Reached

namespace TaskPool

variable {ι κ τ : Type} [DecidableEq ι] [DecidableEq κ]

/-- The first point in the section of a thread that is about to ask for the lock. -/
def begins (s : TaskPool ι κ τ) : ι ⊕ κ → Option QueuePoint
  | .inl u =>
      match s.poster u with
      | .cleared x _ => some (.addTail x)
      | _ => none
  | .inr w =>
      match s.taker w with
      | .idle => some .popTest
      | _ => none

/-- A step of a thread that is not in a section. -/
def outside (s : TaskPool ι κ τ) (e : TaskEvent ι κ τ) : Option (TaskPool ι κ τ) :=
  match e with
  | .add _ => none
  | .pop _ => none
  | e => s.step e

/-- A thread gives the lock up; a task that was added is entered in the ledger now. -/
def unlock (s : TaskPool ι κ τ) (k : ι ⊕ κ) (p : QueuePoint) : Option (TaskPool ι κ τ) :=
  match k, p with
  | .inl u, .addDone _ =>
      match s.poster u with
      | .cleared x task => some ({ s with added := s.added ++ [(x, task)] }.movePoster u .outside)
      | _ => none
  | .inr w, .popDone task => some (s.popped w task)
  | _, _ => none

/-- The same threads with another queue. -/
def withQueue (s : TaskPool ι κ τ) (q : TaskQueue τ) : TaskPool ι κ τ := { s with queue := q }

/-- The pool with the loads and stores of its critical sections. -/
def sections : LockedCode (TaskPool ι κ τ) (TaskEvent ι κ τ) (ι ⊕ κ) QueuePoint where
  outside := outside
  enter k s := s.begins k
  micro _ p s :=
    if s.faulted then none
    else
      match p.step.run s.queue with
      | .ok (p', q) => some (p', s.withQueue q)
      | .error _ => some (p, { s with faulted := true })
  leave k p s := s.unlock k p

variable {c s t : TaskPool ι κ τ} {e : TaskEvent ι κ τ} {k : ι ⊕ κ} {start p p' : QueuePoint}
  {q : TaskQueue τ} {n x : Nat} {task : τ}

omit [DecidableEq ι] [DecidableEq κ] in
@[simp] theorem withQueue_queue (s : TaskPool ι κ τ) (q : TaskQueue τ) :
    (s.withQueue q).queue = q := rfl

omit [DecidableEq ι] [DecidableEq κ] in
@[simp] theorem withQueue_poster (s : TaskPool ι κ τ) (q : TaskQueue τ) :
    (s.withQueue q).poster = s.poster := rfl

omit [DecidableEq ι] [DecidableEq κ] in
@[simp] theorem withQueue_taker (s : TaskPool ι κ τ) (q : TaskQueue τ) :
    (s.withQueue q).taker = s.taker := rfl

omit [DecidableEq ι] [DecidableEq κ] in
@[simp] theorem withQueue_withQueue (s : TaskPool ι κ τ) (q q' : TaskQueue τ) :
    (s.withQueue q).withQueue q' = s.withQueue q' := rfl

omit [DecidableEq ι] [DecidableEq κ] in
@[simp] theorem withQueue_faulted (s : TaskPool ι κ τ) (q : TaskQueue τ) :
    (s.withQueue q).faulted = s.faulted := rfl

/-- The address of the task that a thread works on outside of its section; an execution works on
none. -/
structure Local (s t : TaskPool ι κ τ) (e : TaskEvent ι κ τ) (x : Nat) : Prop where
  /-- The step changes nothing of the queue but this task. -/
  queue : t.queue = s.queue.setNode x (t.queue.node x)
  /-- The step is the same with any queue that has the same task there. -/
  same : ∀ q, q.node x = s.queue.node x →
    outside (s.withQueue q) e = some (t.withQueue (q.setNode x (t.queue.node x)))
  begins : ∀ k start, s.begins k = some start → t.begins k = some start
  sound : t.faulted = false

omit [DecidableEq ι] [DecidableEq κ] in
theorem begins_eq_some (h : s.begins k = some start) :
    (∃ u x task, k = .inl u ∧ s.poster u = .cleared x task ∧ start = .addTail x) ∨
      ∃ w, k = .inr w ∧ s.taker w = .idle ∧ start = .popTest := by
  cases k with
  | inl u =>
      rw [begins] at h
      split at h
      · next x task hu =>
          cases h
          exact Or.inl ⟨u, x, task, rfl, hu, rfl⟩
      · cases h
  | inr w =>
      rw [begins] at h
      split at h
      · next hw =>
          cases h
          exact Or.inr ⟨w, rfl, hw, rfl⟩
      · cases h

theorem sections_micro (h : s.faulted = false) (hstep : p.step.run s.queue = .ok (p', q)) :
    sections.micro k p s = some (p', s.withQueue q) := by
  simp [sections, h, hstep]

/-- The first steps of a section only work on the queue. -/
theorem part_reached (h : c.Placed) (hpart : sections.part k n c = some (p, s)) :
    ∃ start q, c.begins k = some start ∧ s = c.withQueue q ∧
      QueuePoint.Reached c.queue start p q := by
  induction n generalizing p s with
  | zero =>
      obtain ⟨start, hstart, he⟩ := Option.map_eq_some_iff.mp hpart
      cases he
      refine ⟨_, c.queue, hstart, rfl, ?_⟩
      rcases begins_eq_some hstart with ⟨u, x, task, -, -, rfl⟩ | ⟨w, -, -, rfl⟩
      · exact .addTail x
      · exact .popTest
  | succ n ih =>
      obtain ⟨⟨p₀, s₀⟩, hpart₀, hmicro⟩ := Option.bind_eq_some_iff.mp hpart
      obtain ⟨start, q, hstart, rfl, hreached⟩ := ih hpart₀
      obtain ⟨p', q', hstep, hreached'⟩ := hreached.step h.queued (fun y hy => h.queue_live hy)
      have hmicro' := sections_micro (k := k) (s := c.withQueue q) h.sound hstep
      rw [hmicro'] at hmicro
      cases hmicro
      exact ⟨start, q', hstart, rfl, hreached'⟩

omit [DecidableEq ι] [DecidableEq κ] in
/-- The task of a thread is not in the queue. -/
theorem Placed.not_pending (h : c.Placed) {o : Owner ι κ} (ho : c.Owns o x task)
    (hne : o ≠ .queue) : x ∉ c.pending.map Prod.fst := by
  intro hmem
  obtain ⟨⟨y, task'⟩, hp, rfl⟩ := List.mem_map.mp hmem
  exact hne (h.one _ _ _ _ _ ho (show c.Owns .queue y task' from hp))

/-- A step that is one operation on the task at `x`. -/
theorem Local.of_call {α : Type} (op : Exec (TaskQueue τ) α)
    (next : TaskPool ι κ τ → α → TaskPool ι κ τ) (a : α) (m : Option (TaskNode τ))
    (houtside : ∀ q, q.node x = s.queue.node x →
      outside (s.withQueue q) e = some ((s.withQueue q).call op next))
    (hop : ∀ q, q.node x = s.queue.node x → op.run q = .ok (a, q.setNode x m))
    (hnext : ∀ q, next (s.withQueue q) a = (next s a).withQueue q)
    (hbegins : ∀ k start, s.begins k = some start → (next s a).begins k = some start)
    (hsound : (next s a).faulted = false) (hstep : outside s e = some t) : Local s t e x := by
  have hall : ∀ q, q.node x = s.queue.node x →
      outside (s.withQueue q) e = some ((next s a).withQueue (q.setNode x m)) := by
    intro q hq
    rw [houtside q hq, call_ok (hop q hq)]
    exact congrArg some (hnext _)
  have ht : t = (next s a).withQueue (s.queue.setNode x m) := by
    have hs := hall s.queue rfl
    exact Option.some.inj (hstep.symm.trans hs)
  have hm : t.queue.node x = m := by
    rw [ht]
    exact Function.update_self ..
  constructor
  case queue => rw [hm, ht, withQueue_queue]
  case same =>
    intro q hq
    rw [hall q hq, hm, ht, withQueue_withQueue]
  case begins =>
    rw [ht]
    exact hbegins
  case sound =>
    rw [ht]
    exact hsound

omit [DecidableEq κ] in
/-- A poster that was not before the lock, and is not in its section, moves. -/
theorem begins_movePoster {u : ι} {m : Poster τ} (hu : ∀ x task, s.poster u ≠ .cleared x task)
    (k : ι ⊕ κ) (start : QueuePoint) (h : s.begins k = some start) :
    (s.movePoster u m).begins k = some start := by
  rcases begins_eq_some h with ⟨v, x, task, rfl, hv, rfl⟩ | ⟨w, rfl, hw, rfl⟩
  · have hne : v ≠ u := by
      rintro rfl
      exact hu x task hv
    have hsame : (s.movePoster u m).poster v = .cleared x task :=
      (Function.update_of_ne hne ..).trans hv
    simp [begins, hsame]
  · have hsame : (s.movePoster u m).taker w = .idle := hw
    simp [begins, hsame]

omit [DecidableEq ι] in
/-- A worker that has a task moves. -/
theorem begins_moveTaker {w : κ} {m : Taker τ} (hw : s.taker w ≠ .idle) (k : ι ⊕ κ)
    (start : QueuePoint) (h : s.begins k = some start) :
    (s.moveTaker w m).begins k = some start := by
  rcases begins_eq_some h with ⟨u, x, task, rfl, hu, rfl⟩ | ⟨v, rfl, hv, rfl⟩
  · have hsame : (s.moveTaker w m).poster u = .cleared x task := hu
    simp [begins, hsame]
  · have hne : v ≠ w := by
      rintro rfl
      exact hw hv
    have hsame : (s.moveTaker w m).taker v = .idle := (Function.update_of_ne hne ..).trans hv
    simp [begins, hsame]

/-- A step outside of the sections works on one task, which is not in the queue. -/
theorem outside_local (h : c.Placed) (hr : c.Recorded)
    (hreached : QueuePoint.Reached c.queue start p q)
    (hstep : outside (c.withQueue q) e = some t) :
    ∃ x, x ∉ c.pending.map Prod.fst ∧ Local (c.withQueue q) t e x := by
  have hnode : ∀ x, x ∉ c.pending.map Prod.fst → q.node x = c.queue.node x :=
    fun x hx => hreached.node_eq h.queued hx
  have hfaulted : ¬(c.withQueue q).faulted := by simp [h.sound]
  cases e with
  | add u => cases hstep
  | pop w => cases hstep
  | malloc u x junk task =>
      have hstep' : (c.withQueue q).step (.malloc u x junk task) = some t := hstep
      rw [step.eq_def, if_neg hfaulted] at hstep'
      dsimp only at hstep'
      split at hstep'
      · next hu hx =>
          rw [withQueue_poster] at hu
          rw [withQueue_queue] at hx
          have hnew : x ∉ c.pending.map Prod.fst := by
            intro hmem
            obtain ⟨n, hn⟩ := hreached.live (h.queue_live hmem)
            rw [hx] at hn
            cases hn
          refine ⟨x, hnew, Local.of_call (TaskQueue.allocTask x junk task)
            (fun s _ => s.movePoster u (.filled x task)) () (some ⟨junk, task⟩)
            (fun q' hq' => ?_) (fun q' hq' => rfl) (fun q' => rfl)
            (begins_movePoster (by simp [hu])) h.sound hstep⟩
          have hx' : q'.node x = none := hq'.trans hx
          simp [outside, step, h.sound, hu, hx']
      · cases hstep'
  | clear u =>
      have hstep' : (c.withQueue q).step (.clear u) = some t := hstep
      rw [step.eq_def, if_neg hfaulted] at hstep'
      dsimp only at hstep'
      split at hstep'
      · next x task hu =>
          rw [withQueue_poster] at hu
          have hout := h.not_pending (o := .poster u) (Or.inl hu) (by simp)
          obtain ⟨nx, hx⟩ := h.live (.poster u) x task (Or.inl hu)
          refine ⟨x, hout, Local.of_call (TaskQueue.storeLink (.next x) none)
            (fun s _ => s.movePoster u (.cleared x task)) () (some ⟨none, task⟩)
            (fun q' hq' => ?_) (fun q' hq' => ?_) (fun q' => rfl)
            (begins_movePoster (by simp [hu])) h.sound hstep⟩
          · simp [outside, step, h.sound, hu]
          · exact TaskQueue.storeLink_run_next ((hq'.trans (hnode x hout)).trans hx) none
      · cases hstep'
  | load w =>
      have hstep' : (c.withQueue q).step (.load w) = some t := hstep
      rw [step.eq_def, if_neg hfaulted] at hstep'
      dsimp only at hstep'
      split at hstep'
      · next x n hw =>
          rw [withQueue_taker] at hw
          obtain ⟨task, htask⟩ := hr.holding w x n hw
          have hown : c.Owns (.taker w) x task := ⟨n, htask, Or.inl hw⟩
          have hout := h.not_pending hown (by simp)
          obtain ⟨nx, hx⟩ := h.live _ x task hown
          refine ⟨x, hout, Local.of_call (TaskQueue.loadTask x)
            (fun s t => s.moveTaker w (.loaded x n t.task)) ⟨nx, task⟩ (some ⟨nx, task⟩)
            (fun q' hq' => ?_) (fun q' hq' => ?_) (fun q' => rfl)
            (begins_moveTaker (by simp [hw])) h.sound hstep⟩
          · simp [outside, step, h.sound, hw]
          · have hload := (hq'.trans (hnode x hout)).trans hx
            rw [TaskQueue.setNode_self hload]
            exact TaskQueue.loadTask_run hload
      · cases hstep'
  | free w =>
      have hstep' : (c.withQueue q).step (.free w) = some t := hstep
      rw [step.eq_def, if_neg hfaulted] at hstep'
      dsimp only at hstep'
      split at hstep'
      · next x n task hw =>
          rw [withQueue_taker] at hw
          have hown : c.Owns (.taker w) x task := ⟨n, hr.loaded w x n task hw, Or.inr hw⟩
          have hout := h.not_pending hown (by simp)
          obtain ⟨nx, hx⟩ := h.live _ x task hown
          refine ⟨x, hout, Local.of_call (TaskQueue.freeTask x)
            (fun s _ => { s with freed := s.freed ++ [n] }.moveTaker w (.freed n task)) () none
            (fun q' hq' => ?_) (fun q' hq' => ?_) (fun q' => rfl)
            (begins_moveTaker (by simp [hw])) h.sound hstep⟩
          · simp [outside, step, h.sound, hw]
          · exact TaskQueue.freeTask_run ((hq'.trans (hnode x hout)).trans hx)
      · cases hstep'
  | execute w =>
      have hstep' : (c.withQueue q).step (.execute w) = some t := hstep
      rw [step.eq_def, if_neg hfaulted] at hstep'
      dsimp only at hstep'
      split at hstep'
      · next n task hw =>
          rw [withQueue_taker] at hw
          obtain ⟨x, hx⟩ := Infinite.exists_notMem_finset (c.pending.map Prod.fst).toFinset
          refine ⟨x, by simpa using hx, Local.of_call (pure ()) (fun s _ =>
            { s with executed := s.executed ++ [(n, task)] }.moveTaker w .idle) () (q.node x)
            (fun q' hq' => ?_) (fun q' hq' => ?_) (fun q' => rfl)
            (begins_moveTaker (by simp [hw])) h.sound hstep⟩
          · simp [outside, step, h.sound, hw, call]
          · rw [withQueue_queue] at hq'
            rw [TaskQueue.setNode_self hq']
            rfl
      · cases hstep'

/-- A thread outside can take its step before the last step of the section that is open. -/
theorem sections_commute_step (h : c.Placed) (hr : c.Recorded)
    (hreached : QueuePoint.Reached c.queue start p q) {q' : TaskQueue τ}
    (hmicro : p.step.run q = .ok (p', q')) (hreached' : QueuePoint.Reached c.queue start p' q')
    (hstep : outside (c.withQueue q') e = some t) :
    ∃ d, outside (c.withQueue q) e = some d ∧ sections.micro k p d = some (p', t) := by
  obtain ⟨x, hx, hlocal⟩ := outside_local h hr hreached' hstep
  have hsame : q.node x = q'.node x :=
    (hreached.node_eq h.queued hx).trans (hreached'.node_eq h.queued hx).symm
  refine ⟨_, hlocal.same q hsame, ?_⟩
  have hset := hreached.step_setNode h.queued hx hmicro (t.queue.node x)
  have hmicro' := sections_micro (k := k)
    (s := t.withQueue (q.setNode x (t.queue.node x))) hlocal.sound hset
  have hqueue : t.queue = q'.setNode x (t.queue.node x) := hlocal.queue
  rw [hmicro', withQueue_withQueue, ← hqueue]
  rfl

theorem sections_commute :
    (sections : LockedCode (TaskPool ι κ τ) (TaskEvent ι κ τ) (ι ⊕ κ) QueuePoint).Commutes
      fun c => c.Placed ∧ c.Recorded := by
  rintro c k n p s e t ⟨h, hr⟩ hpart hstep
  induction n generalizing p s t with
  | zero =>
      -- the thread is still where its section begins
      obtain ⟨start, hstart, he⟩ := Option.map_eq_some_iff.mp hpart
      cases he
      have hreached : ∃ start, QueuePoint.Reached c.queue start p c.queue := by
        rcases begins_eq_some hstart with ⟨u, x, task, -, -, rfl⟩ | ⟨w, -, -, rfl⟩
        · exact ⟨_, .addTail x⟩
        · exact ⟨_, .popTest⟩
      obtain ⟨start, hreached⟩ := hreached
      obtain ⟨x, -, hlocal⟩ := outside_local (q := c.queue) h hr hreached hstep
      refine ⟨t, hstep, ?_⟩
      have hbegins : sections.enter k t = some p := hlocal.begins k p hstart
      rw [LockedCode.part, hbegins]
      rfl
  | succ n ih =>
      obtain ⟨⟨p₀, s₀⟩, hpart₀, hmicro⟩ := Option.bind_eq_some_iff.mp hpart
      obtain ⟨start, q, hstart, rfl, hreached⟩ := part_reached h hpart₀
      obtain ⟨p', q', hrun, hreached'⟩ := hreached.step h.queued (fun y hy => h.queue_live hy)
      have hmicro' := sections_micro (k := k) (s := c.withQueue q) h.sound hrun
      rw [hmicro'] at hmicro
      cases hmicro
      obtain ⟨u, hu, hlast⟩ := sections_commute_step (k := k) h hr hreached hrun hreached' hstep
      obtain ⟨d, hd, hpart'⟩ := ih p₀ _ u hpart₀ hu
      exact ⟨d, hd, Option.bind_eq_some_iff.mpr ⟨_, hpart', hlast⟩⟩

/-- A whole section is the operation that the pool takes as a single step. -/
theorem step_of_whole (h : c.Placed) (hpart : sections.part k n c = some (p, s))
    (hunlock : s.unlock k p = some t) : ∃ e, c.step e = some t := by
  obtain ⟨start, q, hstart, rfl, hreached⟩ := part_reached h hpart
  have hsound : ¬c.faulted := by simp [h.sound]
  rcases begins_eq_some hstart with ⟨u, x, task, rfl, hu, rfl⟩ | ⟨w, rfl, hw, rfl⟩
  · rw [unlock.eq_def] at hunlock
    split at hunlock
    · next hk =>
        cases hk
        obtain ⟨-, hrun⟩ := hreached.add_task_run trivial
        rw [withQueue_poster, hu] at hunlock
        refine ⟨.add u, ?_⟩
        rw [step.eq_def, if_neg hsound]
        dsimp only
        rw [hu]
        dsimp only
        rw [call_ok hrun]
        exact hunlock
    · next hk => cases hk
    · cases hunlock
  · rw [unlock.eq_def] at hunlock
    split at hunlock
    · next hk => cases hk
    · next hk =>
        cases hk
        obtain ⟨task', hdone, hrun⟩ := hreached.pop_task_run trivial
        cases hdone
        refine ⟨.pop w, ?_⟩
        rw [step.eq_def, if_neg hsound]
        dsimp only
        rw [hw]
        dsimp only
        rw [call_ok hrun]
        exact hunlock
    · cases hunlock

/-- The system with whole sections is the pool. -/
theorem step_of_serialStep {a : SerialEvent (TaskEvent ι κ τ) (ι ⊕ κ)} (h : c.Placed)
    (hstep : sections.serialStep c a = some t) : ∃ e, c.step e = some t := by
  cases a with
  | outside e =>
      refine ⟨e, ?_⟩
      cases e with
      | add u => cases hstep
      | pop w => cases hstep
      | _ => exact hstep
  | whole k n =>
      obtain ⟨⟨p, s⟩, hpart, hleave⟩ := Option.bind_eq_some_iff.mp hstep
      exact step_of_whole h hpart hleave

theorem pool_of_serial {l : List (SerialEvent (TaskEvent ι κ τ) (ι ⊕ κ))} (h : s.Placed)
    (hr : s.Recorded) (hrun : runEvents sections.serialStep s l = some t) :
    ∃ l', runEvents step s l' = some t := by
  induction l generalizing s with
  | nil => exact ⟨[], hrun⟩
  | cons a l ih =>
      obtain ⟨u, hu, hrest⟩ := runEvents_cons_eq_some.mp hrun
      obtain ⟨e, he⟩ := step_of_serialStep h hu
      have hmoves := Moves.of_step h hr he
      obtain ⟨l', hl'⟩ := ih (h.moves hr hmoves) (hr.moves hmoves) hrest
      exact ⟨e :: l', runEvents_cons_eq_some.mpr ⟨u, he, hl'⟩⟩

/-- For either version of the spinlock, any number of posting threads and workers, and every
interleaving of their loads and stores: nothing that was freed is touched, the threads exclude each
other, and the state is one that the pool with whole sections reaches, with at most one section
begun, which has only worked on the queue. -/
theorem sections_fifo {version : SpinVersion}
    {t : SpinLocked (TaskPool ι κ τ) (ι ⊕ κ) QueuePoint}
    {l : List (SpinlockEvent (TaskEvent ι κ τ) (ι ⊕ κ))}
    (hrun : runEvents (SpinLocked.step sections version) (SpinLocked.init create) l = some t) :
    t.shared.faulted = false ∧ t.Excluded ∧
      ∃ l' c, runEvents step create l' = some c ∧ c.Fifo ∧ (t.lock = 0 → t.shared = c) ∧
        ∀ k p, t.point k = .inside p → ∃ start q, c.begins k = some start ∧
          t.shared = c.withQueue q ∧ QueuePoint.Reached c.queue start p q := by
  have hinv : ∀ s e u, (s : TaskPool ι κ τ).Placed ∧ s.Recorded →
      sections.serialStep s e = some u → u.Placed ∧ u.Recorded := by
    rintro s e u ⟨h, hr⟩ hstep
    obtain ⟨e', he'⟩ := step_of_serialStep h hstep
    have hmoves := Moves.of_step h hr he'
    exact ⟨h.moves hr hmoves, hr.moves hmoves⟩
  obtain ⟨l', c, hserial, ⟨h, hr⟩, hfree, hinside⟩ := SpinLocked.run_serial sections_commute hinv
    ⟨placed_create, recorded_create⟩ hrun
  obtain ⟨l'', hpool⟩ := pool_of_serial placed_create recorded_create hserial
  have hexcluded := (SpinLocked.run_shows hrun).1
  have hpart : ∀ k p, t.point k = .inside p → ∃ start q, c.begins k = some start ∧
      t.shared = c.withQueue q ∧ QueuePoint.Reached c.queue start p q := by
    intro k p hk
    obtain ⟨n, hn⟩ := hinside k p hk
    exact part_reached h hn
  refine ⟨?_, hexcluded, l'', c, hpool, h.fifo hr, hfree, hpart⟩
  by_cases hlock : t.lock = 0
  · rw [hfree hlock]
    exact h.sound
  · -- the thread that has the lock has only worked on the queue
    have hsome : ∃ k p, t.point k = .inside p := by
      by_contra hno
      exact hlock (hexcluded.free.mpr fun k p hk => hno ⟨k, p, hk⟩)
    obtain ⟨k, p, hk⟩ := hsome
    obtain ⟨start, q, -, hq, -⟩ := hpart k p hk
    rw [hq]
    exact h.sound

/-- A worker is between the two tests of the head when another thread fills in a task and spins. -/
theorem sections_fifo_between : ∃ t : SpinLocked (TaskPool (Fin 2) (Fin 1) Nat)
    (Fin 2 ⊕ Fin 1) QueuePoint,
    runEvents (SpinLocked.step sections .atomics) (SpinLocked.init create)
      [.outside (.malloc 0 8 none 70), .outside (.clear 0), .lock (.inl 0), .exchange (.inl 0),
        .micro (.inl 0), .micro (.inl 0), .micro (.inl 0), .unlock (.inl 0), .lock (.inr 0),
        .exchange (.inr 0), .micro (.inr 0), .outside (.malloc 1 9 none 71), .micro (.inr 0),
        .outside (.clear 1), .micro (.inr 0), .micro (.inr 0), .lock (.inl 1),
        .exchange (.inl 1)] = some t ∧ t.point (.inr 0) = .inside (.popTestHead 8) ∧
      t.point (.inl 1) = .pause ∧ t.shared.queue.head = none ∧
      t.shared.queue.tail = .next 8 ∧ t.shared.faulted = false := by
  have hall : ∀ t : SpinLocked (TaskPool (Fin 2) (Fin 1) Nat) (Fin 2 ⊕ Fin 1) QueuePoint,
      runEvents (SpinLocked.step sections .atomics) (SpinLocked.init create)
        [.outside (.malloc 0 8 none 70), .outside (.clear 0), .lock (.inl 0), .exchange (.inl 0),
          .micro (.inl 0), .micro (.inl 0), .micro (.inl 0), .unlock (.inl 0), .lock (.inr 0),
          .exchange (.inr 0), .micro (.inr 0), .outside (.malloc 1 9 none 71), .micro (.inr 0),
          .outside (.clear 1), .micro (.inr 0), .micro (.inr 0), .lock (.inl 1),
          .exchange (.inl 1)] = some t → t.shared.faulted = false :=
    fun t hrun => (sections_fifo hrun).1
  exact ⟨_, rfl, rfl, rfl, rfl, rfl, hall _ rfl⟩

end TaskPool

end CLanguageLearning.ThreadPool
