import CLanguageLearning.Foundation.LinkedChain
import CLanguageLearning.ThreadPool.Version1

/-!
# The task list of the first thread pool

`threadpool.c` of `version1` with the links of the tasks: `LL_ADD` puts a task in front of the list
under the mutex, and `get_task` takes the first one out with `LL_REMOVE`. The condition that a worker
waits for is about the list of workers, so a worker comes to the list of tasks when there is none as
well, and begins again.

`task_list_run` says what the list is in every reachable state and what the calls of `get_task`
return. The ledger (`pushed`, `present`, `returned`) is there to state it. A task is known by its
address: one that has been taken may be pushed again, as it is or freed and allocated anew, whatever
its links are, since `LL_ADD` stores to both. `Represents.advance` and `Represents.push` connect the
links with the pool of `Version1`, in which the tasks are a `List`.
-/

set_option autoImplicit false

namespace CLanguageLearning.ThreadPool

open CLanguageLearning.Foundation

/-- The `prev` and `next` fields of the tasks, with `τ` for their addresses, and the head of the
list. -/
structure TaskList (τ : Type) where
  prev : τ → Option τ
  next : τ → Option τ
  tasks : Option τ

namespace TaskList

variable {τ : Type}

section Operations

variable [DecidableEq τ]

/-- `p->prev = v`, if there is a `p`. -/
def setPrev (s : TaskList τ) (p v : Option τ) : TaskList τ :=
  match p with
  | none => s
  | some x => { s with prev := Function.update s.prev x v }

/-- `p->next = v`, if there is a `p`. -/
def setNext (s : TaskList τ) (p v : Option τ) : TaskList τ :=
  match p with
  | none => s
  | some x => { s with next := Function.update s.next x v }

/-- `if (list == item) list = item->next;` -/
def skipHead (s : TaskList τ) (item : τ) : TaskList τ :=
  if s.tasks = some item then { s with tasks := s.next item } else s

/-- `LL_ADD(item, thread_pool->tasks)`. -/
def LL_ADD (s : TaskList τ) (item : τ) : TaskList τ :=
  let s := s.setPrev (some item) none
  let s := s.setNext (some item) s.tasks
  let s := s.setPrev s.tasks (some item)
  { s with tasks := some item }

/-- `LL_REMOVE(item, thread_pool->tasks)`. -/
def LL_REMOVE (s : TaskList τ) (item : τ) : TaskList τ :=
  let s := s.setNext (s.prev item) (s.next item)
  let s := s.setPrev (s.next item) (s.prev item)
  ((s.skipHead item).setNext (some item) none).setPrev (some item) none

end Operations

/-- The list has the tasks `l`, from `tasks` on. -/
structure Listed (s : TaskList τ) (l : List τ) : Prop where
  threaded : Threaded s.next s.prev l
  head : s.tasks = l.head?
  first : ∀ x ∈ l.head?, s.prev x = none
  nodup : l.Nodup

section Surgery

variable {s : TaskList τ} {l A B : List τ} {x y : τ}

theorem Listed.nil (prev next : τ → Option τ) : Listed ⟨prev, next, none⟩ [] where
  threaded := .nil next prev
  head := rfl
  first := by
    intro x hx
    cases hx
  nodup := List.nodup_nil

/-- No task points at itself. -/
theorem Listed.prev_ne_self (h : s.Listed l) (hx : x ∈ l) : s.prev x ≠ some x := by
  intro hprev
  obtain ⟨A, B, rfl⟩ := List.append_of_mem hx
  have hnext := ((h.threaded.prev_iff_next h.first hx).mp hprev).2
  rw [h.threaded.next_mid] at hnext
  have hnodup := (List.nodup_append.mp h.nodup).2.1
  exact (List.nodup_cons.mp hnodup).1 (List.mem_of_head? hnext)

variable [DecidableEq τ]

@[simp] theorem setPrev_prev (s : TaskList τ) (p v : Option τ) (y : τ) :
    (s.setPrev p v).prev y = if p = some y then v else s.prev y := by
  cases p with
  | none => rfl
  | some x => simp [setPrev, Function.update_apply, eq_comm]

@[simp] theorem setPrev_next (s : TaskList τ) (p v : Option τ) : (s.setPrev p v).next = s.next := by
  cases p <;> rfl

@[simp] theorem setPrev_tasks (s : TaskList τ) (p v : Option τ) :
    (s.setPrev p v).tasks = s.tasks := by
  cases p <;> rfl

@[simp] theorem setNext_next (s : TaskList τ) (p v : Option τ) (y : τ) :
    (s.setNext p v).next y = if p = some y then v else s.next y := by
  cases p with
  | none => rfl
  | some x => simp [setNext, Function.update_apply, eq_comm]

@[simp] theorem setNext_prev (s : TaskList τ) (p v : Option τ) : (s.setNext p v).prev = s.prev := by
  cases p <;> rfl

@[simp] theorem setNext_tasks (s : TaskList τ) (p v : Option τ) :
    (s.setNext p v).tasks = s.tasks := by
  cases p <;> rfl

@[simp] theorem skipHead_prev (s : TaskList τ) (x : τ) : (s.skipHead x).prev = s.prev := by
  rw [skipHead]
  split <;> rfl

@[simp] theorem skipHead_next (s : TaskList τ) (x : τ) : (s.skipHead x).next = s.next := by
  rw [skipHead]
  split <;> rfl

@[simp] theorem skipHead_tasks (s : TaskList τ) (x : τ) :
    (s.skipHead x).tasks = if s.tasks = some x then s.next x else s.tasks := by
  rw [skipHead]
  split <;> rfl

theorem LL_ADD_next (s : TaskList τ) (x y : τ) :
    (s.LL_ADD x).next y = if x = y then s.tasks else s.next y := by
  simp [LL_ADD]

theorem LL_ADD_prev (s : TaskList τ) (x y : τ) :
    (s.LL_ADD x).prev y = if s.tasks = some y then some x else if x = y then none else s.prev y := by
  simp [LL_ADD]

/-- `LL_REMOVE` sets `next` of the task before. -/
theorem LL_REMOVE_next (s : TaskList τ) (hyx : y ≠ x) :
    (s.LL_REMOVE x).next y = if s.prev x = some y then s.next x else s.next y := by
  simp [LL_REMOVE, hyx.symm]

/-- `LL_REMOVE` sets `prev` of the task behind. -/
theorem LL_REMOVE_prev (hx : s.prev x ≠ some x) (hyx : y ≠ x) :
    (s.LL_REMOVE x).prev y = if s.next x = some y then s.prev x else s.prev y := by
  simp [LL_REMOVE, hx, hyx.symm]

theorem LL_REMOVE_tasks (hx : s.prev x ≠ some x) :
    (s.LL_REMOVE x).tasks = if s.tasks = some x then s.next x else s.tasks := by
  simp [LL_REMOVE, hx]

/-- The links of a task that has been taken out are cleared. -/
theorem LL_REMOVE_self (s : TaskList τ) (x : τ) :
    (s.LL_REMOVE x).prev x = none ∧ (s.LL_REMOVE x).next x = none := by
  simp [LL_REMOVE]

namespace Listed

/-- `LL_ADD` pushes the task in front. -/
theorem add (h : s.Listed l) (hx : x ∉ l) : (s.LL_ADD x).Listed (x :: l) where
  threaded := by
    have hne : ∀ y ∈ l, x ≠ y := by
      rintro y hy rfl
      exact hx hy
    apply h.threaded.push
    · rw [LL_ADD_next, if_pos rfl, h.head]
    · intro y hy
      rw [LL_ADD_prev, h.head]
      exact if_pos hy
    · intro y hy
      rw [LL_ADD_next, if_neg (hne y hy)]
    · intro y hy
      have hyl := List.mem_of_mem_tail hy
      rw [LL_ADD_prev, if_neg, if_neg (hne y hyl)]
      -- the first task is not met again
      intro hhead
      rw [h.head] at hhead
      obtain ⟨m, rfl⟩ := List.head?_eq_some_iff.mp hhead
      exact (List.nodup_cons.mp h.nodup).1 hy
  head := rfl
  first := by
    intro y hy
    cases hy
    rw [LL_ADD_prev, h.head, if_neg fun hhead => hx (List.mem_of_head? hhead), if_pos rfl]
  nodup := List.nodup_cons.mpr ⟨hx, h.nodup⟩

/-- The links of a task outside of the list stay as they are. -/
theorem add_other (h : s.Listed l) (hy : y ∉ l) (hxy : x ≠ y) :
    (s.LL_ADD x).prev y = s.prev y ∧ (s.LL_ADD x).next y = s.next y := by
  rw [LL_ADD_prev, LL_ADD_next, h.head, if_neg fun hhead => hy (List.mem_of_head? hhead),
    if_neg hxy, if_neg hxy]
  exact ⟨rfl, rfl⟩

/-- The links of a task outside of the list stay as they are when another one is taken out. -/
theorem remove_other (h : s.Listed l) (hx : x ∈ l) (hy : y ∉ l) :
    (s.LL_REMOVE x).prev y = s.prev y ∧ (s.LL_REMOVE x).next y = s.next y := by
  have hyx : y ≠ x := by
    rintro rfl
    exact hy hx
  have hprev : s.prev x ≠ some y := by
    intro hprev
    exact hy ((h.threaded.prev_iff_next h.first hx).mp hprev).1
  have hnext : s.next x ≠ some y := fun hnext => hy (h.threaded.prev_of_next hx hnext).1
  rw [LL_REMOVE_prev (h.prev_ne_self hx) hyx, LL_REMOVE_next s hyx, if_neg hprev, if_neg hnext]
  exact ⟨rfl, rfl⟩

/-- `LL_REMOVE` takes a task out, wherever it is in the list. -/
theorem remove (h : s.Listed (A ++ x :: B)) : (s.LL_REMOVE x).Listed (A ++ B) := by
  have hx : x ∈ A ++ x :: B := by simp
  have hself := h.prev_ne_self hx
  have hsub : ∀ y ∈ A ++ B, y ∈ A ++ x :: B := by
    intro y hy
    rcases List.mem_append.mp hy with hy | hy
    · exact List.mem_append_left _ hy
    · exact List.mem_append_right A (List.mem_cons_of_mem x hy)
  have hnodup : (A ++ B).Nodup := h.nodup.sublist ((List.sublist_cons_self x B).append_left A)
  have hne : ∀ y ∈ A ++ B, y ≠ x := by
    rintro y hy rfl
    have hmem := List.mem_append.mp hy
    have hsplit := h.nodup
    simp only [List.nodup_append, List.nodup_cons] at hsplit
    rcases hmem with hA | hB
    · exact hsplit.2.2 y hA y List.mem_cons_self rfl
    · exact hsplit.2.1.1 hB
  have hfirst : ∀ z ∈ (A ++ x :: B).head?, s.prev z = none := h.first
  refine ⟨h.threaded.bypass h.nodup ?_ ?_, ?_, ?_, hnodup⟩
  · intro y hy
    rw [LL_REMOVE_next s (hne y hy)]
    have hiff := h.threaded.prev_iff_next hfirst hx (x := y)
    simp only [hiff, hsub y hy, true_and]
  · intro y hy
    rw [LL_REMOVE_prev hself (hne y hy)]
    have hiff := h.threaded.prev_iff_next hfirst (hsub y hy) (x := x)
    simp only [hiff, hx, true_and]
  · rw [LL_REMOVE_tasks hself, h.head, h.threaded.next_mid]
    cases A with
    | nil => simp
    | cons a A =>
        have hax : a ≠ x := hne a List.mem_cons_self
        simp [hax]
  · intro y hy
    rw [LL_REMOVE_prev hself (hne y (List.mem_of_head? hy))]
    cases A with
    | nil =>
        have hnext : s.next x = B.head? := h.threaded.next_mid (A := [])
        rw [hnext]
        exact (if_pos hy).trans (hfirst x rfl)
    | cons a A =>
        -- the first task stays the first, and nothing comes before it
        have hprev : s.prev a = none := hfirst a rfl
        have hnext : s.next x ≠ some a := by
          intro hnext
          have hback := (h.threaded.prev_of_next hx hnext).2
          rw [hprev] at hback
          cases hback
        cases hy
        rw [if_neg hnext, hprev]

end Listed

end Surgery

end TaskList

/-! ## The pool -/

/-- The pool, with `κ` for the addresses of workers. The ledger has the tasks that have been pushed,
those of them that have not been taken, and what the calls of `get_task` have returned, the last one
first. -/
structure LinkedPool (κ τ : Type) where
  /-- The head of the list of workers. -/
  workers : Option κ
  list : TaskList τ
  /-- The worker that holds the mutex. -/
  mutex : Option κ
  termination : κ → Int
  thread : κ → Callback τ
  pushed : List τ
  present : List τ
  returned : List (κ × Option τ)

/-- What can happen next. Tasks are pushed by any thread, and a signal wakes a worker in the wait or
nobody. -/
inductive LinkedEvent (κ τ : Type) where
  /-- `pthread_create`. -/
  | create (w : κ)
  /-- `LL_ADD(worker, thread_pool->workers)`. -/
  | link (w : κ)
  | push (task : τ) (woken : Option κ)
  /-- `thread_destroy` sets the flag of a worker. -/
  | flag (w : κ)
  | broadcast
  | advance (w : κ)
  | wakeup (w : κ)
  deriving DecidableEq, Repr

namespace LinkedPool

variable {κ τ : Type}

/-- The start of `thread_pool_create`; the tasks have any links. -/
def create (prev next : τ → Option τ) : LinkedPool κ τ where
  workers := none
  list := ⟨prev, next, none⟩
  mutex := none
  termination _ := 0
  thread _ := .absent
  pushed := []
  present := []
  returned := []

section Steps

variable [DecidableEq κ] [DecidableEq τ]

/-- The worker `w` goes to the point `p`. -/
def moveThread (s : LinkedPool κ τ) (w : κ) (p : Callback τ) : LinkedPool κ τ :=
  { s with thread := Function.update s.thread w p }

/-- The worker `w` unlocks the mutex, and `get_task` returns. -/
def giveBack (s : LinkedPool κ τ) (w : κ) (task : Option τ) (p : Callback τ) : LinkedPool κ τ :=
  { s with
    mutex := none
    thread := Function.update s.thread w p
    returned := (w, task) :: s.returned }

/-- The next step of a worker that is not in the wait. -/
def advance (s : LinkedPool κ τ) (w : κ) : Option (LinkedPool κ τ) :=
  match s.thread w with
  | .lock => if s.mutex = none then some ({ s with mutex := some w }.moveThread w .test) else none
  | .test => some (s.moveThread w (if s.workers = none then .check else .leave))
  | .check =>
      if s.termination w = 0 then some ({ s with mutex := none }.moveThread w .waiting)
      else some (s.moveThread w .leave)
  | .woken => if s.mutex = none then some ({ s with mutex := some w }.moveThread w .test) else none
  | .leave => some (s.moveThread w (if s.termination w = 0 then .take else .unlock))
  | .take =>
      match s.list.tasks with
      -- no task: the loop of `get_task` begins again
      | none => some ({ s with mutex := none }.moveThread w .lock)
      | some task =>
          some ({ s with
            list := s.list.LL_REMOVE task
            present := s.present.erase task }.giveBack w (some task) (.run task))
  | .unlock => some (s.giveBack w none .free)
  | .free => some (s.moveThread w .exited)
  | .run _ => some (s.moveThread w .lock)
  | .absent => none
  | .waiting => none
  | .exited => none

/-- `pthread_cond_signal` with its choice. -/
def signal (s : LinkedPool κ τ) : Option κ → Option (LinkedPool κ τ)
  | none => some s
  | some w =>
      match s.thread w with
      | .waiting => some (s.moveThread w .woken)
      | _ => none

def step (s : LinkedPool κ τ) : LinkedEvent κ τ → Option (LinkedPool κ τ)
  | .create w =>
      match s.thread w with
      | .absent => some (s.moveThread w .lock)
      | _ => none
  | .link w => some { s with workers := some w }
  | .push task woken =>
      if s.mutex = none then
        { s with
          list := s.list.LL_ADD task
          pushed := task :: s.pushed
          present := task :: s.present }.signal woken
      else none
  | .flag w => some { s with termination := Function.update s.termination w 1 }
  | .broadcast =>
      if s.mutex = none then some { s with thread := ListPool.wakeAll s.thread } else none
  | .advance w => s.advance w
  | .wakeup w =>
      match s.thread w with
      | .waiting => some (s.moveThread w .woken)
      | _ => none

/-- The tasks that calls of `get_task` have returned. -/
def taken (s : LinkedPool κ τ) : List τ := s.returned.filterMap Prod.snd

/-- No task is pushed that has not been taken since its last push. -/
def PushesNew (s : LinkedPool κ τ) : LinkedEvent κ τ → Prop
  | .push task _ => task ∉ s.present
  | _ => True

/-- What a step does to the list and to the ledger. -/
inductive Effect (s t : LinkedPool κ τ) : LinkedEvent κ τ → Prop where
  | same {e : LinkedEvent κ τ} (hlist : t.list = s.list) (hpushed : t.pushed = s.pushed)
      (hpresent : t.present = s.present) (hreturned : t.returned = s.returned) : Effect s t e
  | push {task : τ} {woken : Option κ} (hlist : t.list = s.list.LL_ADD task)
      (hpushed : t.pushed = task :: s.pushed) (hpresent : t.present = task :: s.present)
      (hreturned : t.returned = s.returned) : Effect s t (.push task woken)
  | take {w : κ} {task : τ} (hhead : s.list.tasks = some task)
      (hlist : t.list = s.list.LL_REMOVE task) (hpushed : t.pushed = s.pushed)
      (hpresent : t.present = s.present.erase task)
      (hreturned : t.returned = (w, some task) :: s.returned) : Effect s t (.advance w)
  | null {w : κ} (hthread : s.thread w = .unlock) (hlist : t.list = s.list)
      (hpushed : t.pushed = s.pushed) (hpresent : t.present = s.present)
      (hreturned : t.returned = (w, none) :: s.returned) : Effect s t (.advance w)

end Steps

/-- What the list and the ledger are in every reachable state. -/
structure Recorded (s : LinkedPool κ τ) : Prop where
  listed : s.list.Listed s.present
  pushed : s.pushed.Perm (s.taken ++ s.present)
  cleared : ∀ x ∈ s.taken, x ∉ s.present → s.list.prev x = none ∧ s.list.next x = none
  flagged : ∀ w, s.thread w = .unlock → s.termination w ≠ 0
  null : ∀ w, (w, none) ∈ s.returned → s.termination w ≠ 0

/-- The pool of `Version1` stands for this one: the links of the tasks are its list. -/
structure Represents (s : LinkedPool κ τ) (p : ListPool κ τ) : Prop where
  workers : p.workers = none ↔ s.workers = none
  tasks : s.list.Listed p.tasks
  mutex : p.mutex = s.mutex
  termination : ∀ w, (p.node w).termination = s.termination w
  thread : p.thread = s.thread

section Runs

variable {s t : LinkedPool κ τ} {e : LinkedEvent κ τ} {w : κ} {x : τ} {l : List (LinkedEvent κ τ)}

theorem signal_same [DecidableEq κ] {woken : Option κ} (hstep : s.signal woken = some t) :
    t.list = s.list ∧ t.pushed = s.pushed ∧ t.present = s.present ∧ t.returned = s.returned ∧
      t.termination = s.termination ∧ ∀ w, t.thread w = .unlock → s.thread w = .unlock := by
  cases woken with
  | none =>
      cases hstep
      exact ⟨rfl, rfl, rfl, rfl, rfl, fun _ => id⟩
  | some u =>
      simp only [signal] at hstep
      split at hstep <;> cases hstep
      refine ⟨rfl, rfl, rfl, rfl, rfl, fun w hw => ?_⟩
      rcases eq_or_ne w u with rfl | hne
      · simp [moveThread] at hw
      · simpa [moveThread, hne] using hw

/-- A worker comes to `unlock` only with its flag set. -/
theorem unlock_of_update [DecidableEq κ] {p : Callback τ} {u : κ}
    (hp : p = .unlock → s.termination u ≠ 0) :
    ∀ w, Function.update s.thread u p w = .unlock →
      s.thread w = .unlock ∨ s.termination w ≠ 0 := by
  intro w hw
  rcases eq_or_ne w u with rfl | hne
  · rw [Function.update_self] at hw
    exact Or.inr (hp hw)
  · rw [Function.update_of_ne hne] at hw
    exact Or.inl hw

theorem taken_congr (h : t.returned = s.returned) : t.taken = s.taken := by
  rw [taken, h, taken]

theorem taken_task (h : t.returned = (w, some x) :: s.returned) : t.taken = x :: s.taken := by
  simp [taken, h]

theorem taken_null (h : t.returned = (w, none) :: s.returned) : t.taken = s.taken := by
  simp [taken, h]

/-- A worker moves on. -/
theorem Represents.move [DecidableEq κ] {p : ListPool κ τ} (h : s.Represents p) (w : κ)
    (point : Callback τ) :
    (s.moveThread w point).Represents (p.moveThread w point) where
  workers := h.workers
  tasks := h.tasks
  mutex := h.mutex
  termination := h.termination
  thread := by rw [moveThread, ListPool.moveThread, h.thread]

/-- The mutex changes hands. -/
theorem Represents.withMutex {p : ListPool κ τ} (h : s.Represents p) (m : Option κ) :
    Represents { s with mutex := m } { p with mutex := m } :=
  ⟨h.workers, h.tasks, rfl, h.termination, h.thread⟩

theorem recorded_create (prev next : τ → Option τ) :
    (create prev next : LinkedPool κ τ).Recorded where
  listed := .nil prev next
  pushed := .nil
  cleared := by
    intro x hx
    cases hx
  flagged := by
    intro w hw
    cases hw
  null := by
    intro w hw
    cases hw

/-- A step that leaves the list alone and takes nothing. -/
theorem Recorded.congr (h : s.Recorded) (hlist : t.list = s.list) (hpushed : t.pushed = s.pushed)
    (hpresent : t.present = s.present) (htaken : t.taken = s.taken)
    (hflagged : ∀ w, t.thread w = .unlock → t.termination w ≠ 0)
    (hnull : ∀ w, (w, none) ∈ t.returned → t.termination w ≠ 0) : t.Recorded := by
  refine ⟨?_, ?_, ?_, hflagged, hnull⟩
  · rw [hlist, hpresent]
    exact h.listed
  · rw [hpushed, htaken, hpresent]
    exact h.pushed
  · rw [htaken, hpresent, hlist]
    exact h.cleared

/-- Of tasks that are pushed once each, none is taken twice. -/
theorem Recorded.distinct (h : s.Recorded) (hpushed : s.pushed.Nodup) :
    s.taken.Nodup ∧ (∀ x, x ∈ s.present ↔ x ∈ s.pushed ∧ x ∉ s.taken) ∧
      ∀ x ∈ s.taken, s.list.prev x = none ∧ s.list.next x = none := by
  obtain ⟨htaken, -, hapart⟩ := List.nodup_append.mp (h.pushed.nodup_iff.mp hpushed)
  have hout : ∀ x ∈ s.taken, x ∉ s.present := fun x hx hx' => hapart x hx x hx' rfl
  refine ⟨htaken, fun x => ?_, fun x hx => h.cleared x hx (hout x hx)⟩
  rw [h.pushed.mem_iff, List.mem_append]
  constructor
  · exact fun hx => ⟨Or.inr hx, fun hx' => hout x hx' hx⟩
  · rintro ⟨hx, hx'⟩
    exact hx.resolve_left hx'

variable [DecidableEq τ]

/-- A task that is not in the list is put in front. -/
theorem Recorded.add (h : s.Recorded) (hnew : x ∉ s.present) (hlist : t.list = s.list.LL_ADD x)
    (hpushed : t.pushed = x :: s.pushed) (hpresent : t.present = x :: s.present)
    (htaken : t.taken = s.taken) (hflagged : ∀ w, t.thread w = .unlock → t.termination w ≠ 0)
    (hnull : ∀ w, (w, none) ∈ t.returned → t.termination w ≠ 0) : t.Recorded := by
  refine ⟨?_, ?_, ?_, hflagged, hnull⟩
  · rw [hlist, hpresent]
    exact h.listed.add hnew
  · rw [hpushed, htaken, hpresent]
    exact (h.pushed.cons x).trans List.perm_middle.symm
  -- the links of the tasks outside of the list stay as they are
  · rw [htaken, hpresent, hlist]
    intro y hy hout
    rw [List.mem_cons, not_or] at hout
    obtain ⟨hne, hout⟩ := hout
    obtain ⟨hprev, hnext⟩ := h.listed.add_other hout (Ne.symm hne)
    rw [hprev, hnext]
    exact h.cleared y hy hout

/-- The first task of the list is taken out. -/
theorem Recorded.take (h : s.Recorded) (hhead : s.list.tasks = some x)
    (hlist : t.list = s.list.LL_REMOVE x) (hpushed : t.pushed = s.pushed)
    (hpresent : t.present = s.present.erase x) (htaken : t.taken = x :: s.taken)
    (hflagged : ∀ w, t.thread w = .unlock → t.termination w ≠ 0)
    (hnull : ∀ w, (w, none) ∈ t.returned → t.termination w ≠ 0) : t.Recorded := by
  obtain ⟨rest, hrest⟩ := List.head?_eq_some_iff.mp (h.listed.head.symm.trans hhead)
  rw [hrest, List.erase_cons_head] at hpresent
  have hlisted := h.listed
  rw [hrest] at hlisted
  refine ⟨?_, ?_, ?_, hflagged, hnull⟩
  · rw [hlist, hpresent]
    exact hlisted.remove (A := [])
  · rw [hpushed, htaken, hpresent]
    refine h.pushed.trans ?_
    rw [hrest]
    exact List.perm_middle
  · rw [htaken, hpresent, hlist]
    intro y hy hout
    rcases eq_or_ne y x with rfl | hne
    · exact TaskList.LL_REMOVE_self s.list y
    · have hout' : y ∉ x :: rest := List.not_mem_cons_of_ne_of_not_mem hne hout
      obtain ⟨hprev, hnext⟩ := hlisted.remove_other List.mem_cons_self hout'
      rw [hprev, hnext]
      exact h.cleared y ((List.mem_cons.mp hy).resolve_left hne) (hrest ▸ hout')

variable [DecidableEq κ]

theorem Effect.of_advance (hstep : s.advance w = some t) :
    Effect s t (.advance w) ∧ t.termination = s.termination ∧
      ∀ u, t.thread u = .unlock → s.thread u = .unlock ∨ s.termination u ≠ 0 := by
  have hmove : ∀ p : Callback τ, (p = .unlock → s.termination w ≠ 0) →
      ∀ u, Function.update s.thread w p u = .unlock → s.thread u = .unlock ∨ s.termination u ≠ 0 :=
    fun p hp => unlock_of_update hp
  cases hp : s.thread w with
  | absent | waiting | exited =>
      rw [advance, hp] at hstep
      cases hstep
  | lock | woken =>
      rw [advance, hp] at hstep
      obtain ⟨-, h⟩ := Option.ite_none_right_eq_some.mp hstep
      cases h
      exact ⟨.same rfl rfl rfl rfl, rfl, hmove _ (by simp)⟩
  | test =>
      rw [advance, hp] at hstep
      cases hstep
      refine ⟨.same rfl rfl rfl rfl, rfl, hmove _ ?_⟩
      split <;> simp
  | free | run =>
      rw [advance, hp] at hstep
      cases hstep
      exact ⟨.same rfl rfl rfl rfl, rfl, hmove _ (by simp)⟩
  | check =>
      simp only [advance, hp] at hstep
      split at hstep <;> cases hstep <;> exact ⟨.same rfl rfl rfl rfl, rfl, hmove _ (by simp)⟩
  | leave =>
      rw [advance, hp] at hstep
      cases hstep
      refine ⟨.same rfl rfl rfl rfl, rfl, hmove _ ?_⟩
      split
      next => simp
      next hflag => exact fun _ => hflag
  | take =>
      simp only [advance, hp] at hstep
      split at hstep <;> cases hstep
      next => exact ⟨.same rfl rfl rfl rfl, rfl, hmove _ (by simp)⟩
      next task htask => exact ⟨.take htask rfl rfl rfl rfl, rfl, hmove _ (by simp)⟩
  | unlock =>
      rw [advance, hp] at hstep
      cases hstep
      exact ⟨.null hp rfl rfl rfl rfl, rfl, hmove _ (by simp)⟩

/-- What a step does to the list, to the ledger, to the flags and to the workers that are about to
return nothing. -/
theorem Effect.of_step (hstep : s.step e = some t) :
    Effect s t e ∧ (∀ w, s.termination w ≠ 0 → t.termination w ≠ 0) ∧
      ∀ w, t.thread w = .unlock → s.thread w = .unlock ∨ s.termination w ≠ 0 := by
  cases e with
  | advance w =>
      obtain ⟨heffect, hflag, hthread⟩ := Effect.of_advance hstep
      exact ⟨heffect, fun u hu => hflag ▸ hu, hthread⟩
  | create w =>
      simp only [step] at hstep
      split at hstep <;> cases hstep
      exact ⟨.same rfl rfl rfl rfl, fun _ => id, unlock_of_update (by simp)⟩
  | wakeup w =>
      simp only [step] at hstep
      split at hstep <;> cases hstep
      exact ⟨.same rfl rfl rfl rfl, fun _ => id, unlock_of_update (by simp)⟩
  | link w =>
      cases hstep
      exact ⟨.same rfl rfl rfl rfl, fun _ => id, fun _ => Or.inl⟩
  | flag w =>
      cases hstep
      refine ⟨.same rfl rfl rfl rfl, fun u hu => ?_, fun _ => Or.inl⟩
      rcases eq_or_ne u w with rfl | hne
      · simp
      · simpa [hne] using hu
  | broadcast =>
      obtain ⟨-, h⟩ := Option.ite_none_right_eq_some.mp hstep
      cases h
      refine ⟨.same rfl rfl rfl rfl, fun _ => id, fun w hw => Or.inl ?_⟩
      simp only [ListPool.wakeAll] at hw
      split at hw
      · cases hw
      · exact hw
  | push task woken =>
      obtain ⟨-, h⟩ := Option.ite_none_right_eq_some.mp hstep
      obtain ⟨hlist, hpushed, hpresent, hreturned, hflag, hthread⟩ := signal_same h
      exact ⟨.push hlist hpushed hpresent hreturned, fun w hw => hflag ▸ hw,
        fun w hw => Or.inl (hthread w hw)⟩

theorem Recorded.step (h : s.Recorded) (hnew : s.PushesNew e) (hstep : s.step e = some t) :
    t.Recorded := by
  obtain ⟨heffect, hflag, hunlock⟩ := Effect.of_step hstep
  have hflagged : ∀ w, t.thread w = .unlock → t.termination w ≠ 0 := by
    intro w hw
    apply hflag
    rcases hunlock w hw with hs | hs
    · exact h.flagged w hs
    · exact hs
  have hnull : ∀ w, (w, none) ∈ s.returned → t.termination w ≠ 0 :=
    fun w hw => hflag w (h.null w hw)
  cases heffect with
  | same hlist hpushed hpresent hreturned =>
      refine h.congr hlist hpushed hpresent (taken_congr hreturned) hflagged ?_
      rw [hreturned]
      exact hnull
  | push hlist hpushed hpresent hreturned =>
      refine h.add hnew hlist hpushed hpresent (taken_congr hreturned) hflagged ?_
      rw [hreturned]
      exact hnull
  | take hhead hlist hpushed hpresent hreturned =>
      refine h.take hhead hlist hpushed hpresent (taken_task hreturned) hflagged ?_
      rw [hreturned]
      intro u hu
      rcases List.mem_cons.mp hu with hu | hu
      · cases hu
      · exact hnull u hu
  | @null w hthread hlist hpushed hpresent hreturned =>
      refine h.congr hlist hpushed hpresent (taken_null hreturned) hflagged ?_
      rw [hreturned]
      intro u hu
      rcases List.mem_cons.mp hu with hu | hu
      · cases hu
        exact hflag w (h.flagged w hthread)
      · exact hnull u hu

/-- What a call of `get_task` returns in a step: the task that was pushed last of those present, with
its links cleared, or nothing to a worker with its flag set. -/
def GivesLast (s t : LinkedPool κ τ) : Prop :=
  t.returned = s.returned ∨ ∃ w,
    (∃ x, t.returned = (w, some x) :: s.returned ∧ s.present.head? = some x ∧
      t.list.prev x = none ∧ t.list.next x = none) ∨
    (t.returned = (w, none) :: s.returned ∧ s.termination w ≠ 0)

theorem Recorded.givesLast (h : s.Recorded) (hstep : s.step e = some t) : s.GivesLast t := by
  obtain ⟨heffect, -, -⟩ := Effect.of_step hstep
  cases heffect with
  | same _ _ _ hreturned => exact Or.inl hreturned
  | push _ _ _ hreturned => exact Or.inl hreturned
  | @take w task hhead hlist _ _ hreturned =>
      obtain ⟨hprev, hnext⟩ := TaskList.LL_REMOVE_self s.list task
      refine Or.inr ⟨w, Or.inl ⟨task, hreturned, h.listed.head.symm.trans hhead, ?_⟩⟩
      rw [hlist]
      exact ⟨hprev, hnext⟩
  | @null w hthread _ _ _ hreturned => exact Or.inr ⟨w, Or.inr ⟨hreturned, h.flagged w hthread⟩⟩

/-- For any number of workers and of tasks, none of which is pushed while it is in the list, and every
interleaving: in every reachable state the list has the tasks that have been pushed and not taken
since, the last one first, each once; every push is one of these or has been returned by one call of
`get_task`; a task that has been returned has no links unless it is in the list again; and nothing
has been returned only to workers with their flags set. If no task has been pushed twice, none has
been returned twice. Each step from there gives the first task of the list. -/
theorem task_list_run {prev next : τ → Option τ}
    (hnew : Along step PushesNew (create prev next) l)
    (hrun : runEvents step (create prev next) l = some t) :
    t.list.Listed t.present ∧ t.pushed.Perm (t.taken ++ t.present) ∧
    (∀ x ∈ t.taken, x ∉ t.present → t.list.prev x = none ∧ t.list.next x = none) ∧
    (∀ w, (w, none) ∈ t.returned → t.termination w ≠ 0) ∧
    (t.pushed.Nodup → t.taken.Nodup ∧ (∀ x, x ∈ t.present ↔ x ∈ t.pushed ∧ x ∉ t.taken) ∧
      ∀ x ∈ t.taken, t.list.prev x = none ∧ t.list.next x = none) ∧
    ∀ e u, t.step e = some u → t.GivesLast u := by
  have h : t.Recorded :=
    invariant_along (fun s e u hs he hstep => Recorded.step hs he hstep)
      (recorded_create prev next) hnew hrun
  exact ⟨h.listed, h.pushed, h.cleared, h.null, h.distinct, fun e u => h.givesLast⟩

/-- One worker and two tasks; it takes the second one, which is then pushed again. -/
theorem task_list_run_again : ∃ t : LinkedPool Nat Nat,
    runEvents step (create (fun _ => none) fun _ => none) [.create 1, .link 1, .push 8 none,
      .push 16 none, .advance 1, .advance 1, .advance 1, .advance 1, .push 16 none] = some t ∧
      t.returned = [(1, some 16)] ∧ t.list.Listed t.present ∧ t.present = [16, 8] := by
  have hall : ∀ t : LinkedPool Nat Nat,
      runEvents step (create (fun _ => none) fun _ => none) [.create 1, .link 1, .push 8 none,
        .push 16 none, .advance 1, .advance 1, .advance 1, .advance 1, .push 16 none] = some t →
        t.list.Listed t.present := by
    intro t hrun
    refine (task_list_run ?_ hrun).1
    have hempty : 8 ∉ ([] : List Nat) := List.not_mem_nil
    have hother : 16 ∉ [8] := by decide
    exact ⟨trivial, trivial, hempty, hother, trivial, trivial, trivial, trivial, hother, trivial⟩
  exact ⟨_, rfl, rfl, hall _ rfl, rfl⟩

/-! ### The pool with a list of tasks -/

namespace Represents

variable {p : ListPool κ τ}

/-- What a worker does to the links it does to the list. -/
theorem advance (h : s.Represents p) (hfree : s.thread w ≠ .free) (hstep : s.advance w = some t) :
    ∃ q, p.advance w = some q ∧ t.Represents q := by
  have hthread : p.thread w = s.thread w := by rw [h.thread]
  cases hpoint : s.thread w with
  | absent | waiting | exited =>
      rw [LinkedPool.advance, hpoint] at hstep
      cases hstep
  | free => exact absurd hpoint hfree
  | lock | woken =>
      rw [LinkedPool.advance, hpoint] at hstep
      obtain ⟨hmutex, ht⟩ := Option.ite_none_right_eq_some.mp hstep
      cases ht
      rw [ListPool.advance, hthread, hpoint]
      exact ⟨_, if_pos (h.mutex.trans hmutex), (h.withMutex (some w)).move w .test⟩
  | test =>
      rw [LinkedPool.advance, hpoint] at hstep
      cases hstep
      rw [ListPool.advance, hthread, hpoint]
      refine ⟨_, rfl, ?_⟩
      simp only [h.workers]
      exact h.move w _
  | leave =>
      rw [LinkedPool.advance, hpoint] at hstep
      cases hstep
      rw [ListPool.advance, hthread, hpoint]
      refine ⟨_, rfl, ?_⟩
      simp only [h.termination]
      exact h.move w _
  | run =>
      rw [LinkedPool.advance, hpoint] at hstep
      cases hstep
      rw [ListPool.advance, hthread, hpoint]
      exact ⟨_, rfl, h.move w .lock⟩
  | check =>
      simp only [LinkedPool.advance, hpoint] at hstep
      simp only [ListPool.advance, hthread, hpoint, h.termination]
      by_cases hflag : s.termination w = 0
      · rw [if_pos hflag] at hstep ⊢
        cases hstep
        exact ⟨_, rfl, (h.withMutex none).move w .waiting⟩
      · rw [if_neg hflag] at hstep ⊢
        cases hstep
        exact ⟨_, rfl, h.move w .leave⟩
  | take =>
      simp only [LinkedPool.advance, hpoint] at hstep
      simp only [ListPool.advance, hthread, hpoint]
      have hhead := h.tasks.head
      cases htasks : p.tasks with
      | nil =>
          rw [htasks] at hhead
          rw [hhead] at hstep
          cases hstep
          have hlisted := h.tasks
          rw [htasks] at hlisted
          refine ⟨_, rfl, h.workers, hlisted, rfl, h.termination, ?_⟩
          rw [moveThread, ListPool.moveThread, h.thread]
      | cons task rest =>
          rw [htasks] at hhead
          rw [hhead] at hstep
          cases hstep
          have hlisted := h.tasks
          rw [htasks] at hlisted
          refine ⟨_, rfl, h.workers, hlisted.remove (A := []), rfl, h.termination, ?_⟩
          rw [giveBack, ListPool.moveThread, h.thread]
  | unlock =>
      rw [LinkedPool.advance, hpoint] at hstep
      cases hstep
      rw [ListPool.advance, hthread, hpoint]
      refine ⟨_, rfl, h.workers, h.tasks, rfl, h.termination, ?_⟩
      rw [giveBack, ListPool.moveThread, h.thread]

/-- And so does a task that is pushed while the main thread is outside of the pool's functions. -/
theorem push {woken : Option κ} (h : s.Represents p) (hmain : p.main = .outside)
    (hx : x ∉ p.tasks) (hstep : s.step (.push x woken) = some t) :
    ∃ q, p.step (.push x woken) = some q ∧ t.Represents q := by
  obtain ⟨hmutex, hsignal⟩ := Option.ite_none_right_eq_some.mp hstep
  have hpush : Represents
      { s with list := s.list.LL_ADD x, pushed := x :: s.pushed, present := x :: s.present }
      { p with tasks := x :: p.tasks } :=
    ⟨h.workers, h.tasks.add hx, h.mutex, h.termination, h.thread⟩
  have hq : p.step (.push x woken) = ListPool.signal { p with tasks := x :: p.tasks } woken := by
    simp only [ListPool.step]
    split
    next => exact if_pos (h.mutex.trans hmutex)
    next hother => exact absurd hmain hother
  rw [hq]
  cases woken with
  | none =>
      cases hsignal
      exact ⟨_, rfl, hpush⟩
  | some u =>
      have hthread : p.thread u = s.thread u := by rw [h.thread]
      simp only [signal] at hsignal
      split at hsignal <;> cases hsignal
      next hwaiting =>
        refine ⟨_, ?_, hpush.move u .woken⟩
        simp only [ListPool.signal, hthread, hwaiting]

end Represents

end Runs

end LinkedPool

end CLanguageLearning.ThreadPool
