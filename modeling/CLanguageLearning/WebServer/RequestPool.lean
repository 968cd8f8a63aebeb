import CLanguageLearning.Foundation.Exec
import CLanguageLearning.Foundation.Transitions

/-!
# The request pool of the webserver

`threadpool` of the webserver's `threadpool.h`: producers append requests to a list under a lock and
then post a semaphore, workers wait on the semaphore and then take a request under the lock. The
semaphore and the list are two objects that change in separate steps, so their counts differ by the
threads that are in between. `Balanced` bounds the difference in every reachable state, also when a
wait is interrupted and a worker comes to the list without a permit.
-/

set_option autoImplicit false

namespace CLanguageLearning.WebServer

open CLanguageLearning.Foundation

/-- The parameters of a pool. The constructor throws unless both numbers are positive; they are
of type `int`. -/
structure PoolConfig where
  m_thread_number : Nat
  m_max_requests : Nat
  m_actor_model : Int
  threads_pos : 0 < m_thread_number
  requests_pos : 0 < m_max_requests
  requests_int : m_max_requests ≤ INT_MAX

/-- The request list and the field `m_state` of the requests, which the lock protects. -/
structure WorkQueue (R : Type) where
  m_workqueue : List (Option R)
  m_state : R → Int

/-- What a worker does with a request. -/
inductive Job where
  | read
  | write
  | process
  deriving DecidableEq, Repr

namespace WorkQueue

variable {R : Type}

/-- The body of `append` under the lock. -/
def append [DecidableEq R] (cfg : PoolConfig) (request : Option R) (state : Int) :
    Exec (WorkQueue R) Bool := do
  let q ← get
  if cfg.m_max_requests ≤ q.m_workqueue.length then return false
  else
    match request with
    -- `request->m_state` is written before the request is queued
    | none => throw .undefined
    | some r =>
        modify fun q => { q with m_state := Function.update q.m_state r state }
        modify fun q => { q with m_workqueue := q.m_workqueue ++ [some r] }
        return true

/-- The body of `append_p` under the lock. -/
def append_p (cfg : PoolConfig) (request : Option R) : Exec (WorkQueue R) Bool := do
  let q ← get
  if cfg.m_max_requests ≤ q.m_workqueue.length then return false
  else
    modify fun q => { q with m_workqueue := q.m_workqueue ++ [request] }
    return true

/-- The body of `run` under the lock, `none` when there is no request. -/
def fetch : Exec (WorkQueue R) (Option (Option R)) := do
  let q ← get
  match q.m_workqueue with
  | [] => return none
  | request :: rest =>
      set { q with m_workqueue := rest }
      return some request

/-- The branches of `run` behind the lock; a null request is skipped. -/
def job (cfg : PoolConfig) (q : WorkQueue R) (request : Option R) : Option Job :=
  request.map fun r =>
    if cfg.m_actor_model = 1 then if q.m_state r = 0 then .read else .write else .process

end WorkQueue

/-- Where a producer is: outside, or between unlock and post. -/
inductive Producer where
  | outside
  | posting
  deriving DecidableEq, Repr

/-- Where a worker is: before the end of its wait, between wait and pop, or with a request. -/
inductive Worker where
  | waiting
  | awake
  | busy (job : Job)
  deriving DecidableEq, Repr

/-- The largest value of a semaphore. -/
def SEM_VALUE_MAX : Nat := INT_MAX

/-- A pool with the producers `ι` and the workers `κ`. The last two fields are the requests that
were accepted, and those that were dequeued, each with its worker, in order. -/
structure Pool (ι κ R : Type) where
  shared : WorkQueue R
  m_queuestat : Nat
  producer : ι → Producer
  worker : κ → Worker
  accepted : List (Option R)
  dequeued : List (κ × Option R)

/-- What can happen next. `interrupt` is a `sem_wait` that fails, whose result `run` ignores. -/
inductive PoolEvent (ι κ R : Type) where
  | append (p : ι) (request : Option R) (state : Int)
  | append_p (p : ι) (request : Option R)
  | post (p : ι)
  | wait (w : κ)
  | interrupt (w : κ)
  | fetch (w : κ)
  | finish (w : κ)
  deriving DecidableEq, Repr

namespace Pool

variable {ι κ R : Type}

/-- A pool after its construction. -/
def start (ι κ : Type) (m_state : R → Int) : Pool ι κ R :=
  ⟨⟨[], m_state⟩, 0, fun _ => .outside, fun _ => .waiting, [], []⟩

/-- The producer `p` has run the body of `append` or `append_p`. -/
def settle [DecidableEq ι] (s : Pool ι κ R) (p : ι) (request : Option R) :
    Except Halt (Bool × WorkQueue R) → Option (Pool ι κ R)
  | .error _ => none
  | .ok (false, q) => some { s with shared := q }
  | .ok (true, q) =>
      some { s with
        shared := q
        producer := Function.update s.producer p .posting
        accepted := s.accepted ++ [request] }

def step [DecidableEq ι] [DecidableEq κ] [DecidableEq R] (cfg : PoolConfig) (s : Pool ι κ R) :
    PoolEvent ι κ R → Option (Pool ι κ R)
  | .append p request state =>
      if s.producer p = .outside then
        s.settle p request ((WorkQueue.append cfg request state).run s.shared)
      else none
  | .append_p p request =>
      if s.producer p = .outside then
        s.settle p request ((WorkQueue.append_p cfg request).run s.shared)
      else none
  | .post p =>
      if s.producer p = .posting then
        some { s with
          m_queuestat := min (s.m_queuestat + 1) SEM_VALUE_MAX
          producer := Function.update s.producer p .outside }
      else none
  | .wait w =>
      if s.worker w = .waiting ∧ 0 < s.m_queuestat then
        some { s with
          m_queuestat := s.m_queuestat - 1
          worker := Function.update s.worker w .awake }
      else none
  | .interrupt w =>
      if s.worker w = .waiting then
        some { s with worker := Function.update s.worker w .awake }
      else none
  | .fetch w =>
      if s.worker w = .awake then
        match (WorkQueue.fetch (R := R)).run s.shared with
        | .error _ => none
        | .ok (none, q) =>
            some { s with shared := q, worker := Function.update s.worker w .waiting }
        | .ok (some request, q) =>
            some { s with
              shared := q
              worker := Function.update s.worker w
                (match WorkQueue.job cfg q request with
                | none => .waiting
                | some job => .busy job)
              dequeued := s.dequeued ++ [(w, request)] }
      else none
  | .finish w =>
      match s.worker w with
      | .busy _ => some { s with worker := Function.update s.worker w .waiting }
      | _ => none

section Balance

variable [Fintype ι] [Fintype κ]

/-- The counts of a pool: the list is within its limit, and every request in it is matched by a
permit, by a producer that is about to post one, or by a worker that has one. What was accepted was
dequeued in this order or is in the list. -/
structure Balanced (cfg : PoolConfig) (s : Pool ι κ R) : Prop where
  le_max : s.shared.m_workqueue.length ≤ cfg.m_max_requests
  le_permits : s.shared.m_workqueue.length ≤
    s.m_queuestat + countAt (· = .posting) s.producer + countAt (· = .awake) s.worker
  order : s.accepted = s.dequeued.map Prod.snd ++ s.shared.m_workqueue

variable {cfg : PoolConfig} {s t : Pool ι κ R} {p : ι} {w : κ}

theorem balanced_start (cfg : PoolConfig) (m_state : R → Int) :
    Balanced cfg (start ι κ m_state) :=
  ⟨Nat.zero_le _, Nat.zero_le _, rfl⟩

end Balance

end Pool

/-! ## The bodies under the lock -/

namespace WorkQueue

variable {R : Type} {cfg : PoolConfig} {q : WorkQueue R} {request : Option R}

/-- The code refuses a request when the list is full, without a change, and else puts it at the end
of the list. -/
def Enqueues (cfg : PoolConfig) (request : Option R) (x : Exec (WorkQueue R) Bool) : Prop :=
  ∀ q b q', x.run q = .ok (b, q') →
    (b = false ∧ cfg.m_max_requests ≤ q.m_workqueue.length ∧ q' = q) ∨
    (b = true ∧ q.m_workqueue.length < cfg.m_max_requests ∧
      q'.m_workqueue = q.m_workqueue ++ [request])

theorem append_p_run_full (h : cfg.m_max_requests ≤ q.m_workqueue.length) (request : Option R) :
    (append_p cfg request).run q = .ok (false, q) := by
  simp [append_p, h]

theorem append_p_run (h : q.m_workqueue.length < cfg.m_max_requests) (request : Option R) :
    (append_p cfg request).run q =
      .ok (true, { q with m_workqueue := q.m_workqueue ++ [request] }) := by
  simp [append_p, h]

theorem append_p_enqueues (cfg : PoolConfig) (request : Option R) :
    Enqueues cfg request (append_p cfg request) := by
  intro q b q' h
  by_cases hfull : cfg.m_max_requests ≤ q.m_workqueue.length
  · rw [append_p_run_full hfull] at h
    cases h
    exact Or.inl ⟨rfl, hfull, rfl⟩
  · rw [append_p_run (not_le.mp hfull)] at h
    cases h
    exact Or.inr ⟨rfl, not_le.mp hfull, rfl⟩

variable [DecidableEq R]

theorem append_run_full (h : cfg.m_max_requests ≤ q.m_workqueue.length) (request : Option R)
    (state : Int) : (append cfg request state).run q = .ok (false, q) := by
  simp [append, h]

theorem append_run (h : q.m_workqueue.length < cfg.m_max_requests) (r : R) (state : Int) :
    (append cfg (some r) state).run q =
      .ok (true, ⟨q.m_workqueue ++ [some r], Function.update q.m_state r state⟩) := by
  simp [append, h]

theorem append_run_null (h : q.m_workqueue.length < cfg.m_max_requests) (state : Int) :
    (append cfg none state).run q = .error .undefined := by
  simp [append, h]

theorem append_enqueues (cfg : PoolConfig) (request : Option R) (state : Int) :
    Enqueues cfg request (append cfg request state) := by
  intro q b q' h
  by_cases hfull : cfg.m_max_requests ≤ q.m_workqueue.length
  · rw [append_run_full hfull] at h
    cases h
    exact Or.inl ⟨rfl, hfull, rfl⟩
  · cases request with
    | none =>
        rw [append_run_null (not_le.mp hfull)] at h
        cases h
    | some r =>
        rw [append_run (not_le.mp hfull)] at h
        cases h
        exact Or.inr ⟨rfl, not_le.mp hfull, rfl⟩

end WorkQueue

namespace Pool

variable {ι κ R : Type} [Fintype ι] [Fintype κ] {cfg : PoolConfig} {s t : Pool ι κ R}
  {p : ι} {w : κ} {request : Option R}

section Workers

variable [DecidableEq κ]

omit [Fintype ι] in
theorem countAt_awake (hw : s.worker w = .waiting) :
    countAt (· = .awake) (Function.update s.worker w .awake) =
      countAt (· = .awake) s.worker + 1 :=
  countAt_update_enter (by simp [hw]) rfl

theorem Balanced.wait (h : Balanced cfg s) (hw : s.worker w = .waiting) (hpos : 0 < s.m_queuestat) :
    Balanced cfg { s with
      m_queuestat := s.m_queuestat - 1
      worker := Function.update s.worker w .awake } where
  le_max := h.le_max
  le_permits := by
    have hcount := countAt_awake hw
    have hpermits := h.le_permits
    dsimp only
    omega
  order := h.order

theorem Balanced.interrupt (h : Balanced cfg s) (hw : s.worker w = .waiting) :
    Balanced cfg { s with worker := Function.update s.worker w .awake } where
  le_max := h.le_max
  le_permits := by
    have hcount := countAt_awake hw
    have hpermits := h.le_permits
    dsimp only
    omega
  order := h.order

/-- A worker that finds no request. -/
theorem Balanced.fetch_nil (h : Balanced cfg s) (w : κ) (hq : s.shared.m_workqueue = []) :
    Balanced cfg { s with worker := Function.update s.worker w .waiting } where
  le_max := h.le_max
  le_permits := by
    show s.shared.m_workqueue.length ≤ _
    rw [hq]
    exact Nat.zero_le _
  order := h.order

/-- A worker that takes the first request gives up its permit. -/
theorem Balanced.fetch_cons {rest : List (Option R)} {point : Worker} (h : Balanced cfg s)
    (hw : s.worker w = .awake) (hq : s.shared.m_workqueue = request :: rest)
    (hpoint : point ≠ .awake) :
    Balanced cfg { s with
      shared := { s.shared with m_workqueue := rest }
      worker := Function.update s.worker w point
      dequeued := s.dequeued ++ [(w, request)] } := by
  have hlen : s.shared.m_workqueue.length = rest.length + 1 := by rw [hq, List.length_cons]
  constructor
  case le_max =>
    have := h.le_max
    show rest.length ≤ _
    omega
  case le_permits =>
    have hcount : countAt (· = .awake) (Function.update s.worker w point) + 1 =
        countAt (· = .awake) s.worker :=
      countAt_update_leave hw hpoint
    have hpermits := h.le_permits
    dsimp only
    omega
  case order =>
    show s.accepted = (s.dequeued ++ [(w, request)]).map Prod.snd ++ rest
    rw [h.order, hq]
    simp

theorem Balanced.finish {job : Job} (h : Balanced cfg s) (hw : s.worker w = .busy job) :
    Balanced cfg { s with worker := Function.update s.worker w .waiting } where
  le_max := h.le_max
  le_permits := by
    have hcount : countAt (· = .awake) (Function.update s.worker w .waiting) =
        countAt (· = .awake) s.worker :=
      countAt_update_of_iff (by simp [hw])
    dsimp only
    rw [hcount]
    exact h.le_permits
  order := h.order

end Workers

section Producers

variable [DecidableEq ι]

/-- A producer that has run its body keeps the balance: a request it has added is matched by the
producer itself. -/
theorem Balanced.settle (h : Balanced cfg s) (hp : s.producer p = .outside)
    {x : Exec (WorkQueue R) Bool} (hx : WorkQueue.Enqueues cfg request x)
    (hstep : s.settle p request (x.run s.shared) = some t) : Balanced cfg t := by
  cases hrun : x.run s.shared with
  | error e =>
      rw [hrun] at hstep
      cases hstep
  | ok r =>
      obtain ⟨b, q⟩ := r
      rw [hrun] at hstep
      rcases hx s.shared b q hrun with ⟨rfl, -, rfl⟩ | ⟨rfl, hlt, hq⟩
      · -- the list was full
        cases hstep
        exact ⟨h.le_max, h.le_permits, h.order⟩
      · cases hstep
        have hcount : countAt (· = .posting) (Function.update s.producer p .posting) =
            countAt (· = .posting) s.producer + 1 :=
          countAt_update_enter (by simp [hp]) rfl
        -- the producer that is about to post is counted beside the permits
        have hlen : q.m_workqueue.length = s.shared.m_workqueue.length + 1 := by simp [hq]
        constructor
        case le_max =>
          show q.m_workqueue.length ≤ _
          omega
        case le_permits =>
          dsimp only
          have := h.le_permits
          omega
        case order =>
          show s.accepted ++ [request] = _ ++ q.m_workqueue
          rw [h.order, hq, List.append_assoc]

/-- A semaphore that is at its largest value still has a permit for every request. -/
theorem Balanced.post (h : Balanced cfg s) (hp : s.producer p = .posting) :
    Balanced cfg { s with
      m_queuestat := min (s.m_queuestat + 1) SEM_VALUE_MAX
      producer := Function.update s.producer p .outside } where
  le_max := h.le_max
  le_permits := by
    have hcount : countAt (· = .posting) (Function.update s.producer p .outside) + 1 =
        countAt (· = .posting) s.producer :=
      countAt_update_leave hp (by simp)
    have hpermits := h.le_permits
    have hmax := h.le_max.trans cfg.requests_int
    dsimp only
    rcases Nat.le_total (s.m_queuestat + 1) SEM_VALUE_MAX with hle | hle
    · rw [Nat.min_eq_left hle]
      omega
    · -- the limit of the list is an `int`, and so below the largest permit
      rw [Nat.min_eq_right hle]
      exact (hmax.trans (Nat.le_add_right _ _)).trans (Nat.le_add_right _ _)
  order := h.order

end Producers

variable [DecidableEq ι] [DecidableEq κ] [DecidableEq R]

/-- The body of `run` and what the worker does next. -/
theorem Balanced.fetch (h : Balanced cfg s) (hw : s.worker w = .awake)
    (hstep : s.step cfg (.fetch w) = some t) : Balanced cfg t := by
  rw [step, if_pos hw] at hstep
  cases hq : s.shared.m_workqueue with
  -- a worker that was interrupted in its wait may find nothing
  | nil =>
      have hrun : (WorkQueue.fetch (R := R)).run s.shared = .ok (none, s.shared) := by
        simp [WorkQueue.fetch, hq]
      rw [hrun] at hstep
      cases hstep
      exact h.fetch_nil w hq
  | cons request rest =>
      have hrun : (WorkQueue.fetch (R := R)).run s.shared =
          .ok (some request, { s.shared with m_workqueue := rest }) := by
        simp [WorkQueue.fetch, hq]
      rw [hrun] at hstep
      cases hstep
      apply h.fetch_cons hw hq
      split <;> simp

theorem Balanced.step {e : PoolEvent ι κ R} (h : Balanced cfg s) (hstep : s.step cfg e = some t) :
    Balanced cfg t := by
  cases e with
  | append p request state =>
      rw [Pool.step] at hstep
      split at hstep
      · next hp => exact h.settle hp (WorkQueue.append_enqueues cfg request state) hstep
      · cases hstep
  | append_p p request =>
      rw [Pool.step] at hstep
      split at hstep
      · next hp => exact h.settle hp (WorkQueue.append_p_enqueues cfg request) hstep
      · cases hstep
  | post p =>
      rw [Pool.step] at hstep
      split at hstep
      · next hp =>
          cases hstep
          exact h.post hp
      · cases hstep
  | wait w =>
      rw [Pool.step] at hstep
      split at hstep
      · next hw =>
          cases hstep
          exact h.wait hw.1 hw.2
      · cases hstep
  | interrupt w =>
      rw [Pool.step] at hstep
      split at hstep
      · next hw =>
          cases hstep
          exact h.interrupt hw
      · cases hstep
  | fetch w =>
      by_cases hw : s.worker w = .awake
      · exact h.fetch hw hstep
      · rw [Pool.step, if_neg hw] at hstep
        cases hstep
  | finish w =>
      rw [Pool.step] at hstep
      split at hstep
      · next hw =>
          cases hstep
          exact h.finish hw
      · cases hstep

/-- For any number of producers and workers and every interleaving, the list stays within its limit
and no request is left without a permit, a producer about to post one or a worker that has one; the
requests are dequeued in the order in which they were accepted, each once; a request that finds the
list full changes nothing. -/
theorem never_stranded {m_state : R → Int} {l : List (PoolEvent ι κ R)}
    (hrun : runEvents (step cfg) (start ι κ m_state) l = some t) :
    t.shared.m_workqueue.length ≤ cfg.m_max_requests ∧
      t.shared.m_workqueue.length ≤
        t.m_queuestat + countAt (· = .posting) t.producer + countAt (· = .awake) t.worker ∧
      t.accepted = t.dequeued.map Prod.snd ++ t.shared.m_workqueue ∧
      ∀ p request, t.producer p = .outside →
        cfg.m_max_requests ≤ t.shared.m_workqueue.length →
        t.step cfg (.append_p p request) = some t ∧
          ∀ state, t.step cfg (.append p request state) = some t := by
  have hbal : Balanced cfg t :=
    invariant (I := Balanced cfg) (fun _ _ _ h hstep => h.step hstep) (balanced_start cfg m_state)
      hrun
  refine ⟨hbal.le_max, hbal.le_permits, hbal.order, ?_⟩
  intro p request hp hfull
  constructor
  · rw [step, if_pos hp, WorkQueue.append_p_run_full hfull]
    rfl
  · intro state
    rw [step, if_pos hp, WorkQueue.append_run_full hfull]
    rfl

/-- The smallest pool. -/
def smallest : PoolConfig := ⟨1, 1, 0, by decide, by decide, by decide⟩

/-- A second request is refused, and the worker, interrupted in its wait, takes the first one. -/
def interruptedWait {ι κ : Type} (p : ι) (w : κ) : List (PoolEvent ι κ Nat) :=
  [.append p (some 4) 1, .post p, .append_p p (some 5), .interrupt w, .fetch w]

theorem never_stranded_interrupted :
    ∃ t : Pool (Fin 1) (Fin 1) Nat,
      runEvents (step smallest) (start (Fin 1) (Fin 1) fun _ => 0) (interruptedWait 0 0) = some t ∧
      t.accepted = [some 4] ∧ t.dequeued = [(0, some 4)] ∧
      t.shared.m_workqueue.length ≤
        t.m_queuestat + countAt (· = .posting) t.producer + countAt (· = .awake) t.worker := by
  have hall : ∀ t,
      runEvents (step smallest) (start (Fin 1) (Fin 1) fun _ => 0) (interruptedWait 0 0) = some t →
      t.shared.m_workqueue.length ≤
        t.m_queuestat + countAt (· = .posting) t.producer + countAt (· = .awake) t.worker := by
    intro t hrun
    exact (never_stranded hrun).2.1
  exact ⟨_, rfl, rfl, rfl, hall _ rfl⟩

end Pool

end CLanguageLearning.WebServer
