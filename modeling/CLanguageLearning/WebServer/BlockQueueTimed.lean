import CLanguageLearning.WebServer.BlockQueueRuns

/-!
# The `pop` with a time limit

`pop(item, ms_timeout)` reads the clock, takes the lock, and waits if the queue is empty. The
deadline of the wait loses the microseconds of the clock, and takes the milliseconds below a second
for microseconds. After the wait the queue is tested once, or not at all if the deadline has passed.

The threads are those of `SharedQueue`, with a clock that counts nanoseconds. What the calls did is
recorded: each deadline given to `pthread_cond_timedwait`, and each answer `false`.
-/

set_option autoImplicit false

namespace CLanguageLearning.WebServer

open CLanguageLearning.Foundation

/-- `struct timeval`. -/
structure Timeval where
  tv_sec : Int
  tv_usec : Int
  deriving DecidableEq, Repr

/-- `struct timespec`. -/
structure Timespec where
  tv_sec : Int
  tv_nsec : Int
  deriving DecidableEq, Repr

/-- The time in nanoseconds. -/
def Timespec.ns (t : Timespec) : Int := t.tv_sec * 10 ^ 9 + t.tv_nsec

def gettimeofday (clock : Nat) : Timeval := ⟨clock / 10 ^ 9, clock / 1000 % 10 ^ 6⟩

/-- A call `pop(item, ms_timeout)` that has read the clock. -/
structure TimedPop where
  now : Timeval
  ms_timeout : Int
  deriving DecidableEq, Repr

namespace TimedPop

/-- The deadline that the call computes. -/
def t (c : TimedPop) : Timespec :=
  ⟨c.now.tv_sec + c.ms_timeout.tdiv 1000, c.ms_timeout.tmod 1000 * 1000⟩

/-- The time in nanoseconds that is `ms_timeout` after the call. -/
def due (c : TimedPop) : Int :=
  c.now.tv_sec * 10 ^ 9 + c.now.tv_usec * 1000 + c.ms_timeout * 10 ^ 6

/-- The deadline is right on whole seconds, and never else. -/
theorem t_eq_due_iff {c : TimedPop} (hms : 0 ≤ c.ms_timeout) (husec : 0 ≤ c.now.tv_usec) :
    (c.t.ns = c.due ∧ 0 ≤ c.t.tv_nsec ∧ c.t.tv_nsec < 10 ^ 9) ↔
      c.now.tv_usec = 0 ∧ 1000 ∣ c.ms_timeout := by
  have hparts := Int.mul_tdiv_add_tmod c.ms_timeout 1000
  have hlow := Int.tmod_nonneg 1000 hms
  have hhigh := Int.tmod_lt_of_pos c.ms_timeout (show (0 : Int) < 1000 by decide)
  have hdvd : 1000 ∣ c.ms_timeout ↔ c.ms_timeout.tmod 1000 = 0 := Int.dvd_iff_tmod_eq_zero
  -- what the deadline lacks is `tv_usec` and 999 / 1000 of the milliseconds
  rw [hdvd]
  simp only [Timespec.ns, due, t]
  constructor
  · rintro ⟨heq, -⟩
    omega
  · rintro ⟨husec, hms⟩
    omega

end TimedPop

/-- Where a thread is: outside, in a `pop` with a time limit before it takes the lock, in a wait,
after one and about to take the lock again, or after one whose deadline has passed. -/
inductive TimedPoint where
  | outside
  | entering (c : TimedPop)
  | waiting (c : Option TimedPop)
  | woken (c : Option TimedPop)
  | expired (c : TimedPop)
  deriving DecidableEq, Repr

/-- `m_cond.broadcast()` for a thread at this point. -/
def TimedPoint.broadcast : TimedPoint → TimedPoint
  | waiting c => woken c
  | p => p

/-- A call that has returned `false`, with the time and with the size of the queue then. -/
structure FailedPop where
  call : TimedPop
  time : Nat
  m_size : Int
  deriving DecidableEq, Repr

structure TimedQueue (ι T : Type) where
  queue : BlockQueue T
  clock : Nat
  point : ι → TimedPoint
  waits : List (TimedPop × Timespec)
  failures : List FailedPop

/-- What can happen next: time passes, a call of a function without time limit, one of the other
`pop` up to the lock and then up to its wait, a wait that ends normally or because its deadline has
passed, and a `pop` that goes on after its wait. -/
inductive TimedEvent (ι T : Type) where
  | tick (ns : Nat)
  | call (i : ι) (r : Request T)
  | popTimed (i : ι) (ms_timeout : Int)
  | enter (i : ι)
  | wakeup (i : ι)
  | timeout (i : ι)
  | resume (i : ι)
  deriving DecidableEq, Repr

namespace TimedQueue

variable {ι T : Type} [DecidableEq ι] {s t : TimedQueue ι T} {i : ι}

/-- All threads outside. -/
def start (q : BlockQueue T) (clock : Nat) : TimedQueue ι T := ⟨q, clock, fun _ => .outside, [], []⟩

def move (s : TimedQueue ι T) (i : ι) (p : TimedPoint) : TimedQueue ι T :=
  { s with point := Function.update s.point i p }

/-- `return false` of a call with a time limit. -/
def fail (s : TimedQueue ι T) (i : ι) (c : TimedPop) : TimedQueue ι T :=
  { s.move i .outside with failures := s.failures ++ [⟨c, s.clock, s.queue.m_size⟩] }

/-- The wait of a call. -/
def wait (s : TimedQueue ι T) (i : ι) : Option TimedPop → TimedQueue ι T
  | none => s.move i (.waiting none)
  | some c => { s.move i (.waiting (some c)) with waits := s.waits ++ [(c, c.t)] }

/-- The end of a call. -/
def finish (s : TimedQueue ι T) (i : ι) : Option TimedPop → Outcome T → TimedQueue ι T
  | some c, .pop none => s.fail i c
  | _, _ => s.move i .outside

/-- The thread `i` has run a body of a call: it waits, or the call is over. -/
def settle (s : TimedQueue ι T) (i : ι) (c : Option TimedPop) :
    Except Halt (Option (Outcome T) × BlockQueue T) → Option (TimedQueue ι T)
  | .error _ => none
  | .ok (none, q) => some ({ s with queue := q }.wait i c)
  | .ok (some o, q) => some ({ s with queue := q }.finish i c o)

/-- The broadcast at the end of a push. -/
def notify (s : TimedQueue ι T) : Request T → TimedQueue ι T
  | .push _ => { s with point := fun i => (s.point i).broadcast }
  | _ => s

def step (s : TimedQueue ι T) : TimedEvent ι T → Option (TimedQueue ι T)
  | .tick ns => some { s with clock := s.clock + ns }
  | .call i r =>
      if s.point i = .outside ∧ r.timed = false then
        (s.settle i none (r.enter.run s.queue)).map fun t => t.notify r
      else none
  | .popTimed i ms_timeout =>
      if s.point i = .outside ∧ 0 ≤ ms_timeout then
        some (s.move i (.entering ⟨gettimeofday s.clock, ms_timeout⟩))
      else none
  | .enter i =>
      match s.point i with
      | .entering c => s.settle i (some c) (Request.popTimed.enter.run s.queue)
      | _ => none
  | .wakeup i =>
      match s.point i with
      | .waiting c => some (s.move i (.woken c))
      | _ => none
  | .timeout i =>
      match s.point i with
      | .waiting (some c) => if c.t.ns ≤ s.clock then some (s.move i (.expired c)) else none
      | _ => none
  | .resume i =>
      match s.point i with
      | .woken c => s.settle i c ((resumePop c.isSome).run s.queue)
      | .expired c => some (s.fail i c)
      | _ => none

/-- Every deadline is that of its call, and every answer `false` was given to an empty queue, not
before the call was due. -/
structure Timely (s : TimedQueue ι T) : Prop where
  deadline : ∀ w ∈ s.waits, w.2.ns = w.1.due ∧ 0 ≤ w.2.tv_nsec ∧ w.2.tv_nsec < 10 ^ 9
  failure : ∀ f ∈ s.failures, f.call.due ≤ f.time ∧ f.m_size = 0

/-- A call that finds the queue empty is made on a full second, with a limit of full seconds; when
it goes on and the queue is empty again, it is due; when its deadline has passed, the queue is
empty. -/
def Covered (s : TimedQueue ι T) : TimedEvent ι T → Prop
  | .enter i => ∀ c, s.point i = .entering c → s.queue.m_size ≤ 0 →
      c.now.tv_usec = 0 ∧ 1000 ∣ c.ms_timeout
  | .resume i =>
      match s.point i with
      | .woken (some c) => s.queue.m_size ≤ 0 → c.due ≤ s.clock
      | .expired _ => s.queue.m_size ≤ 0
      | _ => True
  | _ => True

/-! ## What the calls record -/

/-- A thread that is about to take the lock has read the clock; the deadline of one that waits has
been recorded, and is over when the thread has left the wait for it. -/
def Recorded (s : TimedQueue ι T) : TimedPoint → Prop
  | .entering c => 0 ≤ c.ms_timeout ∧ 0 ≤ c.now.tv_usec
  | .waiting (some c) => (c, c.t) ∈ s.waits
  | .expired c => (c, c.t) ∈ s.waits ∧ c.t.ns ≤ s.clock
  | _ => True

/-- The queue holds its items, and every thread is where it has been recorded. -/
structure Sound (s : TimedQueue ι T) : Prop where
  holds : ∃ seq, Holds s.queue seq
  points : ∀ i, s.Recorded (s.point i)

omit [DecidableEq ι] in
theorem Recorded.mono {p : TimedPoint} (h : s.Recorded p) (hwaits : ∀ w ∈ s.waits, w ∈ t.waits)
    (hclock : s.clock ≤ t.clock) : t.Recorded p := by
  cases p with
  | entering c => exact h
  | waiting c =>
      cases c with
      | none => trivial
      | some c => exact hwaits _ h
  | expired c => exact ⟨hwaits _ h.1, h.2.trans (by exact_mod_cast hclock)⟩
  | _ => trivial

omit [DecidableEq ι] in
theorem Recorded.broadcast {p : TimedPoint} (h : s.Recorded p) : s.Recorded p.broadcast := by
  cases p with
  | waiting c => trivial
  | _ => exact h

omit [DecidableEq ι] in
theorem sound_start {q : BlockQueue T} (h : Holds q []) (clock : Nat) :
    Sound (start (ι := ι) q clock) :=
  ⟨⟨[], h⟩, fun _ => trivial⟩

/-- One thread goes on to a point that has been recorded. -/
theorem Sound.update {p : TimedPoint} (h : s.Sound) (hholds : ∃ seq, Holds t.queue seq)
    (hwaits : ∀ w ∈ s.waits, w ∈ t.waits) (hclock : s.clock ≤ t.clock)
    (hpoint : t.point = Function.update s.point i p) (hp : t.Recorded p) : t.Sound := by
  refine ⟨hholds, fun j => ?_⟩
  rw [hpoint]
  by_cases hj : j = i
  · subst hj
    rwa [Function.update_self]
  · rw [Function.update_of_ne hj]
    exact (h.points j).mono hwaits hclock

theorem Sound.move {p : TimedPoint} (h : s.Sound) (hp : s.Recorded p) : (s.move i p).Sound :=
  h.update h.holds (fun _ hw => hw) (Nat.le_refl _) rfl (hp.mono (fun _ hw => hw) (Nat.le_refl _))

theorem Sound.fail (h : s.Sound) (c : TimedPop) : (s.fail i c).Sound :=
  h.update h.holds (fun _ hw => hw) (Nat.le_refl _) rfl trivial

theorem Sound.wait (h : s.Sound) (c : Option TimedPop) : (s.wait i c).Sound := by
  cases c with
  | none => exact h.move trivial
  | some c =>
      refine h.update h.holds (fun _ hw => List.mem_append_left _ hw) (Nat.le_refl _) rfl ?_
      exact List.mem_append_right _ List.mem_cons_self

theorem Sound.finish (h : s.Sound) (c : Option TimedPop) (o : Outcome T) :
    (s.finish i c o).Sound := by
  rw [TimedQueue.finish.eq_def]
  split
  · exact h.fail _
  · exact h.move trivial

omit [DecidableEq ι] in
theorem Sound.withQueue {q : BlockQueue T} (h : s.Sound) (hq : ∃ seq, Holds q seq) :
    Sound { s with queue := q } :=
  ⟨hq, h.points⟩

omit [DecidableEq ι] in
theorem Sound.notify (h : s.Sound) (r : Request T) : (s.notify r).Sound := by
  cases r with
  | push x => exact ⟨h.holds, fun j => (h.points j).broadcast⟩
  | _ => exact h

theorem Sound.settle {c : Option TimedPop} {x : Exec (BlockQueue T) (Option (Outcome T))}
    (h : s.Sound) (hx : Serving x) (hsettle : s.settle i c (x.run s.queue) = some t) : t.Sound := by
  obtain ⟨seq, hseq⟩ := h.holds
  obtain ⟨r, q, seq', hrun, hholds, -, -⟩ := hx s.queue seq hseq
  rw [hrun] at hsettle
  have hqueue : Sound { s with queue := q } := h.withQueue ⟨seq', hholds⟩
  cases r with
  | none =>
      cases hsettle
      exact hqueue.wait c
  | some o =>
      cases hsettle
      exact hqueue.finish c o

theorem Sound.step {e : TimedEvent ι T} (h : s.Sound) (hstep : s.step e = some t) : t.Sound := by
  cases e with
  | tick ns =>
      -- a deadline that is over stays over
      cases hstep
      exact ⟨h.holds, fun j => (h.points j).mono (fun _ hw => hw) (Nat.le_add_right _ ns)⟩
  | call i r =>
      rw [TimedQueue.step] at hstep
      split_ifs at hstep
      obtain ⟨u, hu, rfl⟩ := Option.map_eq_some_iff.mp hstep
      exact (h.settle (enter_serving r) hu).notify r
  | popTimed i ms_timeout =>
      rw [TimedQueue.step] at hstep
      split_ifs at hstep with hcall
      cases hstep
      exact h.move ⟨hcall.2, by simp only [gettimeofday]; omega⟩
  | enter i =>
      rw [TimedQueue.step] at hstep
      split at hstep
      · exact h.settle (enter_serving Request.popTimed) hstep
      · cases hstep
  | wakeup i =>
      rw [TimedQueue.step] at hstep
      split at hstep
      · cases hstep
        exact h.move trivial
      · cases hstep
  | timeout i =>
      rw [TimedQueue.step] at hstep
      split at hstep
      · next c hpoint =>
          split_ifs at hstep with hdeadline
          cases hstep
          -- the wait has recorded the deadline
          have hrecorded := h.points i
          rw [hpoint] at hrecorded
          exact h.move ⟨hrecorded, hdeadline⟩
      · cases hstep
  | resume i =>
      rw [TimedQueue.step] at hstep
      split at hstep
      · exact h.settle (resumePop_serving _) hstep
      · cases hstep
        exact h.fail _
      · cases hstep

/-! ## What a step adds to the records -/

omit [DecidableEq ι] in
theorem Timely.congr (h : s.Timely) (hwaits : t.waits = s.waits)
    (hfailures : t.failures = s.failures) : t.Timely := by
  obtain ⟨hdeadline, hfailure⟩ := h
  rw [← hwaits] at hdeadline
  rw [← hfailures] at hfailure
  exact ⟨hdeadline, hfailure⟩

theorem timely_fail_iff (h : s.Timely) (c : TimedPop) :
    (s.fail i c).Timely ↔ c.due ≤ s.clock ∧ s.queue.m_size = 0 := by
  constructor
  · intro ht
    exact ht.failure ⟨c, s.clock, s.queue.m_size⟩ (List.mem_append_right _ List.mem_cons_self)
  · intro hlast
    refine ⟨h.deadline, fun f hf => ?_⟩
    rcases List.mem_append.mp hf with hold | hnew
    · exact h.failure f hold
    · rw [List.mem_singleton.mp hnew]
      exact hlast

theorem timely_wait_iff (h : s.Timely) (c : TimedPop) :
    (s.wait i (some c)).Timely ↔ c.t.ns = c.due ∧ 0 ≤ c.t.tv_nsec ∧ c.t.tv_nsec < 10 ^ 9 := by
  constructor
  · intro ht
    exact ht.deadline (c, c.t) (List.mem_append_right _ List.mem_cons_self)
  · intro hlast
    refine ⟨fun w hw => ?_, h.failure⟩
    rcases List.mem_append.mp hw with hold | hnew
    · exact h.deadline w hold
    · rw [List.mem_singleton.mp hnew]
      exact hlast

/-- A call without time limit records nothing. -/
theorem Timely.settle_none {x : Except Halt (Option (Outcome T) × BlockQueue T)} (h : s.Timely)
    (hsettle : s.settle i none x = some t) : t.Timely := by
  rw [settle.eq_def] at hsettle
  split at hsettle
  · cases hsettle
  · cases hsettle
    exact h.congr rfl rfl
  · cases hsettle
    exact h.congr rfl rfl

omit [DecidableEq ι] in
theorem Timely.notify (h : s.Timely) (r : Request T) : (s.notify r).Timely := by
  cases r with
  | push x => exact h.congr rfl rfl
  | _ => exact h

/-- A call that takes the lock waits if the queue is empty, and else returns an item. -/
theorem timely_enter_iff {c : TimedPop} (h : s.Sound) (htimely : s.Timely)
    (hpoint : s.point i = .entering c)
    (hsettle : s.settle i (some c) (Request.popTimed.enter.run s.queue) = some t) :
    t.Timely ↔ (s.queue.m_size ≤ 0 → c.now.tv_usec = 0 ∧ 1000 ∣ c.ms_timeout) := by
  obtain ⟨seq, hseq⟩ := h.holds
  have hsize := hseq.size
  have hrecorded := h.points i
  rw [hpoint] at hrecorded
  rw [← TimedPop.t_eq_due_iff hrecorded.1 hrecorded.2]
  cases seq with
  | nil =>
      have hrun : Request.popTimed.enter.run s.queue = .ok (none, s.queue) := by
        simp [Request.enter, BlockQueue.popEnter_run_nil hseq]
      rw [hrun] at hsettle
      cases hsettle
      rw [timely_wait_iff htimely, hsize]
      simp
  | cons x seq =>
      obtain ⟨q, hpop, -⟩ := BlockQueue.popEnter_run_cons hseq
      have hrun : Request.popTimed.enter.run s.queue = .ok (some (.pop (some x)), q) := by
        simp [Request.enter, hpop]
      rw [hrun] at hsettle
      cases hsettle
      refine iff_of_true (htimely.congr rfl rfl) fun hempty => ?_
      rw [hsize, List.length_cons] at hempty
      omega

/-- After a wait that ended normally a call answers `false` if the queue is empty. -/
theorem timely_resume_iff {c : TimedPop} (h : s.Sound) (htimely : s.Timely)
    (hsettle : s.settle i (some c) ((resumePop true).run s.queue) = some t) :
    t.Timely ↔ (s.queue.m_size ≤ 0 → c.due ≤ s.clock) := by
  obtain ⟨seq, hseq⟩ := h.holds
  have hsize := hseq.size
  cases seq with
  | nil =>
      have hrun : (resumePop true).run s.queue = .ok (some (.pop none), s.queue) := by
        simp [resumePop, BlockQueue.popTimedResume_run_nil hseq]
      rw [hrun] at hsettle
      cases hsettle
      have hfail : (s.fail i c).Timely ↔ _ := timely_fail_iff htimely c
      rw [hsize] at hfail ⊢
      simp only [List.length_nil, Nat.cast_zero, and_true, le_refl, true_imp_iff] at hfail ⊢
      exact hfail
  | cons x seq =>
      obtain ⟨q, hpop, -⟩ := BlockQueue.popTimedResume_run_cons hseq
      have hrun : (resumePop true).run s.queue = .ok (some (.pop (some x)), q) := by
        simp [resumePop, hpop]
      rw [hrun] at hsettle
      cases hsettle
      refine iff_of_true (htimely.congr rfl rfl) fun hempty => ?_
      rw [hsize, List.length_cons] at hempty
      omega

/-- After its deadline a call answers `false`. It is due if its deadline was right. -/
theorem timely_expired_iff {c : TimedPop} (h : s.Sound) (htimely : s.Timely)
    (hpoint : s.point i = .expired c) : (s.fail i c).Timely ↔ s.queue.m_size ≤ 0 := by
  obtain ⟨seq, hseq⟩ := h.holds
  have hsize := hseq.size
  have hrecorded := h.points i
  rw [hpoint] at hrecorded
  -- the deadline has been recorded, so it is the right one
  have hdue : c.due ≤ s.clock := by
    rw [← (htimely.deadline _ hrecorded.1).1]
    exact hrecorded.2
  rw [timely_fail_iff htimely]
  omega

/-- A step keeps the records right exactly if it is covered. -/
theorem timely_step_iff {e : TimedEvent ι T} (h : s.Sound) (htimely : s.Timely)
    (hstep : s.step e = some t) : t.Timely ↔ s.Covered e := by
  cases e with
  | tick ns =>
      cases hstep
      exact iff_of_true (htimely.congr rfl rfl) trivial
  | call i r =>
      rw [step] at hstep
      split_ifs at hstep
      obtain ⟨u, hu, rfl⟩ := Option.map_eq_some_iff.mp hstep
      exact iff_of_true ((htimely.settle_none hu).notify r) trivial
  | popTimed i ms_timeout =>
      rw [step] at hstep
      split_ifs at hstep
      cases hstep
      exact iff_of_true (htimely.congr rfl rfl) trivial
  | enter i =>
      rw [step] at hstep
      split at hstep
      · next c hpoint =>
          rw [timely_enter_iff h htimely hpoint hstep, Covered, hpoint]
          simp
      · cases hstep
  | wakeup i =>
      rw [step] at hstep
      split at hstep
      · cases hstep
        exact iff_of_true (htimely.congr rfl rfl) trivial
      · cases hstep
  | timeout i =>
      rw [step] at hstep
      split at hstep
      · split_ifs at hstep
        cases hstep
        exact iff_of_true (htimely.congr rfl rfl) trivial
      · cases hstep
  | resume i =>
      rw [step] at hstep
      split at hstep
      · next c hpoint =>
          rw [Covered, hpoint]
          cases c with
          | none => exact iff_of_true (htimely.settle_none hstep) trivial
          | some c => exact timely_resume_iff h htimely hstep
      · next c hpoint =>
          cases hstep
          rw [Covered, hpoint]
          exact timely_expired_iff h htimely hpoint
      · cases hstep

/-- For every interleaving of any number of threads, at any times: the calls wait as long as they
should exactly if every step is covered. -/
theorem timely_iff [Inhabited T] {max_size : Int} {q : BlockQueue T}
    (hq : BlockQueue.create max_size = some q) (clock : Nat) {l : List (TimedEvent ι T)}
    (hrun : runEvents step (start q clock) l = some t) :
    (Along step (fun s _ => s.Timely) (start q clock) l ∧ t.Timely) ↔
      Along step Covered (start q clock) l :=
  always_iff_along (fun _ _ _ h hstep => h.step hstep)
    (fun _ _ _ h htimely hstep => timely_step_iff h htimely hstep)
    (sound_start (Holds.of_create hq).1 clock) ⟨by simp [start], by simp [start]⟩ hrun

/-- A call on a full second with a limit of one second. -/
theorem timely_iff_one_second :
    ∃ t : TimedQueue (Fin 1) Nat,
      runEvents step (start ⟨[0], 0, 1, -1, -1⟩ 0)
        [.popTimed 0 1000, .enter 0, .tick (10 ^ 9), .timeout 0, .resume 0] = some t ∧ t.Timely := by
  have hq : BlockQueue.create 1 = some (⟨[0], 0, 1, -1, -1⟩ : BlockQueue Nat) := rfl
  refine ⟨_, rfl, ((timely_iff (l := [.popTimed 0 1000, .enter 0, .tick (10 ^ 9), .timeout 0,
    .resume 0]) hq 0 rfl).mpr ?_).2⟩
  refine ⟨trivial, fun c hc _ => ?_, trivial, trivial, ?_, trivial⟩
  · cases hc
    decide
  · exact le_refl (0 : Int)

/-- A call with a limit of half a second waits for half a millisecond. -/
theorem half_second_too_short :
    ∃ t : TimedQueue (Fin 1) Nat,
      runEvents step (start ⟨[0], 0, 1, -1, -1⟩ 0)
        [.popTimed 0 500, .enter 0, .tick 500000, .timeout 0, .resume 0] = some t ∧
      ¬ t.Timely := by
  refine ⟨_, rfl, fun h => ?_⟩
  have hfailure := (h.failure ⟨⟨⟨0, 0⟩, 500⟩, 500000, 0⟩ List.mem_cons_self).1
  exact absurd hfailure (by decide)

end TimedQueue

end CLanguageLearning.WebServer
