import CLanguageLearning.Foundation.Transitions
import CLanguageLearning.WebServer.BlockQueue

/-!
# Threads on a blocking queue

`Holds q seq` says that the queue `q` holds the items `seq`, the oldest first. Every body that runs
under the lock is shown to return from such a queue and to serve its call. Then the threads: each
runs outside the queue, waits in a `pop`, or has been woken and is about to take the lock again. A
`push` wakes all that wait, and a wait may end at any time, with or without an error.
-/

set_option autoImplicit false

namespace CLanguageLearning.WebServer

open CLanguageLearning.Foundation

/-- The queue `q` holds the items `seq`. The counter `start` is the number of the oldest item since
the ring was last set up. -/
structure Holds {T : Type} (q : BlockQueue T) (seq : List T) : Prop where
  capacity : q.m_max_size = q.m_array.length
  positive : 0 < q.m_array.length
  size : q.m_size = seq.length
  front : -1 ≤ q.m_front
  back : -1 ≤ q.m_back
  back_lt : q.m_back < q.m_array.length
  back_nonneg : seq ≠ [] → 0 ≤ q.m_back
  window : ∃ start, (q.m_front + 1).toNat % q.m_array.length = start % q.m_array.length ∧
    (q.m_back + 1).toNat % q.m_array.length = (start + seq.length) % q.m_array.length ∧
    Window q.m_array start seq

namespace Holds

variable {T : Type} {q : BlockQueue T} {seq : List T} {x : T}

/-- A queue that has just been set up. -/
theorem nil (hcap : q.m_max_size = q.m_array.length) (hpos : 0 < q.m_array.length)
    (hsize : q.m_size = 0) (hfront : q.m_front = -1) (hback : q.m_back = -1) : Holds q [] where
  capacity := hcap
  positive := hpos
  size := hsize
  front := by omega
  back := by omega
  back_lt := by omega
  back_nonneg := fun h => absurd rfl h
  window := ⟨0, by rw [hfront]; rfl, by rw [hback]; rfl, Window.nil _ 0⟩

theorem of_create [Inhabited T] {max_size : Int} (h : BlockQueue.create max_size = some q) :
    Holds q [] ∧ (q.m_array.length : Int) = max_size := by
  unfold BlockQueue.create at h
  split at h
  · cases h
  · next hpos =>
      cases h
      have hlen : ((List.replicate max_size.toNat (default : T)).length : Int) = max_size := by
        rw [List.length_replicate]
        omega
      exact ⟨Holds.nil hlen.symm (by rw [List.length_replicate]; omega) rfl rfl rfl, hlen⟩

theorem length_le (h : Holds q seq) : seq.length ≤ q.m_array.length := by
  obtain ⟨start, -, -, hw⟩ := h.window
  exact hw.fits

/-- The remainder of an index of the ring, as the code computes it. -/
theorem tmod_eq {i : Int} (hi : -1 ≤ i) (n : Nat) :
    (i + 1).tmod (n : Int) = (((i + 1).toNat % n : Nat) : Int) := by
  obtain ⟨k, hk⟩ := Int.eq_ofNat_of_zero_le (show 0 ≤ i + 1 by omega)
  rw [hk, Int.toNat_natCast, Int.natCast_mod, Int.tmod_eq_emod_of_nonneg (Int.natCast_nonneg k)]

/-- The index after a remainder. -/
theorem succ_mod (k n : Nat) : (((k % n : Nat) : Int) + 1).toNat % n = (k + 1) % n := by
  rw [show (((k % n : Nat) : Int) + 1).toNat = k % n + 1 by omega, Nat.mod_add_mod]

end Holds

namespace BlockQueue

variable {T : Type} {q : BlockQueue T} {seq : List T} {x : T}

theorem readCell_run {k : Nat} (h : q.m_array[k]? = some x) :
    (readCell (k : Int)).run q = .ok (x, q) := by
  simp [readCell, h]

theorem writeCell_run {k : Nat} (h : k < q.m_array.length) (x : T) :
    (writeCell (k : Int) x).run q = .ok ((), { q with m_array := q.m_array.set k x }) := by
  have hk : ¬ ((k : Int) < 0 ∨ (q.m_array.length : Int) ≤ k) := by omega
  simp only [writeCell, StateT.run_bind, StateT.run_get, except_pure, ok_bind, run_ite]
  rw [if_neg hk, Int.toNat_natCast]
  rfl

theorem clear_run (h : Holds q seq) :
    ∃ q', (clear (T := T)).run q = .ok ((), q') ∧ Holds q' [] ∧
      q'.m_array.length = q.m_array.length :=
  ⟨_, rfl, Holds.nil h.capacity h.positive rfl rfl rfl, rfl⟩

theorem full_run (h : Holds q seq) :
    (full (T := T)).run q = .ok (decide (seq.length = q.m_array.length), q) := by
  have hle := h.length_le
  have hiff : q.m_max_size ≤ q.m_size ↔ seq.length = q.m_array.length := by
    rw [h.capacity, h.size]
    omega
  simp [full, hiff]

theorem empty_run (h : Holds q seq) :
    (empty (T := T)).run q = .ok (decide (seq = []), q) := by
  have hiff : q.m_size = 0 ↔ seq = [] := by
    rw [h.size, Int.natCast_eq_zero, List.length_eq_zero_iff]
  simp [empty, hiff]

theorem size_run (h : Holds q seq) : (size (T := T)).run q = .ok ((seq.length : Int), q) := by
  simp [size, h.size]

theorem back_run_nil (h : Holds q []) : (back (T := T)).run q = .ok (none, q) := by
  have hsize : q.m_size = 0 := h.size
  simp [back, hsize]

theorem back_run (h : Holds q (seq ++ [x])) : (back (T := T)).run q = .ok (some x, q) := by
  have hsize : q.m_size ≠ 0 := by
    rw [h.size, List.length_append, List.length_singleton]
    omega
  obtain ⟨start, -, hback, hw⟩ := h.window
  have hnonneg := h.back_nonneg (by simp)
  obtain ⟨k, hk⟩ := Int.eq_ofNat_of_zero_le hnonneg
  have hlt := h.back_lt
  -- the newest item is one cell before the one the next push takes
  have hindex : k = (start + seq.length) % q.m_array.length := by
    rw [hk, show ((k : Int) + 1).toNat = k + 1 by omega, List.length_append, List.length_singleton,
      ← Nat.add_assoc] at hback
    have hmod : k ≡ start + seq.length [MOD q.m_array.length] :=
      Nat.ModEq.add_right_cancel' 1 hback
    rw [← hmod, Nat.mod_eq_of_lt (by omega)]
  have hcell : q.m_array[k]? = some x := by
    rw [hindex]
    exact hw.last
  have hread : (readCell q.m_back).run q = .ok (x, q) := by
    rw [hk]
    exact readCell_run hcell
  simp only [back, StateT.run_bind, StateT.run_get, except_pure, ok_bind, run_ite]
  rw [if_neg hsize, hread]
  rfl

theorem push_run_full (h : Holds q seq) (hfull : seq.length = q.m_array.length) (x : T) :
    (push x).run q = .ok (false, q) := by
  have hle : q.m_max_size ≤ q.m_size := by rw [h.capacity, h.size, hfull]
  simp [push, hle]

/-- The queue after a push that is accepted: the cell behind `m_back` is written. -/
def pushed (q : BlockQueue T) (x : T) : BlockQueue T :=
  { q with
    m_back := (((q.m_back + 1).toNat % q.m_array.length : Nat) : Int)
    m_array := q.m_array.set ((q.m_back + 1).toNat % q.m_array.length) x
    m_size := q.m_size + 1 }

/-- The queue after a pop: `m_front` is the cell of the item that was removed. -/
def taken (q : BlockQueue T) : BlockQueue T :=
  { q with
    m_front := (((q.m_front + 1).toNat % q.m_array.length : Nat) : Int)
    m_size := q.m_size - 1 }

theorem push_run_eq (h : Holds q seq) (hroom : seq.length < q.m_array.length) (x : T) :
    (push x).run q = .ok (true, q.pushed x) := by
  have hlt : ¬ q.m_max_size ≤ q.m_size := by
    rw [h.capacity, h.size]
    omega
  have hback : (q.m_back + 1).tmod q.m_max_size =
      (((q.m_back + 1).toNat % q.m_array.length : Nat) : Int) := by
    rw [h.capacity, Holds.tmod_eq h.back]
  have hindex : (q.m_back + 1).toNat % q.m_array.length < q.m_array.length :=
    Nat.mod_lt _ h.positive
  have hwrite : (writeCell (((q.m_back + 1).toNat % q.m_array.length : Nat) : Int) x).run
      { q with m_back := (((q.m_back + 1).toNat % q.m_array.length : Nat) : Int) } =
        .ok ((), { q with
          m_back := (((q.m_back + 1).toNat % q.m_array.length : Nat) : Int)
          m_array := q.m_array.set ((q.m_back + 1).toNat % q.m_array.length) x }) :=
    writeCell_run (q := { q with m_back := ((_ : Nat) : Int) }) hindex x
  simp only [push, StateT.run_bind, StateT.run_get, StateT.run_modify, except_pure, ok_bind,
    run_ite]
  rw [if_neg hlt, hback, hwrite]
  rfl

theorem push_run (h : Holds q seq) (hroom : seq.length < q.m_array.length) (x : T) :
    ∃ q', (push x).run q = .ok (true, q') ∧ Holds q' (seq ++ [x]) ∧
      q'.m_array.length = q.m_array.length := by
  obtain ⟨start, hstart, hend, hw⟩ := h.window
  have hindex : (q.m_back + 1).toNat % q.m_array.length < q.m_array.length :=
    Nat.mod_lt _ h.positive
  refine ⟨q.pushed x, push_run_eq h hroom x, ?_, List.length_set⟩
  constructor
  case capacity => simpa [pushed] using h.capacity
  case positive => simpa [pushed] using h.positive
  case size => simp [pushed, h.size]
  case front => exact h.front
  case back =>
    show -1 ≤ (((q.m_back + 1).toNat % q.m_array.length : Nat) : Int)
    omega
  case back_lt =>
    show (((q.m_back + 1).toNat % q.m_array.length : Nat) : Int) <
      ((q.m_array.set _ x).length : Int)
    rw [List.length_set]
    exact_mod_cast hindex
  case back_nonneg => exact fun _ => Int.natCast_nonneg _
  case window =>
    -- the index wraps to the cell behind the window
    refine ⟨start, ?_, ?_, ?_⟩
    · rw [pushed, List.length_set]
      exact hstart
    · show ((((q.m_back + 1).toNat % q.m_array.length : Nat) : Int) + 1).toNat %
        (q.m_array.set _ x).length = (start + (seq ++ [x]).length) % (q.m_array.set _ x).length
      rw [List.length_set, List.length_append, List.length_singleton, Holds.succ_mod, Nat.add_mod,
        hend, ← Nat.add_mod, Nat.add_assoc]
    · rw [pushed, hend]
      exact hw.push hroom x

theorem take_run_eq (h : Holds q (x :: seq)) :
    (take (T := T)).run q = .ok (x, q.taken) := by
  obtain ⟨start, hstart, -, hw⟩ := h.window
  have hfront : (q.m_front + 1).tmod q.m_max_size =
      (((q.m_front + 1).toNat % q.m_array.length : Nat) : Int) := by
    rw [h.capacity, Holds.tmod_eq h.front]
  have hread : (readCell (((q.m_front + 1).toNat % q.m_array.length : Nat) : Int)).run
      { q with m_front := (((q.m_front + 1).toNat % q.m_array.length : Nat) : Int) } =
      .ok (x, { q with m_front := (((q.m_front + 1).toNat % q.m_array.length : Nat) : Int) }) := by
    rw [hstart]
    exact readCell_run hw.first
  simp only [take, StateT.run_bind, StateT.run_get, StateT.run_modify, except_pure, ok_bind]
  rw [hfront, hread]
  rfl

theorem take_run (h : Holds q (x :: seq)) :
    ∃ q', (take (T := T)).run q = .ok (x, q') ∧ Holds q' seq ∧
      q'.m_array.length = q.m_array.length := by
  obtain ⟨start, hstart, hend, hw⟩ := h.window
  refine ⟨q.taken, take_run_eq h, ?_, rfl⟩
  constructor
  case capacity => exact h.capacity
  case positive => exact h.positive
  case size => simp [taken, h.size]
  case front =>
    show -1 ≤ (((q.m_front + 1).toNat % q.m_array.length : Nat) : Int)
    omega
  case back => exact h.back
  case back_lt => exact h.back_lt
  case back_nonneg => exact fun _ => h.back_nonneg (List.cons_ne_nil x seq)
  case window =>
    -- the index wraps to the first cell of the window
    refine ⟨start + 1, ?_, ?_, hw.pop⟩
    · show ((((q.m_front + 1).toNat % q.m_array.length : Nat) : Int) + 1).toNat %
        q.m_array.length = (start + 1) % q.m_array.length
      rw [hstart, Holds.succ_mod]
    · show (q.m_back + 1).toNat % q.m_array.length = _
      rw [hend, List.length_cons]
      congr 1
      omega

end BlockQueue

/-! ## Calls -/

/-- A call of a member function. -/
inductive Request (T : Type) where
  | push (item : T)
  | pop
  | popTimed
  | clear
  | size
  | empty
  | full
  | back
  deriving DecidableEq, Repr

namespace Request

variable {T : Type}

/-- Whether the wait of the call has a time limit. -/
def timed : Request T → Bool
  | popTimed => true
  | _ => false

/-- The first body a call runs under the lock, with the outcome if the call ends there. -/
def enter : Request T → Exec (BlockQueue T) (Option (Outcome T))
  | push item => do
      let accepted ← BlockQueue.push item
      return some (.push item accepted)
  | pop | popTimed => do
      let item ← BlockQueue.popEnter
      return item.map Outcome.pop
  | clear => do
      BlockQueue.clear
      return some .clear
  | size => do
      let n ← BlockQueue.size
      return some (.size n)
  | empty => do
      let b ← BlockQueue.empty
      return some (.empty b)
  | full => do
      let b ← BlockQueue.full
      return some (.full b)
  | back => do
      let item ← BlockQueue.back
      return some (.back item)

end Request

/-- What a `pop` runs under the lock after a wait that returned normally. -/
def resumePop {T : Type} (timed : Bool) : Exec (BlockQueue T) (Option (Outcome T)) := do
  let item ← if timed then BlockQueue.popTimedResume else BlockQueue.popResume
  return item.map Outcome.pop

/-- A body that runs under the lock returns from a queue that holds a sequence, and either ends its
call as the sequence has it or leaves the sequence as it is. -/
def Serving {T : Type} (x : Exec (BlockQueue T) (Option (Outcome T))) : Prop :=
  ∀ q seq, Holds q seq → ∃ r q' seq', x.run q = .ok (r, q') ∧ Holds q' seq' ∧
    q'.m_array.length = q.m_array.length ∧
    match r with
    | none => seq' = seq
    | some o => Serves q.m_array.length seq o seq'

section Serving

variable {T : Type} {q : BlockQueue T} {seq : List T}

theorem BlockQueue.popEnter_run_nil (h : Holds q []) :
    (popEnter (T := T)).run q = .ok (none, q) := by
  have hsize : q.m_size ≤ 0 := by
    rw [h.size]
    exact le_refl 0
  simp [popEnter, hsize]

theorem BlockQueue.popEnter_run_cons {x : T} (h : Holds q (x :: seq)) :
    ∃ q', (popEnter (T := T)).run q = .ok (some (some x), q') ∧ Holds q' seq ∧
      q'.m_array.length = q.m_array.length := by
  have hsize : ¬ q.m_size ≤ 0 := by
    rw [h.size, List.length_cons]
    omega
  obtain ⟨q', hrun, hrest⟩ := take_run h
  exact ⟨q', by simp [popEnter, hsize, hrun], hrest⟩

theorem BlockQueue.popTimedResume_run_nil (h : Holds q []) :
    (popTimedResume (T := T)).run q = .ok (some none, q) := by
  have hsize : q.m_size ≤ 0 := by
    rw [h.size]
    exact le_refl 0
  simp [popTimedResume, hsize]

theorem BlockQueue.popTimedResume_run_cons {x : T} (h : Holds q (x :: seq)) :
    ∃ q', (popTimedResume (T := T)).run q = .ok (some (some x), q') ∧ Holds q' seq ∧
      q'.m_array.length = q.m_array.length := by
  have hsize : ¬ q.m_size ≤ 0 := by
    rw [h.size, List.length_cons]
    omega
  obtain ⟨q', hrun, hrest⟩ := take_run h
  exact ⟨q', by simp [popTimedResume, hsize, hrun], hrest⟩

open BlockQueue in
/-- A `pop` up to its first wait. -/
theorem popEnter_serving :
    Serving (do let item ← popEnter (T := T); return item.map Outcome.pop) := by
  intro q seq h
  cases seq with
  | nil => exact ⟨none, q, [], by simp [popEnter_run_nil h], h, rfl, rfl⟩
  | cons x seq =>
      obtain ⟨q', hrun, hholds, hlen⟩ := popEnter_run_cons h
      exact ⟨some (.pop (some x)), q', seq, by simp [hrun], hholds, hlen, Serves.pop seq x⟩

open BlockQueue in
theorem resumePop_serving (timed : Bool) : Serving (resumePop (T := T) timed) := by
  cases timed with
  | false => exact popEnter_serving
  | true =>
      intro q seq h
      cases seq with
      | nil =>
          exact ⟨some (.pop none), q, [], by simp [resumePop, popTimedResume_run_nil h], h, rfl,
            Serves.popFailed []⟩
      | cons x seq =>
          obtain ⟨q', hrun, hholds, hlen⟩ := popTimedResume_run_cons h
          exact ⟨some (.pop (some x)), q', seq, by simp [resumePop, hrun], hholds, hlen,
            Serves.pop seq x⟩

open BlockQueue in
/-- Every member function serves its call. -/
theorem enter_serving (r : Request T) : Serving r.enter := by
  cases r with
  | push x =>
      intro q seq h
      -- with room the item is appended, and a full queue refuses it
      rcases Nat.lt_or_eq_of_le h.length_le with hroom | hfull
      · obtain ⟨q', hrun, hholds, hlen⟩ := push_run h hroom x
        exact ⟨some (.push x true), q', seq ++ [x], by simp [Request.enter, hrun], hholds, hlen,
          Serves.accept seq x hroom⟩
      · exact ⟨some (.push x false), q, seq, by simp [Request.enter, push_run_full h hfull x], h,
          rfl, Serves.refuse seq x hfull⟩
  | pop => exact popEnter_serving
  | popTimed => exact popEnter_serving
  | clear =>
      intro q seq h
      obtain ⟨q', hrun, hholds, hlen⟩ := clear_run h
      exact ⟨some .clear, q', [], by simp [Request.enter, hrun], hholds, hlen, Serves.clear seq⟩
  | size =>
      intro q seq h
      exact ⟨some (.size seq.length), q, seq, by simp [Request.enter, size_run h], h, rfl,
        Serves.size seq⟩
  | empty =>
      intro q seq h
      exact ⟨some (.empty (decide (seq = []))), q, seq, by simp [Request.enter, empty_run h], h,
        rfl, Serves.empty seq _ (by simp)⟩
  | full =>
      intro q seq h
      exact ⟨some (.full (decide (seq.length = q.m_array.length))), q, seq,
        by simp [Request.enter, full_run h], h, rfl, Serves.full seq _ (by simp)⟩
  | back =>
      intro q seq h
      rcases List.eq_nil_or_concat seq with rfl | ⟨seq, x, rfl⟩
      · exact ⟨some (.back none), q, [], by simp [Request.enter, back_run_nil h], h, rfl,
          Serves.backFailed⟩
      · rw [List.concat_eq_append] at h ⊢
        exact ⟨some (.back (some x)), q, seq ++ [x], by simp [Request.enter, back_run h], h, rfl,
          Serves.back seq x⟩

end Serving

/-! ## Threads -/

/-- Where a thread is: outside the member functions, in the wait of a `pop`, or after it and about
to take the lock again. -/
inductive Point where
  | outside
  | waiting (timed : Bool)
  | woken (timed : Bool)
  deriving DecidableEq, Repr

/-- Threads `ι` and the queue they share; `history` has the calls that have returned, in the order
in which their last bodies ran. -/
structure SharedQueue (ι T : Type) where
  queue : BlockQueue T
  point : ι → Point
  history : List (Outcome T)

/-- What can happen next: a call, a wait that ends without a signal, a `pop` that goes on, and one
whose wait returned an error or a timeout. -/
inductive QueueEvent (ι T : Type) where
  | call (i : ι) (r : Request T)
  | wakeup (i : ι)
  | resume (i : ι)
  | giveUp (i : ι)
  deriving DecidableEq, Repr

namespace SharedQueue

variable {ι T : Type} [DecidableEq ι] {s t : SharedQueue ι T} {i : ι} {seq : List T}

/-- All threads outside. -/
def start (q : BlockQueue T) : SharedQueue ι T := ⟨q, fun _ => .outside, []⟩

/-- `m_cond.broadcast()`. -/
def broadcast (point : ι → Point) : ι → Point := fun i =>
  match point i with
  | .waiting timed => .woken timed
  | p => p

/-- The thread `i` has run a body: its call is over or it waits. -/
def settle (s : SharedQueue ι T) (i : ι) (timed : Bool) :
    Except Halt (Option (Outcome T) × BlockQueue T) → Option (SharedQueue ι T)
  | .error _ => none
  | .ok (none, q) =>
      some { s with queue := q, point := Function.update s.point i (.waiting timed) }
  | .ok (some o, q) =>
      some ⟨q, Function.update s.point i .outside, s.history ++ [o]⟩

/-- The broadcast at the end of a push. -/
def notify (s : SharedQueue ι T) : Request T → SharedQueue ι T
  | .push _ => { s with point := broadcast s.point }
  | _ => s

def step (s : SharedQueue ι T) : QueueEvent ι T → Option (SharedQueue ι T)
  | .call i r =>
      if s.point i = .outside then
        (s.settle i r.timed (r.enter.run s.queue)).map fun t => t.notify r
      else none
  | .wakeup i =>
      match s.point i with
      | .waiting timed => some { s with point := Function.update s.point i (.woken timed) }
      | _ => none
  | .resume i =>
      match s.point i with
      | .woken timed => s.settle i timed ((resumePop timed).run s.queue)
      | _ => none
  | .giveUp i =>
      match s.point i with
      | .waiting _ =>
          some ⟨s.queue, Function.update s.point i .outside, s.history ++ [.pop none]⟩
      | _ => none

/-- The history of a state leads from the empty sequence to the one its queue holds. -/
structure Consistent (cap : Nat) (s : SharedQueue ι T) (seq : List T) : Prop where
  holds : Holds s.queue seq
  capacity : s.queue.m_array.length = cap
  served : ServesAll cap [] s.history seq

omit [DecidableEq ι] in
theorem consistent_start {q : BlockQueue T} (h : Holds q []) :
    Consistent q.m_array.length (start (ι := ι) q) [] :=
  ⟨h, rfl, rfl⟩

/-- A body that serves its call keeps a state consistent. -/
theorem Consistent.settle {cap : Nat} (h : Consistent cap s seq) (i : ι) (timed : Bool)
    {x : Exec (BlockQueue T) (Option (Outcome T))} (hx : Serving x) :
    ∃ t seq', s.settle i timed (x.run s.queue) = some t ∧ Consistent cap t seq' := by
  obtain ⟨r, q', seq', hrun, hholds, hlen, hserves⟩ := hx s.queue seq h.holds
  rw [hrun]
  cases r with
  | none =>
      subst hserves
      exact ⟨_, _, rfl, hholds, hlen.trans h.capacity, h.served⟩
  | some o =>
      rw [h.capacity] at hserves
      exact ⟨_, _, rfl, hholds, hlen.trans h.capacity, h.served.concat hserves⟩

omit [DecidableEq ι] in
theorem Consistent.notify {cap : Nat} (h : Consistent cap s seq) (r : Request T) :
    Consistent cap (s.notify r) seq := by
  cases r with
  | push x => exact ⟨h.holds, h.capacity, h.served⟩
  | _ => exact h

/-- No body stops: a thread outside can make every call. -/
theorem Consistent.call {cap : Nat} (h : Consistent cap s seq) (hi : s.point i = .outside)
    (r : Request T) : ∃ t seq', s.step (.call i r) = some t ∧ Consistent cap t seq' := by
  obtain ⟨t, seq', hsettle, hcons⟩ := h.settle i r.timed (enter_serving r)
  refine ⟨t.notify r, seq', ?_, hcons.notify r⟩
  rw [step, if_pos hi, hsettle]
  rfl

/-- A thread that has been woken can go on. -/
theorem Consistent.resume {cap : Nat} {timed : Bool} (h : Consistent cap s seq)
    (hi : s.point i = .woken timed) :
    ∃ t seq', s.step (.resume i) = some t ∧ Consistent cap t seq' := by
  obtain ⟨t, seq', hsettle, hcons⟩ := h.settle i timed (resumePop_serving timed)
  refine ⟨t, seq', ?_, hcons⟩
  rw [step, hi]
  exact hsettle

theorem Consistent.step {cap : Nat} {e : QueueEvent ι T} (h : Consistent cap s seq)
    (hstep : s.step e = some t) : ∃ seq', Consistent cap t seq' := by
  cases e with
  | call i r =>
      -- a thread inside another call makes none
      by_cases hi : s.point i = .outside
      · obtain ⟨u, seq', hu, hcons⟩ := h.call hi r
        rw [hstep] at hu
        cases hu
        exact ⟨seq', hcons⟩
      · rw [SharedQueue.step, if_neg hi] at hstep
        cases hstep
  | wakeup i =>
      rw [SharedQueue.step] at hstep
      split at hstep
      · cases hstep
        exact ⟨seq, h.holds, h.capacity, h.served⟩
      · cases hstep
  | resume i =>
      cases hi : s.point i with
      | woken timed =>
          obtain ⟨u, seq', hu, hcons⟩ := h.resume hi
          rw [hstep] at hu
          cases hu
          exact ⟨seq', hcons⟩
      | _ =>
          rw [SharedQueue.step, hi] at hstep
          cases hstep
  | giveUp i =>
      rw [SharedQueue.step] at hstep
      split at hstep
      · cases hstep
        exact ⟨seq, h.holds, h.capacity, h.served.concat (Serves.popFailed seq)⟩
      · cases hstep

theorem consistent_run {q : BlockQueue T} {l : List (QueueEvent ι T)} (hq : Holds q [])
    (hrun : runEvents SharedQueue.step (start q) l = some t) :
    ∃ seq, Consistent q.m_array.length t seq :=
  invariant (I := fun u => ∃ seq, Consistent q.m_array.length u seq)
    (fun _ _ _ ⟨_, hseq⟩ hstep => hseq.step hstep) ⟨[], consistent_start hq⟩ hrun

/-- For every interleaving of any number of threads, the calls that have returned have been served
by one sequence of at most `max_size` items, and the queue holds that sequence. What was accepted
has left it in order or is still in it; a thread is never stopped inside a body. -/
theorem bounded_fifo [Inhabited T] {max_size : Int} {q : BlockQueue T}
    (hq : BlockQueue.create max_size = some q) {l : List (QueueEvent ι T)}
    (hrun : runEvents SharedQueue.step (start q) l = some t) :
    ∃ seq, ServesAll max_size.toNat [] t.history seq ∧ Holds t.queue seq ∧
      (seq.length : Int) ≤ max_size ∧
      (∃ removed, accepted t.history = removed ++ seq ∧ (popped t.history).Sublist removed ∧
        (Outcome.clear ∉ t.history → removed = popped t.history)) ∧
      (∀ i r, t.point i = .outside → ∃ u, t.step (.call i r) = some u) ∧
      ∀ i timed, t.point i = .woken timed → ∃ u, t.step (.resume i) = some u := by
  obtain ⟨hholds, hlen⟩ := Holds.of_create hq
  obtain ⟨seq, hseq⟩ := consistent_run hholds hrun
  have hcap : q.m_array.length = max_size.toNat := by omega
  rw [hcap] at hseq
  refine ⟨seq, hseq.served, hseq.holds, ?_, hseq.served.account, ?_, ?_⟩
  · have hle := hseq.holds.length_le
    rw [hseq.capacity] at hle
    omega
  · intro i r hi
    obtain ⟨u, -, hu, -⟩ := hseq.call hi r
    exact ⟨u, hu⟩
  · intro i timed hi
    obtain ⟨u, -, hu, -⟩ := hseq.resume hi
    exact ⟨u, hu⟩

/-- A thread waits for an item, a second one pushes two into a queue with one cell. -/
theorem bounded_fifo_one_cell :
    ∃ t : SharedQueue (Fin 2) Nat,
      runEvents SharedQueue.step (start ⟨[0], 0, 1, -1, -1⟩)
        [.call 0 .pop, .call 1 (.push 7), .call 1 (.push 8), .resume 0] = some t ∧
      t.history = [.push 7 true, .push 8 false, .pop (some 7)] ∧
      ∃ seq, ServesAll 1 [] t.history seq ∧ (seq.length : Int) ≤ 1 := by
  refine ⟨_, rfl, rfl, ?_⟩
  have hq : BlockQueue.create 1 = some (⟨[0], 0, 1, -1, -1⟩ : BlockQueue Nat) := rfl
  obtain ⟨seq, hserved, -, hle, -⟩ := bounded_fifo (ι := Fin 2) hq
    (l := [.call 0 .pop, .call 1 (.push 7), .call 1 (.push 8), .resume 0]) rfl
  exact ⟨seq, hserved, hle⟩

end SharedQueue

end CLanguageLearning.WebServer
