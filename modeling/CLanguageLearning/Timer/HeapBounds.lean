import CLanguageLearning.Timer.HeapRuns

/-!
# The bounds of the time heap's array

`add_timer` makes room by doubling the capacity, which gives none when the capacity is 0, and `tick`
looks at the first slot before it asks whether the heap is empty. Both constructors accept a
capacity of 0. As long as neither function is called on an array without slots, and no number of
slots and no index of a child overflows, every access of every operation is inside the array.
-/

set_option autoImplicit false

namespace CLanguageLearning.Timer

open CLanguageLearning.Foundation

/-- What the array has to offer for an operation: a slot for `add_timer` and `tick`, a doubled
capacity that is an `int` when a full array grows, and indices of children that are. -/
def HeapOp.Covered (s : TimeHeap) : HeapOp → Prop
  | add (some _) => 0 < s.capacity ∧ (s.cur_size < s.capacity ∨ 2 * s.capacity ≤ INT_MAX)
  | pop => s.cur_size ≤ 2 ^ 30
  | tick _ => 0 < s.capacity ∧ s.cur_size ≤ 2 ^ 30
  | _ => True

namespace TimeHeap

/-- The states of the runs whose calls are covered, from a heap of any capacity that a constructor
accepts, with the timers that were inserted and have not been popped. -/
inductive CoveredRun : TimeHeap → List HeapEntry → Prop where
  | start {m s : TimeHeap} (c : Construction) (hc : c.Allowed m) (hint : ¬ c.MayOverflow)
      (hrun : Returns c.exec m ((), s)) : CoveredRun s c.held
  | step {s s' : TimeHeap} {held : List HeapEntry} (op : HeapOp) (h : CoveredRun s held)
      (hop : op.Allowed s) (hcov : op.Covered s) (hrun : Returns op.exec s ((), s')) :
      CoveredRun s' (s'.survivors (op.enter held))

/-- The operation returns, and an access outside the array stops a run: every index it uses is below
the capacity, and so is the number of timers it leaves. -/
def InBounds (s : TimeHeap) (op : HeapOp) : Prop :=
  ∃ s', Returns op.exec s ((), s') ∧ s'.cur_size ≤ s'.capacity

section Covered

variable {s : TimeHeap} {held : List HeapEntry} {op : HeapOp}

theorem not_mayOverflow_of_covered (hcov : op.Covered s) : ¬ op.MayOverflow s := by
  rcases op with (_ | e) | x | _ | cur
  · exact id
  · rintro ⟨hfull, hmax⟩
    rcases hcov.2 with hroom | hint
    · omega
    · omega
  · exact id
  · exact not_lt.mpr hcov
  · exact not_lt.mpr hcov.2

/-- An operation without a slot to go to does not look at the array. -/
theorem run_of_no_slot {fuel : Nat} (h : Heaped s held) (hcap : s.capacity = 0)
    (hop : op.Allowed s) (hcov : op.Covered s) :
    ∃ s', (op.exec fuel).run s = .ok ((), s') ∧ Heaped s' (s'.survivors (op.enter held)) := by
  have hroom := h.room
  have hempty : held = [] := by
    rw [← List.length_eq_zero_iff, ← h.cur_size]
    omega
  subst hempty
  rcases op with (_ | e) | (_ | x) | _ | cur
  · exact ⟨s, rfl, h⟩
  · exact absurd hcov.1 (by omega)
  · exact ⟨s, rfl, h⟩
  · obtain ⟨t, ht⟩ := hop
    obtain ⟨s', hrun, h', -⟩ := del_timer_run h ht
    exact ⟨s', hrun, h'⟩
  · exact ⟨s, pop_timer_run_empty h fuel, h⟩
  · exact absurd hcov.1 (by omega)

/-- A covered operation returns in a heap of the surviving timers. -/
theorem exec_run_covered {fuel : Nat} (h : Heaped s held) (hop : op.Allowed s)
    (hcov : op.Covered s) (hfuel : held.length < fuel) :
    ∃ s', (op.exec fuel).run s = .ok ((), s') ∧ Heaped s' (s'.survivors (op.enter held)) := by
  rcases Nat.eq_zero_or_pos s.capacity with hcap | hcap
  · exact run_of_no_slot h hcap hop hcov
  · have hends : Ends (fun _ => False) ((op.exec fuel).run s) fun _ s' => Kept op held s' :=
      exec_ends h hcap op hop hfuel (not_mayOverflow_of_covered hcov)
    cases hrun : (op.exec fuel).run s with
    | ok r => exact ⟨r.2, rfl, (hends.elim hrun).1⟩
    | error e =>
        rw [hrun] at hends
        exact False.elim hends

theorem CoveredRun.heaped (h : CoveredRun s held) : Heaped s held := by
  induction h with
  | start c hc hint hrun =>
      obtain ⟨s', hrun', h', -⟩ := construction_returns hc hint
      cases hrun.unique hrun'
      exact h'
  | @step s s' held op _ hop hcov hrun ih =>
      obtain ⟨N, hN⟩ := hrun
      obtain ⟨s'', hrun', h'⟩ := exec_run_covered ih hop hcov
        (Nat.lt_of_lt_of_le (Nat.lt_succ_self _) (Nat.le_max_right N (held.length + 1)))
      cases (hN (max N (held.length + 1)) (Nat.le_max_left ..)).symm.trans hrun'
      exact h'

theorem slot_run_outside {i : Nat} (h : s.capacity ≤ i) : (slot i).run s = .error .undefined := by
  apply (run_bind_of_ok (run_get s) _).trans
  rw [if_neg (not_lt.mpr h)]
  rfl

theorem setSlot_run_outside {i : Nat} (h : s.capacity ≤ i) (p : Option Nat) :
    (setSlot i p).run s = .error .undefined := by
  apply (run_bind_of_ok (run_get s) _).trans
  rw [if_neg (not_lt.mpr h)]
  rfl

/-- Doubling no slots gives none: the new timer is stored outside the array. -/
theorem add_timer_run_no_slot {x : Nat} (fuel : Nat) (hcap : s.capacity = 0)
    (hsize : s.cur_size = 0) : (add_timer (fuel + 1) (some x)).run s = .error .undefined := by
  have hfull : s.capacity ≤ s.cur_size := by omega
  have hresize : resize.run s = .ok ((), { s with
      capacity := 2 * s.capacity
      array := fun i => if i < s.cur_size then s.array i else none }) := by
    apply (run_bind_of_ok (run_get s) _).trans
    rw [run_bind_of_ok (intValue_run (by omega) s), if_pos (by omega)]
    rfl
  rw [add_timer, if_neg (Option.some_ne_none x)]
  apply (run_bind_of_ok (run_get s) _).trans
  rw [if_pos hfull, run_bind_of_ok hresize, hsize]
  -- the hole is the first slot at once
  refine (run_bind_of_ok rfl _).trans ((run_bind_of_ok rfl _).trans (setSlot_run_outside ?_ _))
  show 2 * s.capacity ≤ 0
  omega

/-- With at most `2 ^ 30` timers only covered operations return. -/
theorem covered_of_returns {s' : TimeHeap} (h : Heaped s held) (hsize : s.cur_size ≤ 2 ^ 30)
    (hrun : Returns op.exec s ((), s')) : op.Covered s := by
  have hroom := h.room
  obtain ⟨N, hN⟩ := hrun
  have hret := hN (N + 1) (Nat.le_succ N)
  rcases op with (_ | e) | x | _ | cur
  · trivial
  · by_contra hcov
    have hstep : (add_timer (N + 1) (some e.id)).run
        { s with timers := Function.update s.timers e.id (some e.timer) } = .ok ((), s') := hret
    rcases Nat.eq_zero_or_pos s.capacity with hcap | hcap
    · have herr := @add_timer_run_no_slot
        { s with timers := Function.update s.timers e.id (some e.timer) } e.id N hcap
        (show s.cur_size = 0 by omega)
      cases herr.symm.trans hstep
    · have hfull : s.capacity ≤ s.cur_size ∧ INT_MAX < 2 * s.capacity := by
        by_contra hnot
        exact hcov ⟨hcap, by omega⟩
      have herr := @add_timer_run_overflow
        { s with timers := Function.update s.timers e.id (some e.timer) } e.id (N + 1)
        hfull.1 hfull.2
      cases herr.symm.trans hstep
  · trivial
  · exact hsize
  · refine ⟨?_, hsize⟩
    by_contra hcap
    -- the first slot is read before anything else
    have herr : (tick cur (N + 1)).run s = .error .undefined :=
      run_bind_of_error (slot_run_outside (by omega)) _
    cases herr.symm.trans hret

end Covered

section Results

variable {s : TimeHeap} {held : List HeapEntry}

theorem top_run_in_bounds (h : Heaped s held) : ∃ p, top.run s = .ok (p, s) := by
  by_cases hsize : s.cur_size = 0
  · refine ⟨none, ?_⟩
    apply (run_bind_of_ok (empty_run s) _).trans
    rw [if_pos (by simpa using hsize)]
    rfl
  · have hroom := h.room
    exact ⟨_, top_run hsize (by omega)⟩

/-- Each constructor, also that of no slots, returns and stays inside the array as long as no index
can overflow. In every run whose operations are covered: the timers fit in the array, `top` reads
inside it, and every covered operation stays inside it and leaves timers that fit, so that the run
goes on. With at most `2 ^ 30` timers an operation that is not covered does not. -/
theorem array_in_bounds (c : Construction) (m : TimeHeap) :
    (c.Allowed m → ¬ c.MayOverflow → ∃ s, Returns c.exec m ((), s) ∧ CoveredRun s c.held) ∧
    ∀ (s : TimeHeap) (held : List HeapEntry), CoveredRun s held →
      s.cur_size ≤ s.capacity ∧ (∃ p, top.run s = .ok (p, s)) ∧
      ∀ op : HeapOp, op.Allowed s →
        (op.Covered s → s.InBounds op ∧ ∀ s', Returns op.exec s ((), s') →
          CoveredRun s' (s'.survivors (op.enter held))) ∧
        (s.cur_size ≤ 2 ^ 30 → s.InBounds op → op.Covered s) := by
  constructor
  · intro hc hint
    obtain ⟨s, hrun, -⟩ := construction_returns hc hint
    exact ⟨s, hrun, .start c hc hint hrun⟩
  · intro s held h
    have hheap := h.heaped
    refine ⟨hheap.room, top_run_in_bounds hheap, fun op hop => ⟨fun hcov => ⟨?_, ?_⟩, ?_⟩⟩
    · obtain ⟨s', hrun, h'⟩ := exec_run_covered hheap hop hcov (Nat.lt_succ_self _)
      exact ⟨s', op.exec_steady.returns hrun, h'.room⟩
    · exact fun s' hrun => .step op h hop hcov hrun
    · rintro hsize ⟨s', hrun, -⟩
      exact covered_of_returns hheap hsize hrun

theorem no_slots_allowed (m : TimeHeap) (cap : Nat) : (Construction.ofCapacity cap).Allowed m :=
  ⟨fun _ he => absurd he List.not_mem_nil, List.nodup_nil, Nat.zero_le _⟩

/-- A heap of one slot to which a timer has been added, about to grow. -/
theorem array_in_bounds_full :
    ∃ s, CoveredRun s [⟨0, 9, none, 0⟩] ∧ s.cur_size ≤ s.capacity ∧
      (∃ p, top.run s = .ok (p, s)) ∧ s.InBounds (.add (some ⟨1, 5, none, 0⟩)) := by
  obtain ⟨hstart, hruns⟩ :=
    array_in_bounds (.ofCapacity 1) ⟨fun _ => none, fun _ => none, 0, 0, []⟩
  obtain ⟨s, hs, hzero⟩ := hstart (no_slots_allowed _ 1) (by decide)
  cases hs.unique ((Construction.exec_steady _).returns (rfl : (Construction.exec _ 0).run _ = _))
  have hone := hzero.step (.add (some ⟨0, 9, none, 0⟩)) rfl ⟨by decide, by decide⟩
    ((HeapOp.exec_steady _).returns (rfl : (HeapOp.exec _ 3).run _ = _))
  obtain ⟨hsize, htop, hops⟩ := hruns _ _ hone
  exact ⟨_, hone, hsize, htop,
    ((hops (.add (some ⟨1, 5, none, 0⟩)) rfl).1 ⟨by decide, Or.inr (by decide)⟩).1⟩

/-- On a heap that is constructed with capacity 0, `add_timer` stores outside the array and `tick`
reads outside it. -/
theorem no_slot_for_first_timer :
    CoveredRun ⟨fun _ => none, fun _ => none, 0, 0, []⟩ [] ∧
      (HeapOp.add (some ⟨0, 9, none, 0⟩)).Allowed ⟨fun _ => none, fun _ => none, 0, 0, []⟩ ∧
      ¬ InBounds ⟨fun _ => none, fun _ => none, 0, 0, []⟩ (.add (some ⟨0, 9, none, 0⟩)) ∧
      ¬ InBounds ⟨fun _ => none, fun _ => none, 0, 0, []⟩ (.tick 0) := by
  have hzero : CoveredRun ⟨fun _ => none, fun _ => none, 0, 0, []⟩ [] :=
    .start (m := ⟨fun _ => none, fun _ => none, 0, 0, []⟩) (.ofCapacity 0) (no_slots_allowed _ 0)
      (by decide) ((Construction.exec_steady _).returns (rfl : (Construction.exec _ 0).run _ = _))
  refine ⟨hzero, rfl, ?_, ?_⟩
  · rintro ⟨s', hrun, -⟩
    exact absurd (covered_of_returns hzero.heaped (by decide) hrun).1 (by decide)
  · rintro ⟨s', hrun, -⟩
    exact absurd (covered_of_returns hzero.heaped (by decide) hrun).1 (by decide)

end Results

end TimeHeap

end CLanguageLearning.Timer
