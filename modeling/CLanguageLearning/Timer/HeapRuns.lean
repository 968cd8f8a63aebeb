import CLanguageLearning.Timer.HeapSteps

/-!
# Runs of the time heap

A run starts with one of the constructors and applies operations. In each of its states the array
holds the timers that were inserted and have not been popped, in heap order. A popped timer is one
whose memory is free: only `pop_timer` deletes timers. A call may compute a number that is no `int`
when the heap has more than `2 ^ 30` timers or must grow beyond as many slots (`MayOverflow`); every
other call returns.
-/

set_option autoImplicit false

namespace CLanguageLearning.Timer

open CLanguageLearning.Foundation

/-- The operations on a time heap; `none` stands for a null pointer. -/
inductive HeapOp where
  | add (e : Option HeapEntry)
  | del (x : Option Nat)
  | pop
  | tick (cur : Int)
  deriving DecidableEq, Repr

namespace HeapOp

/-- The call of the member function, for a new timer after its allocation. -/
def exec : HeapOp → Nat → Exec TimeHeap Unit
  | add none, fuel => TimeHeap.add_timer fuel none
  | add (some e), fuel => do
      TimeHeap.newTimer e.id e.timer
      TimeHeap.add_timer fuel (some e.id)
  | del x, _ => TimeHeap.del_timer x
  | pop, fuel => TimeHeap.pop_timer fuel
  | tick cur, fuel => TimeHeap.tick cur fuel

/-- What a user has to provide: a new timer at a free address, and a timer in memory to delete. -/
def Allowed (s : TimeHeap) : HeapOp → Prop
  | add (some e) => s.timers e.id = none
  | del (some x) => ∃ t, s.timers x = some t
  | _ => True

/-- The operation may compute a number of slots or an index that is no `int`. -/
def MayOverflow (s : TimeHeap) : HeapOp → Prop
  | add (some _) => s.capacity ≤ s.cur_size ∧ INT_MAX < 2 * s.capacity
  | pop => 2 ^ 30 < s.cur_size
  | tick _ => 2 ^ 30 < s.cur_size
  | _ => False

/-- The inserted timers after an operation, those that it pops included. -/
def enter (held : List HeapEntry) : HeapOp → List HeapEntry
  | add (some e) => e :: held
  | del (some x) => held.map (HeapEntry.mute x)
  | _ => held

end HeapOp

/-- The calls of the constructors. -/
inductive Construction where
  | ofCapacity (cap : Nat)
  | ofArray (init : List HeapEntry) (capacity : Nat)
  deriving DecidableEq, Repr

namespace Construction

def exec : Construction → Nat → Exec TimeHeap Unit
  | ofCapacity cap, _ => TimeHeap.ofCapacity cap
  | ofArray init capacity, fuel =>
      TimeHeap.ofArray fuel (fun i => (init[i]?).map HeapEntry.id) init.length capacity

/-- The timers that the heap starts with. -/
def held : Construction → List HeapEntry
  | ofCapacity _ => []
  | ofArray init _ => init

def capacity : Construction → Nat
  | ofCapacity cap => cap
  | ofArray _ capacity => capacity

/-- What a user has to provide: different timers in memory, for which the array has room. -/
def Allowed (m : TimeHeap) (c : Construction) : Prop :=
  (∀ e ∈ c.held, m.timers e.id = some e.timer) ∧ (c.held.map HeapEntry.id).Nodup ∧
    c.held.length ≤ c.capacity

/-- Ordering so many timers may compute an index that is no `int`. -/
def MayOverflow (c : Construction) : Prop := 2 ^ 30 < c.held.length

instance (c : Construction) : Decidable c.MayOverflow :=
  inferInstanceAs (Decidable (2 ^ 30 < c.held.length))

end Construction

namespace TimeHeap

/-- The entries whose timers have not been deleted. -/
def survivors (s : TimeHeap) (held : List HeapEntry) : List HeapEntry :=
  held.filter fun e => (s.timers e.id).isSome

section Steady

theorem percolateLoop_steady (temp : Option Nat) (hole : Nat) :
    Steady fun fuel => percolateLoop temp fuel hole := by
  refine .of_succ fun fuel => ?_
  induction fuel generalizing hole with
  | zero => exact .of_throw _ _
  | succ fuel ih =>
      refine .next fun _ => .next fun _ => .ite ?_ (.refl _)
      refine .next fun child => .next fun _ => .next fun _ => .next fun _ => .ite ?_ (.refl _)
      exact .next fun _ => ih child

theorem percolate_down_steady (hole : Nat) : Steady fun fuel => percolate_down fuel hole :=
  fun fuel fuel' hle => .next fun temp =>
    .bind (percolateLoop_steady temp hole fuel fuel' hle) fun _ => .refl _

theorem siftLoop_steady (timer : Option Nat) (hole : Nat) :
    Steady fun fuel => siftLoop timer fuel hole := by
  refine .of_succ fun fuel => ?_
  induction fuel generalizing hole with
  | zero => exact .of_throw _ _
  | succ fuel ih =>
      refine .ite (.refl _) (.next fun _ => .next fun _ => .next fun _ => .ite (.refl _) ?_)
      exact .next fun _ => ih ((hole - 1) / 2)

theorem add_timer_steady (timer : Option Nat) : Steady fun fuel => add_timer fuel timer := by
  intro fuel fuel' hle
  refine .ite (.refl _) (.next fun s => .next fun _ => .next fun _ => ?_)
  exact .bind (siftLoop_steady timer s.cur_size fuel fuel' hle) fun _ => .refl _

theorem pop_timer_steady : Steady pop_timer := by
  intro fuel fuel' hle
  refine .next fun _ => .ite (.refl _) (.next fun _ => .ite (.refl _) ?_)
  refine .next fun _ => .next fun _ => .next fun _ => .next fun _ => .next fun _ => ?_
  exact percolate_down_steady 0 fuel fuel' hle

theorem tickLoop_steady (cur : Int) (tmp : Option Nat) :
    Steady fun fuel => tickLoop cur fuel tmp := by
  refine .of_succ fun fuel => ?_
  induction fuel generalizing tmp with
  | zero => exact .of_throw _ _
  | succ fuel ih =>
      refine .next fun _ => .ite (.refl _) (.ite (.refl _) (.next fun _ => .ite (.refl _) ?_))
      refine .next fun _ => .next fun _ => .bind ?_ fun _ => .next fun tmp => ih tmp
      exact pop_timer_steady fuel (fuel + 1) (Nat.le_succ fuel)

theorem tick_steady (cur : Int) : Steady (tick cur) :=
  fun fuel fuel' hle => .next fun tmp => tickLoop_steady cur tmp fuel fuel' hle

theorem heapify_steady (i : Nat) : Steady fun fuel => heapify fuel i := by
  induction i with
  | zero => exact percolate_down_steady 0
  | succ i ih =>
      intro fuel fuel' hle
      exact .bind (percolate_down_steady (i + 1) fuel fuel' hle) fun _ => ih fuel fuel' hle

theorem ofArray_steady (init_array : Nat → Option Nat) (size capacity : Nat) :
    Steady fun fuel => ofArray fuel init_array size capacity := by
  intro fuel fuel' hle
  refine .ite (.refl _) (.next fun _ => .ite (.refl _) ?_)
  exact heapify_steady ((size - 1) / 2) fuel fuel' hle

end Steady

end TimeHeap

theorem Construction.exec_steady (c : Construction) : Steady c.exec := by
  cases c with
  | ofCapacity cap => exact fun _ _ _ => .refl _
  | ofArray init capacity => exact TimeHeap.ofArray_steady _ _ _

theorem HeapOp.exec_steady (op : HeapOp) : Steady op.exec := by
  intro fuel fuel' hle
  rcases op with (_ | e) | x | _ | cur
  · exact .refl _
  · exact .next fun _ => TimeHeap.add_timer_steady _ fuel fuel' hle
  · exact .refl _
  · exact TimeHeap.pop_timer_steady fuel fuel' hle
  · exact TimeHeap.tick_steady cur fuel fuel' hle

namespace TimeHeap

/-! ## One step -/

section Step

variable {s s' : TimeHeap} {held held' rest g : List HeapEntry}

theorem Heaped.perm (h : Heaped s held) (hp : held.Perm held') : Heaped s held' := by
  obtain ⟨hnodup, b, hb, hperm⟩ := h
  exact ⟨(hp.map _).nodup_iff.mp hnodup, b, hb, hperm.trans hp⟩

/-- The timers of a heap are in memory. -/
theorem Heaped.stored (h : Heaped s held) {e : HeapEntry} (he : e ∈ held) :
    s.timers e.id = some e.timer := by
  obtain ⟨b, hb, hperm⟩ := h.heap
  obtain ⟨i, hi, rfl⟩ := mem_slots.mp (hperm.mem_iff.mpr he)
  exact hb.holds.stored i hi

/-- When some entries have lost their timers, the others survive. -/
theorem Heaped.survivors_perm (h : Heaped s rest) (hperm : held.Perm (g ++ rest))
    (hgone : ∀ e ∈ g, s.timers e.id = none) : (s.survivors held).Perm rest := by
  apply (hperm.filter _).trans
  rw [List.filter_append, List.filter_eq_nil_iff.mpr, List.filter_eq_self.mpr, List.nil_append]
  · intro e he
    rw [h.stored he]
    rfl
  · intro e he
    rw [hgone e he]
    exact Bool.false_ne_true

/-- On an empty heap `pop_timer` does nothing. -/
theorem pop_timer_run_empty (h : Heaped s []) (fuel : Nat) :
    (pop_timer fuel).run s = .ok ((), s) := by
  apply (run_bind_of_ok (empty_run s) _).trans
  rw [if_pos (by rw [h.cur_size]; rfl)]
  rfl

/-- What an operation leaves: a heap of the surviving timers, whose array has room. -/
def Kept (op : HeapOp) (held : List HeapEntry) (s' : TimeHeap) : Prop :=
  Heaped s' (s'.survivors (op.enter held)) ∧ 0 < s'.capacity

/-- When nothing is popped, all timers survive. -/
theorem Kept.of_heaped {op : HeapOp} (h : Heaped s' (op.enter held)) (hcap : 0 < s'.capacity) :
    Kept op held s' :=
  ⟨h.perm (h.survivors_perm (g := []) (.refl _) fun e he => by cases he).symm, hcap⟩

theorem Heaped.room (h : Heaped s held) : s.cur_size ≤ s.capacity := by
  obtain ⟨b, hb, -⟩ := h.heap
  exact hb.holds.room

/-- Every operation returns in a heap of the surviving timers, unless a number overflows. -/
theorem exec_ends {fuel : Nat} {stops : Halt → Prop} (h : Heaped s held) (hcap : 0 < s.capacity)
    (op : HeapOp) (hop : op.Allowed s) (hfuel : held.length < fuel)
    (hstops : op.MayOverflow s → stops .overflow) :
    Ends stops ((op.exec fuel).run s) fun _ s' => Kept op held s' := by
  have hsize := h.cur_size
  rcases op with (_ | e) | (_ | x) | _ | cur
  · exact .of_ok rfl (.of_heaped h hcap)
  · have hnew := h.newTimer hop e.timer
    have hst : Function.update s.timers e.id (some e.timer) e.id = some e.timer :=
      Function.update_self ..
    refine .next rfl ((add_timer_ends hnew hcap hst (h.fresh hop) hfuel
      fun hfull hmax => hstops ⟨hfull, hmax⟩).mono ?_)
    rintro - s' ⟨h', -, -, hcap'⟩
    exact .of_heaped h' hcap'
  · exact .of_ok rfl (.of_heaped h hcap)
  · obtain ⟨t, ht⟩ := hop
    obtain ⟨s', hrun, h', -, hcap'⟩ := del_timer_run h ht
    exact .of_ok hrun (.of_heaped h' (by rw [hcap']; exact hcap))
  · by_cases hne : held = []
    · subst hne
      exact .of_ok (pop_timer_run_empty h fuel) (.of_heaped h hcap)
    · apply (pop_timer_ends h hne hfuel.le fun hn => hstops (lt_of_lt_of_eq hn hsize.symm)).mono
      rintro - s' ⟨e, rest, hperm, -, -, h', htimers, -, hcap'⟩
      refine ⟨h'.perm (h'.survivors_perm (g := [e]) hperm ?_).symm, by rw [hcap']; exact hcap⟩
      intro e' he'
      rw [List.mem_singleton.mp he', htimers, Function.update_self]
  · apply (tick_ends h hcap hfuel fun hn => hstops (lt_of_lt_of_eq hn hsize.symm)).mono
    rintro - s' ⟨fired, rest, ht⟩
    exact ⟨ht.heaped.perm (ht.heaped.survivors_perm ht.split ht.freed).symm,
      by rw [ht.capacity]; exact hcap⟩

/-- A constructor makes a heap of the timers it is given, unless an index overflows. -/
theorem construction_ends {m : TimeHeap} {c : Construction} {fuel : Nat} {stops : Halt → Prop}
    (hc : c.Allowed m) (hfuel : c.held.length ≤ fuel) (hstops : c.MayOverflow → stops .overflow) :
    Ends stops ((c.exec fuel).run m) fun _ s' =>
      Heaped s' c.held ∧ s'.capacity = c.capacity ∧ s'.timers = m.timers ∧ s'.calls = m.calls := by
  obtain ⟨hst, hnodup, hcap⟩ := hc
  cases c with
  | ofCapacity cap =>
      obtain ⟨s', hrun, h', hcap', hcalls⟩ := ofCapacity_run m cap
      cases hrun
      exact .of_ok rfl ⟨h', rfl, rfl, rfl⟩
  | ofArray init capacity => exact ofArray_ends hst hnodup hcap hfuel hstops

/-- A constructor returns as long as no index can overflow. -/
theorem construction_returns {m : TimeHeap} {c : Construction} (hc : c.Allowed m)
    (hint : ¬ c.MayOverflow) :
    ∃ s, Returns c.exec m ((), s) ∧ Heaped s c.held ∧ s.capacity = c.capacity := by
  have hends : Ends (fun _ => False) ((c.exec c.held.length).run m) _ :=
    construction_ends hc le_rfl hint
  cases hrun : (c.exec c.held.length).run m with
  | ok r =>
      obtain ⟨h, hcap, -⟩ := hends.elim hrun
      exact ⟨r.2, c.exec_steady.returns hrun, h, hcap⟩
  | error e =>
      rw [hrun] at hends
      exact False.elim hends

/-- An operation returns as long as no number can overflow. -/
theorem exec_returns (h : Heaped s held) (hcap : 0 < s.capacity) {op : HeapOp}
    (hop : op.Allowed s) (hint : ¬ op.MayOverflow s) : ∃ s', Returns op.exec s ((), s') := by
  have hends : Ends (fun _ => False) ((op.exec (held.length + 1)).run s) _ :=
    exec_ends h hcap op hop (Nat.lt_succ_self _) hint
  cases hrun : (op.exec (held.length + 1)).run s with
  | ok r => exact ⟨r.2, op.exec_steady.returns hrun⟩
  | error e =>
      rw [hrun] at hends
      exact False.elim hends

/-- With at most `2 ^ 30` timers an operation that may overflow does not return. -/
theorem not_mayOverflow_of_returns {op : HeapOp} (hsize : s.cur_size ≤ 2 ^ 30)
    (hrun : Returns op.exec s ((), s')) : ¬ op.MayOverflow s := by
  obtain ⟨N, hN⟩ := hrun
  have hret := hN N le_rfl
  rcases op with (_ | e) | x | _ | cur
  · exact id
  · -- the array is full and cannot be doubled
    rintro ⟨hfull, hmax⟩
    have hover := @add_timer_run_overflow
      { s with timers := Function.update s.timers e.id (some e.timer) } e.id N hfull hmax
    cases hover.symm.trans hret
  · exact id
  · exact not_lt.mpr hsize
  · exact not_lt.mpr hsize

end Step

/-! ## Runs -/

/-- The states of runs, with the timers that were inserted and have not been popped. -/
inductive Reachable : TimeHeap → List HeapEntry → Prop where
  | ofCapacity {m s : TimeHeap} (cap : Nat) (hcap : 1 ≤ cap)
      (hrun : (ofCapacity cap).run m = .ok ((), s)) : Reachable s []
  | ofArray {m s : TimeHeap} (init : List HeapEntry) (capacity : Nat)
      (hst : ∀ e ∈ init, m.timers e.id = some e.timer) (hnodup : (init.map HeapEntry.id).Nodup)
      (hcap : max init.length 1 ≤ capacity)
      (hrun : Returns (fun fuel => ofArray fuel (fun i => (init[i]?).map HeapEntry.id) init.length
        capacity) m ((), s)) : Reachable s init
  | step {s s' : TimeHeap} {held : List HeapEntry} (op : HeapOp) (h : Reachable s held)
      (hop : op.Allowed s) (hrun : Returns op.exec s ((), s')) :
      Reachable s' (s'.survivors (op.enter held))

section Runs

variable {s s' : TimeHeap} {held : List HeapEntry}

theorem Reachable.heaped (h : Reachable s held) : Heaped s held ∧ 0 < s.capacity := by
  induction h with
  | @ofCapacity m s cap hcap hrun =>
      obtain ⟨s', hrun', h', hcap', -⟩ := ofCapacity_run m cap
      cases hrun.symm.trans hrun'
      exact ⟨h', by rw [hcap']; exact hcap⟩
  | ofArray init capacity hst hnodup hcap hrun =>
      obtain ⟨N, hN⟩ := hrun
      have hends := @ofArray_ends _ init (Eq .overflow) _ capacity hst hnodup (by omega)
        (Nat.le_max_right N init.length) fun _ => rfl
      obtain ⟨h', hcap', -⟩ := hends.elim (hN (max N init.length) (Nat.le_max_left ..))
      exact ⟨h', by omega⟩
  | @step s s' held op _ hop hrun ih =>
      obtain ⟨N, hN⟩ := hrun
      have hends : Ends (Eq .overflow) ((op.exec (max N (held.length + 1))).run s) _ :=
        exec_ends ih.1 ih.2 op hop
          (Nat.lt_of_lt_of_le (Nat.lt_succ_self _) (Nat.le_max_right N _)) fun _ => rfl
      exact hends.elim (hN (max N (held.length + 1)) (Nat.le_max_left ..))

/-- The array holds the timers `held` in heap order, and `top` returns the first to expire. -/
structure WellFormed (s : TimeHeap) (held : List HeapEntry) : Prop where
  room : s.cur_size ≤ s.capacity
  array : ∃ b : Nat → HeapEntry, (slots s.cur_size b).Perm held ∧
    (∀ i, i < s.cur_size → s.array i = some (b i).id ∧ s.timers (b i).id = some (b i).timer) ∧
    ∀ i, 0 < i → i < s.cur_size → (b ((i - 1) / 2)).expire ≤ (b i).expire
  distinct : (held.map HeapEntry.id).Nodup
  top_null : top.run s = .ok (none, s) ↔ s.cur_size = 0
  top_least : s.cur_size ≠ 0 → ∃ e ∈ held, top.run s = .ok (some e.id, s) ∧
    ∀ e' ∈ held, e.expire ≤ e'.expire

theorem top_run (hsize : s.cur_size ≠ 0) (hcap : 0 < s.capacity) :
    top.run s = .ok (s.array 0, s) := by
  apply (run_bind_of_ok (empty_run s) _).trans
  rw [if_neg (by simpa using hsize)]
  exact slot_run hcap

theorem Heaped.cur_size_ne_zero (h : Heaped s held) : s.cur_size ≠ 0 ↔ held ≠ [] := by
  rw [h.cur_size, Ne, List.length_eq_zero_iff]

theorem Heaped.wellFormed (h : Heaped s held) (hcap : 0 < s.capacity) : s.WellFormed held := by
  have hsize := h.cur_size_ne_zero
  obtain ⟨b, hb, hperm⟩ := h.heap
  refine ⟨hb.holds.room, ⟨b, hperm, ?_, ?_⟩, h.nodup, ⟨?_, ?_⟩, ?_⟩
  · exact fun i hi => ⟨hb.holds.slots i hi, hb.holds.stored i hi⟩
  · exact fun i hpos hi => hb.order _ i (Nat.zero_le _) hi (child_parent hpos)
  · intro htop
    by_contra hpos
    obtain ⟨e, -, harray, -⟩ := h.first (hsize.mp hpos)
    rw [top_run hpos hcap, harray] at htop
    cases htop
  · intro hzero
    apply (run_bind_of_ok (empty_run s) _).trans
    rw [if_pos (by simpa using hzero)]
    rfl
  · intro hpos
    obtain ⟨e, he, harray, -, -, hmin⟩ := h.first (hsize.mp hpos)
    exact ⟨e, he, by rw [top_run hpos hcap, harray], hmin⟩

/-- What `pop_timer` does: nothing on an empty heap, and otherwise it deletes one timer, the one at
the top, which is one of the first to expire. -/
theorem pop_timer_least (h : Heaped s held) (hcap : 0 < s.capacity)
    (hrun : Returns pop_timer s ((), s')) :
    (held = [] → s' = s) ∧ (held ≠ [] → ∃ e, top.run s = .ok (some e.id, s) ∧
      held.Perm (e :: s'.survivors held) ∧ ∀ e' ∈ held, e.expire ≤ e'.expire) := by
  obtain ⟨N, hN⟩ := hrun
  have hrun' := hN (max N held.length) (Nat.le_max_left ..)
  refine ⟨?_, ?_⟩
  · rintro rfl
    cases hrun'.symm.trans (pop_timer_run_empty h _)
    rfl
  · intro hne
    have hends := @pop_timer_ends _ _ (Eq .overflow) _ h hne (Nat.le_max_right N _) fun _ => rfl
    obtain ⟨e, rest, hperm, harray, hmin, h', htimers, -⟩ := hends.elim hrun'
    have hsurvive : (s'.survivors held).Perm rest := by
      apply h'.survivors_perm (g := [e]) hperm
      intro x hx
      rw [List.mem_singleton.mp hx, htimers, Function.update_self]
    refine ⟨e, ?_, hperm.trans (hsurvive.symm.cons e), hmin⟩
    rw [top_run (h.cur_size_ne_zero.mpr hne) hcap, harray]

/-- The runs start with every constructor whose timers are not too many, and no run gets stuck where
no number can overflow. -/
theorem Reachable.of_construction {m : TimeHeap} {c : Construction} (hc : c.Allowed m)
    (hpos : 1 ≤ c.capacity) (hrun : Returns c.exec m ((), s)) : Reachable s c.held := by
  cases c with
  | ofCapacity cap =>
      obtain ⟨N, hN⟩ := hrun
      exact .ofCapacity cap hpos (hN N le_rfl)
  | ofArray init capacity =>
      obtain ⟨hst, hnodup, hcap⟩ := hc
      exact .ofArray init capacity hst hnodup (max_le hcap hpos) hrun

/-- Each constructor starts a run as long as no index can overflow. In every run the heap is
well-formed and `pop_timer` removes one of the first timers to expire. Every next operation returns
in a state of the run as long as no number can overflow; with at most `2 ^ 30` timers it returns
only then. -/
theorem time_heap_wellFormed (c : Construction) (m : TimeHeap) :
    (c.Allowed m → 1 ≤ c.capacity → ¬ c.MayOverflow →
      ∃ s, Returns c.exec m ((), s) ∧ Reachable s c.held) ∧
    ∀ (s : TimeHeap) (held : List HeapEntry), Reachable s held →
      s.WellFormed held ∧
      (∀ s', Returns pop_timer s ((), s') →
        (held = [] → s' = s) ∧ (held ≠ [] → ∃ e, top.run s = .ok (some e.id, s) ∧
          held.Perm (e :: s'.survivors held) ∧ ∀ e' ∈ held, e.expire ≤ e'.expire)) ∧
      ∀ op : HeapOp, op.Allowed s →
        (¬ op.MayOverflow s →
          ∃ s', Returns op.exec s ((), s') ∧ Reachable s' (s'.survivors (op.enter held))) ∧
        (s.cur_size ≤ 2 ^ 30 → (∃ s', Returns op.exec s ((), s')) → ¬ op.MayOverflow s) := by
  constructor
  · intro hc hpos hint
    obtain ⟨s, hrun, -⟩ := construction_returns hc hint
    exact ⟨s, hrun, .of_construction hc hpos hrun⟩
  · intro s held h
    obtain ⟨hh, hcap⟩ := h.heaped
    refine ⟨hh.wellFormed hcap, fun s' hrun => pop_timer_least hh hcap hrun, fun op hop => ⟨?_, ?_⟩⟩
    · intro hint
      obtain ⟨s', hrun⟩ := exec_returns hh hcap hop hint
      exact ⟨s', hrun, .step op h hop hrun⟩
    · rintro hsize ⟨s', hrun⟩
      exact not_mayOverflow_of_returns hsize hrun

/-- A heap is made of two timers, and a third one is added to the full array. -/
theorem time_heap_wellFormed_three :
    ∃ s s', Reachable s [⟨0, 9, some 4, 0⟩, ⟨1, 5, some 4, 1⟩] ∧
      s.WellFormed [⟨0, 9, some 4, 0⟩, ⟨1, 5, some 4, 1⟩] ∧
      Returns (HeapOp.add (some ⟨2, 7, some 4, 2⟩)).exec s ((), s') ∧
      s'.WellFormed (s'.survivors [⟨2, 7, some 4, 2⟩, ⟨0, 9, some 4, 0⟩, ⟨1, 5, some 4, 1⟩]) := by
  obtain ⟨hstart, hruns⟩ :=
    time_heap_wellFormed (.ofArray [⟨0, 9, some 4, 0⟩, ⟨1, 5, some 4, 1⟩] 2)
      ⟨fun x => if x = 0 then some ⟨9, some 4, 0⟩ else if x = 1 then some ⟨5, some 4, 1⟩ else none,
        fun _ => none, 0, 0, []⟩
  obtain ⟨s, hs, h⟩ := hstart ⟨by decide, by decide, by decide⟩ (by decide) (by decide)
  have hcap : s.capacity = 2 := by
    cases hs.unique ((Construction.exec_steady _).returns (rfl : (Construction.exec _ 2).run _ = _))
    rfl
  have hfree : s.timers 2 = none := by
    cases hs.unique ((Construction.exec_steady _).returns (rfl : (Construction.exec _ 2).run _ = _))
    rfl
  have hint : ¬ (HeapOp.add (some ⟨2, 7, some 4, 2⟩)).MayOverflow s := by
    rintro ⟨-, hmax⟩
    rw [hcap] at hmax
    exact absurd hmax (by decide)
  obtain ⟨s', hrun, h'⟩ := ((hruns s _ h).2.2 (.add (some ⟨2, 7, some 4, 2⟩)) hfree).1 hint
  exact ⟨s, s', h, (hruns s _ h).1, hrun, (hruns s' _ h').1⟩

/-! ### Filling a heap -/

/-- A heap can be filled up to its capacity. -/
theorem exists_filled {cap : Nat} (hcap : 1 ≤ cap) (n : Nat) (hn : n ≤ cap) :
    ∃ s held, Reachable s held ∧ s.capacity = cap ∧ s.cur_size = n ∧
      ∀ x, n ≤ x → s.timers x = none := by
  induction n with
  | zero =>
      exact ⟨_, [], .ofCapacity (m := ⟨fun _ => none, fun _ => none, 0, 0, []⟩) cap hcap rfl, rfl,
        rfl, fun _ _ => rfl⟩
  | succ n ih =>
      obtain ⟨s, held, h, hslots, hsize, hfree⟩ := ih (Nat.le_of_succ_le hn)
      obtain ⟨hh, -⟩ := h.heaped
      have hnew : (HeapOp.add (some ⟨n, 0, none, 0⟩)).Allowed s := hfree n le_rfl
      obtain ⟨s', hrun, h', htimers, -, hcap'⟩ := add_timer_run_room
        (hh.newTimer hnew ⟨0, none, 0⟩) (by show s.cur_size < s.capacity; omega)
        (Function.update_self ..) (hh.fresh hnew) (Nat.lt_succ_self _)
      have hret : Returns (HeapOp.add (some ⟨n, 0, none, 0⟩)).exec s ((), s') :=
        (HeapOp.exec_steady _).returns hrun
      refine ⟨s', _, h.step _ hnew hret, hcap'.trans hslots, ?_, fun x hx => ?_⟩
      · rw [h'.cur_size, List.length_cons, ← hh.cur_size, hsize]
      · rw [htimers]
        refine (Function.update_of_ne ?_ ..).trans (hfree x (Nat.le_of_succ_le hx))
        show x ≠ n
        omega

/-- A full heap of `2 ^ 30` slots cannot take another timer: the number of slots that `resize`
computes is no `int`. -/
theorem full_heap_overflows : ∃ s held, Reachable s held ∧ held.length = 2 ^ 30 ∧
    (HeapOp.add (some ⟨2 ^ 30, 0, none, 0⟩)).Allowed s ∧
    ¬ ∃ s', Returns (HeapOp.add (some ⟨2 ^ 30, 0, none, 0⟩)).exec s ((), s') := by
  obtain ⟨s, held, h, hcap, hsize, hfree⟩ := @exists_filled (2 ^ 30) (by decide) _ le_rfl
  refine ⟨s, held, h, ?_, hfree _ le_rfl, ?_⟩
  · rw [← h.heaped.1.cur_size, hsize]
  · rintro ⟨s', hrun⟩
    refine not_mayOverflow_of_returns hsize.le hrun ⟨?_, ?_⟩
    · rw [hcap, hsize]
    · rw [hcap]
      decide

end Runs

end TimeHeap

end CLanguageLearning.Timer
