import CLanguageLearning.Timer.HeapRuns
import CLanguageLearning.Timer.ListMemory

/-!
# The sorted list and the time heap side by side

The same events happen to a `sort_timer_lst` and to a `time_heap`, both empty at the start: timers
are added, live timers are deleted, and time passes. The list takes a deleted timer out at once, the
heap keeps it without a callback until it would have been due. Every tick calls the callbacks of the
same timers on both sides, and no timer's callback is ever called twice. This ends where a number of
slots or an index of the heap is no `int` any more: the list goes on, and the heap does not.
-/

set_option autoImplicit false

namespace CLanguageLearning.Timer

open CLanguageLearning.Foundation

/-! ## Entries of both containers -/

/-- The timer as it is added to a heap. -/
def Entry.onHeap (e : Entry) : HeapEntry := ⟨e.id, e.expire, some e.cb_func, e.user_data⟩

/-- The timer of a heap that has not been deleted. -/
def HeapEntry.active (e : HeapEntry) : Option Entry :=
  e.cb_func.map fun f => ⟨e.id, e.expire, f, e.user_data⟩

section Active

variable {e : HeapEntry} {a : Entry} {held : List HeapEntry}

theorem HeapEntry.active_eq_some (h : e.active = some a) : a.id = e.id ∧ a.expire = e.expire := by
  obtain ⟨f, -, rfl⟩ := Option.map_eq_some_iff.mp h
  exact ⟨rfl, rfl⟩

/-- Exactly the timers that have not been deleted make a call. -/
theorem HeapEntry.call_eq (e : HeapEntry) : e.call = e.active.map Entry.call := by
  rw [HeapEntry.call, HeapEntry.active, Option.map_map]
  rfl

theorem filterMap_call (held : List HeapEntry) :
    held.filterMap HeapEntry.call = (held.filterMap HeapEntry.active).map Entry.call := by
  rw [List.map_filterMap]
  exact List.filterMap_congr fun e _ => e.call_eq

/-- Deleting a timer takes it from the active ones. -/
theorem filterMap_mute (x : Nat) (held : List HeapEntry) :
    (held.map (HeapEntry.mute x)).filterMap HeapEntry.active =
      (held.filterMap HeapEntry.active).filter fun e => e.id ≠ x := by
  induction held with
  | nil => rfl
  | cons e held ih =>
      rw [List.map_cons, List.filterMap_cons, List.filterMap_cons, ih]
      by_cases hx : e.id = x
      · rw [HeapEntry.mute, if_pos hx]
        cases ha : e.active with
        | none => rfl
        | some a =>
            have hid := (HeapEntry.active_eq_some ha).1
            rw [List.filter_cons_of_neg (by simp [hid, hx])]
            rfl
      · rw [HeapEntry.mute, if_neg hx]
        cases ha : e.active with
        | none => rfl
        | some a =>
            have hid := (HeapEntry.active_eq_some ha).1
            rw [List.filter_cons_of_pos (by simp [hid, hx])]

/-- The timers called are among those that fired. -/
theorem timers_filterMap_call (held : List HeapEntry) :
    ((held.filterMap HeapEntry.call).map Call.timer).Sublist (held.map HeapEntry.id) := by
  induction held with
  | nil => exact .slnil
  | cons e held ih =>
      rw [List.filterMap_cons]
      cases hc : e.call with
      | none => exact ih.cons _
      | some c =>
          obtain ⟨f, -, rfl⟩ := Option.map_eq_some_iff.mp hc
          exact ih.cons_cons _

/-- The active timers in the order of expiry. -/
theorem ascending_active (h : held.Pairwise fun a b => a.expire ≤ b.expire) :
    Ascending (held.filterMap HeapEntry.active) := by
  refine List.pairwise_filterMap.mpr (h.imp ?_)
  intro e e' hle a ha a' ha'
  rw [(HeapEntry.active_eq_some ha).2, (HeapEntry.active_eq_some ha').2]
  exact hle

end Active

/-! ## Calls made once -/

/-- The timers that were called and those in `members` are all different, and their names are in
`used`. -/
structure CalledOnce (calls : List Call) (members used : List Nat) : Prop where
  nodup : (calls.map Call.timer ++ members).Nodup
  used : ∀ x ∈ calls.map Call.timer ++ members, x ∈ used

namespace CalledOnce

variable {calls fired : List Call} {members members' g rest used : List Nat} {x : Nat}

/-- A member with a new name. -/
theorem add (h : CalledOnce calls members used) (hx : x ∉ used)
    (hp : members'.Perm (x :: members)) :
    CalledOnce calls members' (x :: used) where
  nodup := by
    have hperm : (calls.map Call.timer ++ members').Perm (x :: (calls.map Call.timer ++ members)) :=
      (hp.append_left _).trans List.perm_middle
    exact hperm.nodup_iff.mpr (List.nodup_cons.mpr ⟨fun hmem => hx (h.used x hmem), h.nodup⟩)
  used y hy := by
    rcases List.mem_append.mp hy with hy | hy
    · exact List.mem_cons_of_mem _ (h.used y (List.mem_append_left _ hy))
    · rcases List.mem_cons.mp (hp.mem_iff.mp hy) with rfl | hy
      · exact List.mem_cons_self ..
      · exact List.mem_cons_of_mem _ (h.used y (List.mem_append_right _ hy))

/-- Some members leave, and those of them that are called are called once. -/
theorem fire (h : CalledOnce calls members used) (hp : members.Perm (g ++ rest))
    (hfired : (fired.map Call.timer).Sublist g) : CalledOnce (calls ++ fired) rest used := by
  have hperm : (calls.map Call.timer ++ members).Perm (calls.map Call.timer ++ (g ++ rest)) :=
    hp.append_left _
  have hsub : ((calls ++ fired).map Call.timer ++ rest).Sublist
      (calls.map Call.timer ++ (g ++ rest)) := by
    rw [List.map_append, List.append_assoc]
    exact (hfired.append_right rest).append_left _
  refine ⟨(hperm.nodup_iff.mp h.nodup).sublist hsub, ?_⟩
  intro y hy
  exact h.used y (hperm.mem_iff.mpr (hsub.subset hy))

end CalledOnce

/-! ## Events -/

/-- What happens to both containers. -/
inductive Event where
  | add (e : Entry)
  | del (x : Nat)
  | tick (cur : Int)
  deriving DecidableEq, Repr

namespace Event

/-- The operation on the list. -/
def onList : Event → Op
  | add e => .add e
  | del x => .del x
  | tick cur => .tick cur

/-- The operation on the heap. -/
def onHeap : Event → HeapOp
  | add e => .add (some e.onHeap)
  | del x => .del (some x)
  | tick cur => .tick cur

/-- The name that an event uses for the first time. -/
def names : Event → List Nat
  | add e => [e.id]
  | _ => []

/-- A new timer has a new name and is at a free address on both sides; a deleted one is live. -/
def Allowed (s : SortTimerLst) (t : TimeHeap) (live : List Entry) (used : List Nat) : Event → Prop
  | add e => e.id ∉ used ∧ s.timers e.id = none ∧ t.timers e.id = none
  | del x => ∃ e ∈ live, e.id = x
  | tick _ => True

end Event

/-- Runs of the same events on a list and on a heap, both empty at the start, with the live timers
and the names used so far. -/
inductive Parallel : SortTimerLst → TimeHeap → List Entry → List Nat → Prop where
  | start {m t : TimeHeap} (cap : Nat) (hcap : 1 ≤ cap) (hcalls : m.calls = [])
      (hrun : (TimeHeap.ofCapacity cap).run m = .ok ((), t)) : Parallel .empty t [] []
  | step {s s' : SortTimerLst} {t t' : TimeHeap} {live : List Entry} {used : List Nat} (ev : Event)
      (h : Parallel s t live used) (hev : ev.Allowed s t live used)
      (hrun : Returns (ev.onList.exec add_timer) s ((), s'))
      (hrun' : Returns ev.onHeap.exec t ((), t')) :
      Parallel s' t' (ev.onList.live live) (ev.names ++ used)

/-- The calls made between two logs are those of the live timers that are due at the time `cur`, in
an order of their expiry. -/
def FiresDue (live : List Entry) (cur : Int) (calls calls' : List Call) : Prop :=
  ∃ fired : List Entry, fired.Perm (live.filter fun e => e.expire ≤ cur) ∧ Ascending fired ∧
    calls' = calls ++ fired.map Entry.call

section Agreement

variable {s s' : SortTimerLst} {t t' : TimeHeap} {live L : List Entry} {used : List Nat}
  {held : List HeapEntry}

/-- The list holds the live timers, and the heap holds them besides timers without a callback. -/
structure ListAgrees (s : SortTimerLst) (live : List Entry) (used : List Nat) (L : List Entry) :
    Prop where
  represents : Represents Tidy s L
  members : L.Perm live
  once : CalledOnce s.calls (ids L) used

structure HeapAgrees (t : TimeHeap) (live : List Entry) (used : List Nat)
    (held : List HeapEntry) : Prop where
  heaped : TimeHeap.Heaped t held
  room : 0 < t.capacity
  members : (held.filterMap HeapEntry.active).Perm live
  once : CalledOnce t.calls (held.map HeapEntry.id) used

/-- One event on the list. -/
theorem ListAgrees.step (h : ListAgrees s live used L) (ev : Event)
    (hev : ev.Allowed s t live used) :
    ∃ s' L', Returns (ev.onList.exec add_timer) s ((), s') ∧
      ListAgrees s' (ev.onList.live live) (ev.names ++ used) L' ∧
      ∀ cur, ev = .tick cur → FiresDue live cur s.calls s'.calls := by
  have hP : ∀ x, Tidy x none := fun _ => rfl
  have hop : ev.onList.Allowed L := by
    cases ev with
    | add e => trivial
    | del x => exact (show (Op.del x).Allowed live from hev).perm h.members.symm
    | tick cur => trivial
  have hnew : ev.onList.Fresh s := by
    cases ev with
    | add e => exact hev.2.1
    | del x => trivial
    | tick cur => trivial
  obtain ⟨s', hrun, hL', hcalls⟩ :=
    Op.exec_returns hP add_timer_steady add_timer_inserts h.represents ev.onList hop hnew trivial
  have hperm := Op.sorted_perm_live h.represents.nodup h.represents.ascending hop h.members
  refine ⟨s', _, hrun, ⟨hL', hperm, ?_⟩, ?_⟩
  · rw [hcalls]
    cases ev with
    | add e =>
        rw [show Op.fired L (Event.add e).onList = [] from rfl, List.append_nil]
        exact h.once.add hev.1 ((perm_insertEntry e L).map Entry.id)
    | del x =>
        -- its name leaves the list and is not called
        obtain ⟨e, he, rfl⟩ := hop
        have hnodup := h.represents.nodup
        obtain ⟨A, B, rfl⟩ := List.append_of_mem he
        have hsorted : Op.sorted (A ++ e :: B) (.del e.id) = A ++ B := filter_mid hnodup
        refine h.once.fire (g := [e.id]) ?_ (List.nil_sublist _)
        show (ids (A ++ e :: B)).Perm (e.id :: ids (Op.sorted (A ++ e :: B) (.del e.id)))
        rw [hsorted, ids_append, ids_append, ids_cons]
        exact List.perm_middle
    | tick cur =>
        -- the names that leave the list are those called
        refine h.once.fire (g := ids (due cur L)) ?_ ?_
        · rw [← ids_append]
          exact .of_eq (congrArg ids List.takeWhile_append_dropWhile.symm)
        · show (((due cur L).map Entry.call).map Call.timer).Sublist _
          rw [List.map_map]
          exact .refl _
  · rintro cur rfl
    refine ⟨due cur L, ?_, ?_, hcalls⟩
    · rw [due_eq_filter h.represents.ascending]
      exact h.members.filter _
    · exact List.Pairwise.sublist (List.takeWhile_sublist _) h.represents.ascending

/-- A tick takes the due timers from the heap, and those that have not been deleted are called. -/
theorem HeapAgrees.ticked {cur : Int} {fired rest : List HeapEntry}
    (h : HeapAgrees t live used held) (ht : TimeHeap.Ticked t t' cur held fired rest) :
    HeapAgrees t' (live.filter fun e => cur < e.expire) used rest ∧
      FiresDue live cur t.calls t'.calls := by
  have hsplit : (fired.filterMap HeapEntry.active ++ rest.filterMap HeapEntry.active).Perm live := by
    rw [← List.filterMap_append]
    exact (ht.split.filterMap _).symm.trans h.members
  -- the live timers are those fired and those left that still have a callback
  have hdue : ∀ a ∈ fired.filterMap HeapEntry.active, a.expire ≤ cur := by
    intro a ha
    obtain ⟨e, he, hactive⟩ := List.mem_filterMap.mp ha
    rw [(HeapEntry.active_eq_some hactive).2]
    exact ht.due e he
  have hpending : ∀ a ∈ rest.filterMap HeapEntry.active, cur < a.expire := by
    intro a ha
    obtain ⟨e, he, hactive⟩ := List.mem_filterMap.mp ha
    rw [(HeapEntry.active_eq_some hactive).2]
    exact ht.pending e he
  refine ⟨⟨ht.heaped, ?_, ?_, ?_⟩, _, ?_, ascending_active ht.ascending, ?_⟩
  · rw [ht.capacity]
    exact h.room
  · refine List.Perm.trans ?_ (hsplit.filter _)
    rw [List.filter_append, List.filter_eq_nil_iff.mpr, List.filter_eq_self.mpr, List.nil_append]
    · intro a ha
      simpa using hpending a ha
    · intro a ha
      simpa using hdue a ha
  · rw [ht.calls]
    refine h.once.fire ?_ (timers_filterMap_call fired)
    rw [← List.map_append]
    exact ht.split.map _
  · refine List.Perm.trans ?_ (hsplit.filter _)
    rw [List.filter_append, List.filter_eq_self.mpr, List.filter_eq_nil_iff.mpr, List.append_nil]
    · intro a ha
      simpa using hpending a ha
    · intro a ha
      simpa using hdue a ha
  · rw [ht.calls, filterMap_call]

/-- One event on the heap. -/
theorem HeapAgrees.step {fuel : Nat} (h : HeapAgrees t live used held) (ev : Event)
    (hev : ev.Allowed s t live used) (hfuel : held.length < fuel) :
    Ends (Eq .overflow) ((ev.onHeap.exec fuel).run t) fun _ t' =>
      (∃ held', HeapAgrees t' (ev.onList.live live) (ev.names ++ used) held') ∧
        ∀ cur, ev = .tick cur → FiresDue live cur t.calls t'.calls := by
  cases ev with
  | add e =>
      obtain ⟨hused, -, hfree⟩ := hev
      have hnew := h.heaped.newTimer (x := e.onHeap.id) hfree e.onHeap.timer
      have hst : Function.update t.timers e.onHeap.id (some e.onHeap.timer) e.onHeap.id =
          some e.onHeap.timer := Function.update_self ..
      refine .next rfl ((TimeHeap.add_timer_ends hnew h.room hst (h.heaped.fresh hfree) hfuel
        fun _ _ => rfl).mono ?_)
      rintro - t' ⟨h', -, hcalls, hroom⟩
      refine ⟨⟨e.onHeap :: held, h', hroom, h.members.cons e, ?_⟩, fun cur hcur => by cases hcur⟩
      rw [hcalls]
      exact h.once.add hused (.refl _)
  | del x =>
      obtain ⟨a, ha, rfl⟩ := hev
      -- the timer stays in the heap without its callback
      obtain ⟨e, he, hactive⟩ := List.mem_filterMap.mp (h.members.mem_iff.mpr ha)
      obtain ⟨t', hrun, h', hcalls, hcap⟩ := TimeHeap.del_timer_run h.heaped (h.heaped.stored he)
      rw [← (HeapEntry.active_eq_some hactive).1] at hrun h'
      refine .of_ok hrun ⟨⟨_, h', ?_, ?_, ?_⟩, fun cur hcur => by cases hcur⟩
      · rw [hcap]
        exact h.room
      · rw [filterMap_mute]
        exact h.members.filter _
      · rw [hcalls, List.map_map]
        have hid : HeapEntry.id ∘ HeapEntry.mute a.id = HeapEntry.id :=
          funext fun x => HeapEntry.mute_id _ x
        rw [hid]
        exact h.once
  | tick cur =>
      apply (TimeHeap.tick_ends h.heaped h.room hfuel fun _ => rfl).mono
      rintro - t' ⟨fired, rest, ht⟩
      obtain ⟨h', hfires⟩ := h.ticked ht
      refine ⟨⟨rest, h'⟩, ?_⟩
      intro cur' hcur
      cases hcur
      exact hfires

/-- In every state of a parallel run both sides hold the live timers. -/
theorem Parallel.agrees (h : Parallel s t live used) :
    (∃ L, ListAgrees s live used L) ∧ ∃ held, HeapAgrees t live used held := by
  induction h with
  | @start m t cap hcap hcalls hrun =>
      obtain ⟨t', hrun', h', hcap', hcalls'⟩ := TimeHeap.ofCapacity_run m cap
      cases hrun.symm.trans hrun'
      refine ⟨⟨[], .empty _ rfl, .refl _, .nil, fun x hx => hx⟩,
        ⟨[], h', by rw [hcap']; exact hcap, .refl _, ?_⟩⟩
      rw [hcalls', hcalls]
      exact ⟨.nil, fun x hx => hx⟩
  | step ev _ hev hrun hrun' ih =>
      obtain ⟨⟨L, hL⟩, held, hheld⟩ := ih
      obtain ⟨s', L', hrun₁, hL', -⟩ := hL.step ev hev
      cases hrun.unique hrun₁
      obtain ⟨N, hN⟩ := hrun'
      have hstep := hheld.step ev hev
        (Nat.lt_of_lt_of_le (Nat.lt_succ_self _) (Nat.le_max_right N (held.length + 1)))
      -- the heap's run returns with this much fuel, so its outcome is that of the step lemma
      exact ⟨⟨L', hL'⟩, (hstep.elim (hN (max N (held.length + 1)) (Nat.le_max_left ..))).1⟩

/-- The list and the heap agree in every parallel run. No timer is called twice on either side. Every
event has its result on the list, and on the heap as long as no number can overflow; a tick calls the
callbacks of exactly the live timers that are due, in an order of their expiry, on both. The run then
goes on in the same way. With at most `2 ^ 30` timers in the heap an event that may overflow has no
result there. -/
theorem list_heap_agree (h : Parallel s t live used) :
    (s.calls.map Call.timer).Nodup ∧ (t.calls.map Call.timer).Nodup ∧
      ∀ ev : Event, ev.Allowed s t live used →
        ∃ s', Returns (ev.onList.exec add_timer) s ((), s') ∧
          (∀ cur, ev = .tick cur → FiresDue live cur s.calls s'.calls) ∧
          (¬ ev.onHeap.MayOverflow t → ∃ t', Returns ev.onHeap.exec t ((), t') ∧
            (∀ cur, ev = .tick cur → FiresDue live cur t.calls t'.calls) ∧
            Parallel s' t' (ev.onList.live live) (ev.names ++ used)) ∧
          (t.cur_size ≤ 2 ^ 30 → (∃ t', Returns ev.onHeap.exec t ((), t')) →
            ¬ ev.onHeap.MayOverflow t) := by
  obtain ⟨⟨L, hL⟩, held, hheld⟩ := h.agrees
  refine ⟨(List.nodup_append.mp hL.once.nodup).1, (List.nodup_append.mp hheld.once.nodup).1, ?_⟩
  intro ev hev
  obtain ⟨s', -, hrun, -, hfires⟩ := hL.step ev hev
  refine ⟨s', hrun, hfires, fun hint => ?_, ?_⟩
  · have hop : ev.onHeap.Allowed t := by
      cases ev with
      | add e => exact hev.2.2
      | del x =>
          obtain ⟨a, ha, rfl⟩ := hev
          obtain ⟨e, he, hactive⟩ := List.mem_filterMap.mp (hheld.members.mem_iff.mpr ha)
          rw [Event.onHeap, (HeapEntry.active_eq_some hactive).1]
          exact ⟨e.timer, hheld.heaped.stored he⟩
      | tick cur => trivial
    obtain ⟨t', hrun'⟩ := TimeHeap.exec_returns hheld.heaped hheld.room hop hint
    refine ⟨t', hrun', ?_, .step ev h hev hrun hrun'⟩
    obtain ⟨N, hN⟩ := hrun'
    have hstep := hheld.step ev hev
      (Nat.lt_of_lt_of_le (Nat.lt_succ_self _) (Nat.le_max_right N (held.length + 1)))
    exact (hstep.elim (hN (max N (held.length + 1)) (Nat.le_max_left ..))).2
  · rintro hsize ⟨t', hrun'⟩
    exact TimeHeap.not_mayOverflow_of_returns hsize hrun'

/-- Three timers are added to both, the second is deleted, and a tick finds it and the first due. -/
theorem list_heap_agree_three :
    ∃ s t, Parallel s t [⟨5, 15, 7, 2⟩, ⟨3, 10, 7, 0⟩] [5, 4, 3] ∧
      ∃ s' t', Returns (tick 12) s ((), s') ∧ Returns (TimeHeap.tick 12) t ((), t') ∧
        s'.calls = [⟨3, 7, 0⟩] ∧ t'.calls = [⟨3, 7, 0⟩] ∧
        FiresDue [⟨5, 15, 7, 2⟩, ⟨3, 10, 7, 0⟩] 12 s.calls s'.calls ∧
        FiresDue [⟨5, 15, 7, 2⟩, ⟨3, 10, 7, 0⟩] 12 t.calls t'.calls := by
  have hstart : Parallel .empty ⟨fun _ => none, fun _ => none, 1, 0, []⟩ [] [] :=
    .start (m := ⟨fun _ => none, fun _ => none, 0, 0, []⟩) 1 le_rfl rfl rfl
  have hone := hstart.step (.add ⟨3, 10, 7, 0⟩) ⟨List.not_mem_nil, rfl, rfl⟩
    ((Op.exec_steady add_timer_steady _).returns (rfl : (Op.exec _ _ 5).run _ = _))
    ((HeapOp.exec_steady _).returns (rfl : (HeapOp.exec _ 5).run _ = _))
  have htwo := hone.step (.add ⟨4, 11, 7, 1⟩) ⟨by decide, rfl, rfl⟩
    ((Op.exec_steady add_timer_steady _).returns (rfl : (Op.exec _ _ 5).run _ = _))
    ((HeapOp.exec_steady _).returns (rfl : (HeapOp.exec _ 5).run _ = _))
  have hthree := htwo.step (.add ⟨5, 15, 7, 2⟩) ⟨by decide, rfl, rfl⟩
    ((Op.exec_steady add_timer_steady _).returns (rfl : (Op.exec _ _ 5).run _ = _))
    ((HeapOp.exec_steady _).returns (rfl : (HeapOp.exec _ 5).run _ = _))
  have hdel := hthree.step (.del 4) ⟨⟨4, 11, 7, 1⟩, by decide, rfl⟩
    ((Op.exec_steady add_timer_steady _).returns (rfl : (Op.exec _ _ 5).run _ = _))
    ((HeapOp.exec_steady _).returns (rfl : (HeapOp.exec _ 5).run _ = _))
  obtain ⟨s', hrun, hfires, hheap, -⟩ := (list_heap_agree hdel).2.2 (.tick 12) trivial
  obtain ⟨t', hrun', hfires', -⟩ := hheap (not_lt.mpr (by decide))
  refine ⟨_, _, hdel, s', t', hrun, hrun', ?_, ?_, hfires 12 rfl, hfires' 12 rfl⟩
  · cases hrun.unique ((tick_steady 12).returns (rfl : (tick 12 5).run _ = _))
    rfl
  · cases hrun'.unique ((TimeHeap.tick_steady 12).returns (rfl : (TimeHeap.tick 12 5).run _ = _))
    rfl

/-! ## Where the heap cannot follow -/

/-- A new timer goes to an array that has room. -/
theorem Parallel.add_room {cap n : Nat} (h : Parallel s t live used) (hcap : t.capacity = cap)
    (hsize : t.cur_size = n) (hn : n < cap) (hnew : (Event.add ⟨n, 0, 0, 0⟩).Allowed s t live used) :
    ∃ s' t', Parallel s' t' (⟨n, 0, 0, 0⟩ :: live) (n :: used) ∧ t'.capacity = cap ∧
      t'.cur_size = n + 1 ∧ s'.inMemory = Function.update s.inMemory n true ∧
      ∀ x, x ≠ n → t'.timers x = t.timers x := by
  obtain ⟨⟨L, hL⟩, held, hheld⟩ := h.agrees
  obtain ⟨s', -, hrun, -⟩ := hL.step _ hnew
  have hfree : t.timers (Entry.onHeap ⟨n, 0, 0, 0⟩).id = none := hnew.2.2
  obtain ⟨t', hrun', h', htimers, -, hcap'⟩ := TimeHeap.add_timer_run_room
    (hheld.heaped.newTimer hfree ⟨0, some 0, 0⟩) (by show t.cur_size < t.capacity; omega)
    (Function.update_self ..) (hheld.heaped.fresh hfree) (Nat.lt_succ_self _)
  have hret : Returns (Event.add ⟨n, 0, 0, 0⟩).onHeap.exec t ((), t') :=
    (HeapOp.exec_steady _).returns hrun'
  refine ⟨s', t', h.step _ hnew hrun hret, hcap'.trans hcap, ?_, ?_, fun x hx => ?_⟩
  · rw [h'.cur_size, List.length_cons, ← hheld.heaped.cur_size, hsize]
  · obtain ⟨N, hN⟩ := hrun
    obtain ⟨_, s₁, halloc, hrest⟩ := run_bind_eq_ok (hN N le_rfl)
    rw [add_timer_keeps N _ _ _ _ hrest, newTimer_inMemory halloc]
  · rw [htimers]
    exact Function.update_of_ne hx ..

/-- Timers can be added to both until the heap is full. -/
theorem exists_filled_parallel {cap : Nat} (hcap : 1 ≤ cap) (n : Nat) (hn : n ≤ cap) :
    ∃ s t live used, Parallel s t live used ∧ t.capacity = cap ∧ t.cur_size = n ∧
      ∀ x, n ≤ x → (Event.add ⟨x, 0, 0, 0⟩).Allowed s t live used := by
  induction n with
  | zero =>
      exact ⟨_, _, _, _, .start (m := ⟨fun _ => none, fun _ => none, 0, 0, []⟩) cap hcap rfl rfl, rfl,
        rfl, fun _ _ => ⟨List.not_mem_nil, rfl, rfl⟩⟩
  | succ n ih =>
      obtain ⟨s, t, live, used, h, hslots, hsize, hfree⟩ := ih (Nat.le_of_succ_le hn)
      obtain ⟨s', t', h', hslots', hsize', hmem, htimers⟩ :=
        h.add_room hslots hsize hn (hfree n le_rfl)
      refine ⟨s', t', _, _, h', hslots', hsize', fun x hx => ?_⟩
      have hne : x ≠ n := by omega
      obtain ⟨hused, hlist, hheap⟩ := hfree x (Nat.le_of_succ_le hx)
      refine ⟨?_, ?_, (htimers x hne).trans hheap⟩
      · rw [List.mem_cons, not_or]
        exact ⟨hne, hused⟩
      · have hnone : s'.inMemory x = false := by
          rw [hmem, Function.update_of_ne hne, SortTimerLst.inMemory, hlist]
          rfl
        exact Option.isNone_iff_eq_none.mp (Option.isSome_eq_false_iff.mp hnone)

/-- With `2 ^ 30` timers in an array of as many slots, another timer can be added to the list and not
to the heap. -/
theorem list_outgrows_heap : ∃ s t live used, Parallel s t live used ∧ t.cur_size = 2 ^ 30 ∧
    (Event.add ⟨2 ^ 30, 0, 0, 0⟩).Allowed s t live used ∧
    (∃ s', Returns ((Event.add ⟨2 ^ 30, 0, 0, 0⟩).onList.exec add_timer) s ((), s')) ∧
    ¬ ∃ t', Returns (Event.add ⟨2 ^ 30, 0, 0, 0⟩).onHeap.exec t ((), t') := by
  obtain ⟨s, t, live, used, h, hcap, hsize, hfree⟩ :=
    @exists_filled_parallel (2 ^ 30) (by decide) _ le_rfl
  have hev := hfree _ le_rfl
  obtain ⟨⟨L, hL⟩, -⟩ := h.agrees
  obtain ⟨s', -, hrun, -⟩ := hL.step _ hev
  refine ⟨s, t, live, used, h, hsize, hev, ⟨s', hrun⟩, ?_⟩
  rintro ⟨t', hrun'⟩
  refine TimeHeap.not_mayOverflow_of_returns hsize.le hrun' ⟨?_, ?_⟩
  · rw [hcap, hsize]
  · rw [hcap]
    decide

end Agreement

end CLanguageLearning.Timer
