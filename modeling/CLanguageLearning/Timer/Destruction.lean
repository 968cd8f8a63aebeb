import CLanguageLearning.Foundation.Draining
import CLanguageLearning.Timer.HeapRuns
import CLanguageLearning.Timer.ListMemory
import CLanguageLearning.Timer.WheelStructure

/-!
# The destructors of the timer classes

Each class deletes the timers that it still holds: the lists along the next pointers, the wheel slot
by slot, the heap along its array. After every run the destructor returns, so it never follows a
deleted timer and deletes none twice. In the lists and the wheel every timer in memory is linked, and
the destructor leaves none (`sort_timer_lst_destroys`, `time_wheel_destroys`). The heap deletes the
timers it holds, those that were cancelled among them, and no other (`time_heap_destroys`).
-/

set_option autoImplicit false

namespace CLanguageLearning.Timer

open CLanguageLearning.Foundation

/-! ## The lists -/

/-- A turn of the loop in `~sort_timer_lst`: `head = tmp->next; delete tmp; tmp = head;`. -/
def deleteHead (x : Nat) : Exec SortTimerLst (Option Nat) := do
  let t ← deref (some x)
  setHead t.next
  deleteTimer (some x)
  let s ← get
  return s.head

/-- `~sort_timer_lst` of both classes. -/
def SortTimerLst.destroy (fuel : Nat) : Exec SortTimerLst Unit := do
  let s ← get
  drainLoop deleteHead fuel s.head

section Lists

variable {add : Nat → Option Nat → Exec SortTimerLst Unit} {P : Nat → Option Nat → Prop}
  {C : SortTimerLst → Op → Prop} {s : SortTimerLst} {live : List Entry}

theorem deleteHead_frees :
    FreesCell SortTimerLst.timers UtilTimer.next (fun s s' => s'.calls = s.calls) deleteHead := by
  intro s x t ht
  refine ⟨({ s with head := t.next } : SortTimerLst).without x, ?_, ?_, rfl⟩
  · simp [deleteHead, deref, deleteTimer, setHead, ht, SortTimerLst.without]
  · funext y
    rw [Function.update_apply]
    rfl

theorem Webserver.add_timer_keeps (fuel : Nat) (timer : Option Nat) :
    Keeps SortTimerLst.inMemory (Webserver.add_timer fuel timer) := by
  refine .ite (.pure _) (Keeps.get.bind fun s => .ite ?_ ?_)
  · exact (setHead_keeps _).bind fun _ => setTail_keeps _
  · refine (deref_keeps _ _).bind fun t => (deref_keeps _ _).bind fun h => .ite ?_ ?_
    · refine (writeTimer_keeps _ _).bind fun _ => (writeTimer_keeps _ _).bind fun _ => ?_
      exact (setHead_keeps _).bind fun _ => add_timer_from_keeps _ _ _
    · exact add_timer_from_keeps fuel timer s.head

/-- In every run the timers in memory are those of the list. -/
theorem Reachable.in_list (hP : ∀ x, P x none)
    (hadd : ∀ timer, Steady fun fuel => add fuel timer) (hins : Inserts add P C)
    (hkeeps : ∀ fuel timer, Keeps SortTimerLst.inMemory (add fuel timer))
    (h : Reachable add C s live) (x : Nat) (hx : s.inMemory x = true) : x ∈ ids live := by
  induction h with
  | empty => exact absurd hx Bool.false_ne_true
  | @step s s' live op h hop hfresh hC hrun ih =>
      obtain ⟨L, hL, hp⟩ := h.represents hP hadd hins
      obtain ⟨t, hrun', -, hcalls⟩ :=
        Op.exec_returns hP hadd hins hL op (hop.perm hp.symm) hfresh hC
      cases hrun.unique hrun'
      obtain ⟨N, hN⟩ := hrun
      have hrunN := hN N (Nat.le_refl N)
      cases op with
      | add e =>
          obtain ⟨_, s₁, halloc, hrest⟩ := run_bind_eq_ok hrunN
          rw [hkeeps N _ _ _ _ hrest, newTimer_inMemory halloc, Function.update_apply] at hx
          split at hx
          · rename_i hxe
            rw [hxe]
            exact List.mem_cons_self ..
          · exact List.mem_cons_of_mem _ (ih hx)
      | adjust y expire =>
          obtain ⟨_, s₁, hwrite, hrest⟩ := run_bind_eq_ok hrunN
          rw [adjust_timer_keeps N _ _ _ _ hrest, writeTimer_keeps _ _ _ _ _ hwrite] at hx
          have hids : ids (live.map (Op.retime y expire)) = ids live := by
            rw [ids, ids, List.map_map]
            refine List.map_congr_left fun e _ => ?_
            rw [Function.comp_apply, Op.retime]
            split <;> rfl
          exact hids ▸ ih hx
      | del y =>
          rw [del_timer_frees y _ _ _ hrunN, Function.update_apply] at hx
          split at hx
          · exact absurd hx Bool.false_ne_true
          · rename_i hne
            obtain ⟨e, he, rfl⟩ := List.mem_map.mp (ih hx)
            exact mem_ids (List.mem_filter.mpr ⟨he, decide_eq_true hne⟩)
      | tick cur =>
          obtain ⟨called, hcalled, hmem⟩ := tick_frees hrunN
          rw [hmem, Bool.and_eq_true] at hx
          obtain ⟨e, he, rfl⟩ := List.mem_map.mp (ih hx.1)
          refine mem_ids (List.mem_filter.mpr ⟨he, decide_eq_true (not_le.mp fun hdue => ?_)⟩)
          -- a timer that is due is among those called, which are freed
          refine of_decide_eq_true hx.2 ?_
          have hfired : called = (due cur L).map Entry.call :=
            List.append_cancel_left (hcalled.symm.trans hcalls)
          rw [hfired, due_eq_filter hL.ascending, List.map_map]
          exact mem_ids (List.mem_filter.mpr ⟨hp.mem_iff.mpr he, decide_eq_true hdue⟩)

/-- A destructor after a run of a class, whichever way it inserts. -/
theorem Reachable.destroy_returns (hP : ∀ x, P x none)
    (hadd : ∀ timer, Steady fun fuel => add fuel timer) (hins : Inserts add P C)
    (hkeeps : ∀ fuel timer, Keeps SortTimerLst.inMemory (add fuel timer))
    (h : Reachable add C s live) :
    ∃ s', Returns SortTimerLst.destroy s ((), s') ∧ s'.calls = s.calls ∧
      ∀ x, s'.timers x = none := by
  obtain ⟨L, hL, hp⟩ := h.represents hP hadd hins
  obtain ⟨hstored, hchain⟩ := hL.linked.chained
  have hlive : ∀ x ∈ ids L, (s.timers x).isSome := by
    intro x hx
    obtain ⟨e, he, rfl⟩ := List.mem_map.mp hx
    obtain ⟨t, ht, -⟩ := hstored e he
    rw [ht]
    rfl
  obtain ⟨s', hrun, hfreed, hcalls⟩ := drain_run deleteHead_frees (fun _ => rfl)
    (fun _ _ _ hst htu => htu.trans hst) (ids L) hchain hL.nodup hlive
  refine ⟨s', hrun, hcalls, fun x => ?_⟩
  rw [hfreed x]
  split
  · rfl
  · rename_i hout
    by_contra hx
    have hmem : s.inMemory x = true := Option.isSome_iff_ne_none.mpr hx
    exact hout ((hp.map Entry.id).mem_iff.mpr (h.in_list hP hadd hins hkeeps x hmem))

/-- After every run of either class the destructor leaves no timer: each that was ever added has been
deleted once. -/
theorem sort_timer_lst_destroys
    (h : Reachable add_timer Always s live ∨ Reachable Webserver.add_timer Always s live) :
    ∃ s', Returns SortTimerLst.destroy s ((), s') ∧ s'.calls = s.calls ∧
      ∀ x, s'.timers x = none := by
  rcases h with h | h
  · exact h.destroy_returns (P := Tidy) (fun _ => rfl) add_timer_steady add_timer_inserts
      add_timer_keeps
  · exact h.destroy_returns (P := Loose) (fun _ => Or.inl rfl) Webserver.add_timer_steady
      Webserver.add_timer_inserts Webserver.add_timer_keeps

/-- The list of the webserver after three timers, of which one has been called. -/
theorem sort_timer_lst_destroys_three :
    ∃ s s', Reachable Webserver.add_timer Always s [⟨3, 5, 7, 3⟩, ⟨1, 4, 7, 1⟩] ∧
      Returns SortTimerLst.destroy s ((), s') ∧ s'.calls = [⟨2, 7, 2⟩] ∧
      s'.timers 1 = none ∧ s'.timers 3 = none := by
  obtain ⟨s, hbehind, hthree⟩ := Webserver.three_timers
  have h : Reachable Webserver.add_timer Always s _ := hbehind.mono fun _ _ _ => trivial
  obtain ⟨s', hrun, hcalls, htimers⟩ := sort_timer_lst_destroys (.inr h)
  exact ⟨s, s', h, hrun, hcalls.trans hthree, htimers 1, htimers 3⟩

end Lists

/-! ## The wheel -/

namespace TimeWheel

/-- A turn of the inner loop in `~time_wheel`: `slots[i] = tmp->next; delete tmp; tmp = slots[i];`. -/
def deleteFirst (i x : Nat) : Exec TimeWheel (Option Nat) := do
  let t ← deref (some x)
  setSlot i t.next
  deleteTimer (some x)
  slot i

/-- The outer loop, from slot `i` on with `n` slots left. -/
def destroyFrom (fuel : Nat) : Nat → Nat → Exec TimeWheel Unit
  | _, 0 => return ()
  | i, n + 1 => do
      let tmp ← slot i
      drainLoop (deleteFirst i) fuel tmp
      destroyFrom fuel (i + 1) n

/-- `~time_wheel`. -/
def destroy (fuel : Nat) : Exec TimeWheel Unit := destroyFrom fuel 0 N

/-- The timers of the slots from `i` on are left of those of `s₀`. -/
structure Remaining (s₀ s : TimeWheel) (i : Nat) : Prop where
  calls : s.calls = s₀.calls
  slots : ∀ j, i ≤ j → s.slots j = s₀.slots j
  kept : ∀ x j, s₀.slotOf x = some j → i ≤ j → s.timers x = s₀.timers x
  gone : ∀ x, (∀ j, s₀.slotOf x = some j → j < i) → s.timers x = none

section Wheel

variable {s₀ s : TimeWheel} {chain : Nat → List Nat} {live : Nat → Option Int} {i : Nat}

theorem deleteFirst_frees (hi : i < N) :
    FreesCell TimeWheel.timers TwTimer.next
      (fun s s' => s'.calls = s.calls ∧ ∀ j, j ≠ i → s'.slots j = s.slots j) (deleteFirst i) := by
  intro s x t ht
  refine ⟨{ s with slots := Function.update s.slots i t.next,
                   timers := Function.update s.timers x none }, ?_, rfl, rfl, fun j hj => ?_⟩
  · simp [deleteFirst, deref, deleteTimer, setSlot, slot, ht, hi]
  · exact Function.update_of_ne hj ..

/-- A slot is drained. -/
theorem Remaining.drain (h₀ : Chained s₀ chain) (h : Remaining s₀ s i) (hi : i < N) :
    ∃ s', Returns (fun fuel => drainLoop (deleteFirst i) fuel (s.slots i)) s ((), s') ∧
      Remaining s₀ s' (i + 1) := by
  -- the timers of the slot are as they were
  have hsame : ∀ x ∈ chain i, s.timers x = s₀.timers x :=
    fun x hx => h.kept x i ((h₀.member i x).mp hx) (Nat.le_refl i)
  have hfollows : Follows (fun x => (s.timers x).bind TwTimer.next) (s.slots i) (chain i) := by
    rw [h.slots i (Nat.le_refl i), h₀.slots i]
    exact (h₀.threaded i).follows.congr fun x hx => by rw [hsame x hx]; rfl
  have hlive : ∀ x ∈ chain i, (s.timers x).isSome := by
    intro x hx
    have hslot := (h₀.member i x).mp hx
    rw [hsame x hx]
    rw [slotOf] at hslot
    obtain ⟨t, ht, -⟩ := Option.map_eq_some_iff.mp hslot
    rw [ht]
    rfl
  obtain ⟨s', hrun, hfreed, hcalls, hslots⟩ := drain_run (deleteFirst_frees hi)
    (fun _ => ⟨rfl, fun _ _ => rfl⟩)
    (fun _ _ _ hst htu => ⟨htu.1.trans hst.1, fun j hj => (htu.2 j hj).trans (hst.2 j hj)⟩)
    (chain i) hfollows (h₀.nodup i) hlive
  refine ⟨s', hrun, hcalls.trans h.calls, fun j hj => ?_, fun x j hx hj => ?_, fun x hx => ?_⟩
  · rw [hslots j (by omega), h.slots j (by omega)]
  · have hout : x ∉ chain i := by
      intro hmem
      rw [(h₀.member i x).mp hmem, Option.some.injEq] at hx
      omega
    rw [hfreed x, if_neg hout, h.kept x j hx (by omega)]
  · rw [hfreed x]
    split
    · rfl
    · rename_i hout
      refine h.gone x fun j hj => ?_
      have hlt := hx j hj
      have hne : j ≠ i := by
        rintro rfl
        exact hout ((h₀.member j x).mpr hj)
      omega

theorem Remaining.destroyFrom_returns (h₀ : Chained s₀ chain) (n : Nat) :
    ∀ {s : TimeWheel} {i : Nat}, Remaining s₀ s i → i + n = N →
      ∃ s', Returns (fun fuel => destroyFrom fuel i n) s ((), s') ∧ Remaining s₀ s' N := by
  induction n with
  | zero =>
      intro s i h hi
      rw [Nat.add_zero] at hi
      exact ⟨s, ⟨0, fun _ _ => rfl⟩, hi ▸ h⟩
  | succ n ih =>
      intro s i h hi
      have hlt : i < N := by omega
      have hslot : (slot i).run s = .ok (s.slots i, s) := by simp [slot, hlt]
      obtain ⟨s₁, hdrain, h₁⟩ := h.drain h₀ hlt
      obtain ⟨s', hrest, h'⟩ := ih h₁ (by omega)
      exact ⟨s', (Returns.of_run hslot).bind (hdrain.bind hrest), h'⟩

/-- After every run the destructor of the wheel leaves no timer. -/
theorem time_wheel_destroys (h : Pending s live) :
    ∃ s', Returns destroy s ((), s') ∧ s'.calls = s.calls ∧ ∀ x, s'.timers x = none := by
  obtain ⟨⟨⟨chain, hchain⟩, -⟩, -⟩ := h.wellFormed
  have hstart : Remaining s s 0 := by
    refine ⟨rfl, fun _ _ => rfl, fun _ _ _ _ => rfl, fun x hx => ?_⟩
    cases ht : s.timers x with
    | none => rfl
    | some t => exact absurd (hx t.time_slot (by rw [slotOf, ht]; rfl)) (Nat.not_lt_zero _)
  obtain ⟨s', hrun, hends⟩ := hstart.destroyFrom_returns hchain N (Nat.zero_add N)
  exact ⟨s', hrun, hends.calls, fun x => hends.gone x fun j hj => hchain.time_slot x j hj⟩

/-- Two timers of one slot. -/
theorem time_wheel_destroys_two :
    ∃ s live s', Pending s live ∧ s.timers 0 ≠ none ∧ s.timers 1 ≠ none ∧
      Returns destroy s ((), s') ∧ ∀ x, s'.timers x = none := by
  have hone : Pending _ _ := Pending.empty.step (.add 0 60 7 9) rfl ⟨0, fun _ _ => rfl⟩
    (List.append_nil _).symm
  have htwo : Pending _ _ := hone.step (.add 1 120 7 9) rfl ⟨0, fun _ _ => rfl⟩
    (List.append_nil _).symm
  obtain ⟨s', hrun, -, hnone⟩ := time_wheel_destroys htwo
  exact ⟨_, _, s', htwo, by decide, by decide, hrun, hnone⟩

end Wheel

end TimeWheel

/-! ## The heap -/

namespace TimeHeap

/-- The loop of `~time_heap`, from slot `i` on with `n` slots left. -/
def deleteFrom : Nat → Nat → Exec TimeHeap Unit
  | _, 0 => return ()
  | i, n + 1 => do
      let p ← slot i
      deleteTimer p
      deleteFrom (i + 1) n

/-- `~time_heap`; without the array no slot can be read. -/
def destroy : Exec TimeHeap Unit := do
  let s ← get
  deleteFrom 0 s.cur_size
  modify fun s => { s with array := fun _ => none, capacity := 0 }

section Heap

variable {s₀ s : TimeHeap} {b : Nat → HeapEntry} {held : List HeapEntry}

/-- The loop has deleted the timers of the first `i` slots. -/
structure Cleared (s₀ s : TimeHeap) (b : Nat → HeapEntry) (i : Nat) : Prop where
  array : s.array = s₀.array
  capacity : s.capacity = s₀.capacity
  calls : s.calls = s₀.calls
  timers : ∀ x, s.timers x = if x ∈ (slots i b).map HeapEntry.id then none else s₀.timers x

theorem Cleared.deleteFrom_run (h₀ : Holds s₀ b)
    (hnodup : ((slots s₀.cur_size b).map HeapEntry.id).Nodup) (n : Nat) :
    ∀ {s : TimeHeap} {i : Nat}, Cleared s₀ s b i → i + n = s₀.cur_size →
      ∃ s', (deleteFrom i n).run s = .ok ((), s') ∧ Cleared s₀ s' b s₀.cur_size := by
  induction n with
  | zero =>
      intro s i h hi
      rw [Nat.add_zero] at hi
      exact ⟨s, rfl, hi ▸ h⟩
  | succ n ih =>
      intro s i h hi
      have hlt : i < s₀.cur_size := by omega
      have hcap : i < s.capacity := by
        rw [h.capacity]
        exact hlt.trans_le h₀.room
      have hslot : (slot i).run s = .ok (some (b i).id, s) := by
        rw [slot_run hcap, h.array, h₀.slots i hlt]
      -- it is not among those that are deleted already
      have hnew : (b i).id ∉ (slots i b).map HeapEntry.id := by
        intro hmem
        obtain ⟨e, he, hid⟩ := List.mem_map.mp hmem
        obtain ⟨j, hj, rfl⟩ := mem_slots.mp he
        exact id_ne_of_nodup hnodup (hj.trans hlt) hlt hj.ne hid
      have hlive : s.timers (b i).id = some (b i).timer := by
        rw [h.timers, if_neg hnew, h₀.stored i hlt]
      have hdelete : (deleteTimer (some (b i).id)).run s =
          .ok ((), { s with timers := Function.update s.timers (b i).id none }) := by
        simp [deleteTimer, deref, hlive]
      have hnext : Cleared s₀ { s with timers := Function.update s.timers (b i).id none } b
          (i + 1) := by
        refine ⟨h.array, h.capacity, h.calls, fun x => ?_⟩
        dsimp only
        rw [Function.update_apply, h.timers x]
        simp only [slots_succ, List.map_append, List.mem_append, List.map_singleton,
          List.mem_singleton]
        by_cases hx : x = (b i).id
        · rw [if_pos hx, if_pos (Or.inr hx)]
        · rw [if_neg hx]
          simp only [hx, or_false]
      obtain ⟨s', hrest, h'⟩ := ih hnext (by omega)
      refine ⟨s', ?_, h'⟩
      rw [deleteFrom, run_bind_of_ok hslot]
      exact (run_bind_of_ok hdelete _).trans hrest

/-- After every run the destructor of the heap deletes the timers it holds, each once, those that
were deleted lazily among them. -/
theorem time_heap_destroys (h : Reachable s held) :
    ∃ s', destroy.run s = .ok ((), s') ∧ s'.calls = s.calls ∧
      ∀ x, s'.timers x = if x ∈ held.map HeapEntry.id then none else s.timers x := by
  obtain ⟨b, hb, hperm⟩ := h.heaped.1.heap
  have hids := hperm.map HeapEntry.id
  have hnodup := hids.nodup_iff.mpr h.heaped.1.nodup
  have hstart : Cleared s s b 0 :=
    ⟨rfl, rfl, rfl, fun x => (if_neg (List.not_mem_nil)).symm⟩
  obtain ⟨s', hloop, hends⟩ := hstart.deleteFrom_run hb.holds hnodup s.cur_size (Nat.zero_add _)
  refine ⟨{ s' with array := fun _ => none, capacity := 0 }, ?_, hends.calls, fun x => ?_⟩
  · rw [destroy, run_bind_of_ok (run_get s)]
    exact run_bind_of_ok hloop _
  · rw [hends.timers x]
    simp only [hids.mem_iff]

/-- Two timers in one slot that had to grow. -/
theorem time_heap_destroys_two :
    ∃ s s', Reachable s [⟨1, 5, none, 0⟩, ⟨0, 9, none, 0⟩] ∧ destroy.run s = .ok ((), s') ∧
      s'.timers 0 = none ∧ s'.timers 1 = none := by
  have hzero : Reachable ⟨fun _ => none, fun _ => none, 1, 0, []⟩ [] :=
    .ofCapacity (m := ⟨fun _ => none, fun _ => none, 0, 0, []⟩) 1 le_rfl rfl
  have hone := hzero.step (.add (some ⟨0, 9, none, 0⟩)) rfl
    ((HeapOp.exec_steady _).returns (rfl : (HeapOp.exec _ 3).run _ = _))
  have htwo := hone.step (.add (some ⟨1, 5, none, 0⟩)) rfl
    ((HeapOp.exec_steady _).returns (rfl : (HeapOp.exec _ 3).run _ = _))
  obtain ⟨s', hrun, -, htimers⟩ := time_heap_destroys htwo
  exact ⟨_, s', htwo, hrun, htimers 0, htimers 1⟩

end Heap

end TimeHeap

end CLanguageLearning.Timer
