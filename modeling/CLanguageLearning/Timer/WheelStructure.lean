import CLanguageLearning.Timer.WheelRuns

/-!
# The structure of the time wheel

A user of the wheel knows which timers are pending: created, and neither deleted nor called since.
Their ticks to go are counted here from the operations and the calls alone, as integers. In every
state of a run the pending timers are the live ones, each of them stands once in the list of its own
slot and in no other, and nothing points at a timer that is not pending.
-/

set_option autoImplicit false

namespace CLanguageLearning.Timer

open CLanguageLearning.Foundation

namespace WheelOp

/-- The pending timers after an operation that made the calls `called`, with their ticks to go. -/
def pending (called : List Call) (live : Nat → Option Int) : WheelOp → Nat → Option Int
  | add x timeout _ _, y =>
      if x = y ∧ 0 ≤ timeout then some (max 1 (timeout / TimeWheel.TI)) else live y
  | del timer, y => if timer = some y then none else live y
  | tick, y => if y ∈ called.map Call.timer then none else (live y).map fun left => left - 1

end WheelOp

namespace TimeWheel

/-- The states of the runs of the wheel, with the pending timers. -/
inductive Pending : TimeWheel → (Nat → Option Int) → Prop where
  | empty : Pending empty fun _ => none
  | step {s t : TimeWheel} {live : Nat → Option Int} {called : List Call} (op : WheelOp)
      (h : Pending s live) (hop : op.Allowed s) (hrun : Returns op.exec s ((), t))
      (hcalls : t.calls = s.calls ++ called) : Pending t (op.pending called live)

section Pending

variable {s t : TimeWheel} {live : Nat → Option Int} {called : List Call} {chain : Nat → List Nat}
  {x : Nat}

/-- The ticks to go at the address `x`, as an integer. -/
def ticksToGo (s : TimeWheel) (x : Nat) : Option Int :=
  (s.countdown x).map fun c => (c.left : Int)

theorem mem_timers_iff (called : List Call) (x : Nat) :
    x ∈ called.map Call.timer ↔ called.filter (fun c => c.timer = x) ≠ [] := by
  rw [Ne, List.filter_eq_nil_iff, List.mem_map]
  simp

theorem cast_ticksOf {timeout : Int} (htimeout : 0 ≤ timeout) :
    ((ticksOf timeout : Nat) : Int) = max 1 (timeout / TI) := by
  rw [ticksOf_eq htimeout, TI]
  omega

/-- One operation moves the pending timers as the countdowns move. -/
theorem pending_of_counts {op : WheelOp} (hlive : ∀ y, live y = s.ticksToGo y)
    (hcount : ∀ y, t.countdown y = op.count y (s.countdown y) ∧
      called.filter (fun c => c.timer = y) = op.rings y (s.countdown y)) (y : Nat) :
    op.pending called live y = t.ticksToGo y := by
  obtain ⟨hy, hrings⟩ := hcount y
  have hlivey := hlive y
  rw [ticksToGo] at hlivey ⊢
  cases op with
  | add x timeout cb_func user_data =>
      rw [hy, WheelOp.count, WheelOp.pending]
      by_cases hnew : x = y ∧ 0 ≤ timeout
      · rw [if_pos hnew, if_pos hnew, Option.map_some, cast_ticksOf hnew.2]
      · rw [if_neg hnew, if_neg hnew, hlivey]
  | del timer =>
      rw [hy, WheelOp.count, WheelOp.pending, hlivey]
      split_ifs <;> rfl
  | tick =>
      have hmem := mem_timers_iff called y
      rw [hy, WheelOp.pending, hlivey]
      cases hc : s.countdown y with
      | none => exact ite_self _
      | some c =>
          rw [hrings, hc, WheelOp.rings] at hmem
          rw [WheelOp.count, Option.bind_some]
          by_cases hleft : c.left = 0
          · rw [if_pos hleft] at hmem
            rw [if_pos (hmem.mpr (List.cons_ne_nil _ _)), if_pos hleft, Option.map_none]
          · rw [if_neg hleft] at hmem
            rw [if_neg fun hcalled => hmem.mp hcalled rfl, if_neg hleft]
            simp only [Option.map_some, Option.some.injEq]
            omega

/-- In every state of a run the wheel is well-formed, and its countdowns are the ticks to go. -/
theorem Pending.wellFormed (h : Pending s live) :
    WellFormed s ∧ ∀ y, live y = s.ticksToGo y := by
  induction h with
  | empty => exact ⟨wellFormed_empty, fun y => rfl⟩
  | @step s t live called op _ hop hrun hcalls ih =>
      obtain ⟨hs, hlive⟩ := ih
      obtain ⟨t', hrun', ht, new, hnew, hcount⟩ := exec_counts hs op hop
      cases hrun.unique hrun'
      have hcalled : called = new := List.append_cancel_left (hcalls.symm.trans hnew)
      subst hcalled
      exact ⟨ht, fun y => (pending_of_counts hlive hcount y)⟩

/-- A live timer stands once in the list of its slot and in no other. -/
theorem Chained.count_eq (h : Chained s chain) {u : TwTimer} (hu : s.timers x = some u) (i : Nat) :
    (chain i).count x = if i = u.time_slot then 1 else 0 := by
  have hmem := h.mem hu
  split_ifs with hi
  · exact List.count_eq_one_of_mem (h.nodup i) (hi ▸ hmem)
  · exact List.count_eq_zero_of_not_mem fun hx => hi (h.slot_unique hx hmem)

/-- Nothing points at an address without a live timer. -/
theorem Chained.unreachable (h : Chained s chain) (hx : s.timers x = none) :
    (∀ i, s.slots i ≠ some x ∧ x ∉ chain i) ∧
      ∀ y u, s.timers y = some u → u.next ≠ some x ∧ u.prev ≠ some x := by
  have hout : ∀ i, x ∉ chain i := by
    intro i hi
    obtain ⟨u, hu, -⟩ := h.live hi
    rw [hx] at hu
    cases hu
  refine ⟨fun i => ⟨?_, hout i⟩, fun y u hu => ⟨?_, ?_⟩⟩
  · intro hi
    rw [h.slots] at hi
    exact hout i (List.mem_of_head? hi)
  · intro hn
    rw [← next_eq hu] at hn
    exact hout _ (h.prev_of_next (h.mem hu) hn).1
  · intro hp
    rw [← prev_eq hu] at hp
    exact hout _ (h.next_of_prev (h.mem hu) hp).1

/-- The ticks to go of a live timer, from its rotation and the way from the current slot. -/
theorem WellFormed.ticksToGo_eq (h : WellFormed s) {u : TwTimer} (hu : s.timers x = some u) :
    s.ticksToGo x = some ((u.rotation * N + (u.time_slot + N - s.cur_slot) % N : Nat) : Int) := by
  have hc : s.settingOf x = some ⟨u.rotation, u.time_slot, u.cb_func, u.user_data⟩ :=
    settingOf_eq hu
  obtain ⟨f, d, hf, hd⟩ := Setting.Armed.exists_eq (h.armed x _ hc)
  rw [ticksToGo, countdown_eq hc hf hd, Option.map_some]

theorem Pending.isSome_live (h : Pending s live) (x : Nat) :
    (live x).isSome = (s.timers x).isSome := by
  obtain ⟨hs, hlive⟩ := h.wellFormed
  rw [hlive, ticksToGo, Option.isSome_map, hs.isSome_countdown]

/-- In every state of a run of the wheel: the current slot is one of the `N`, every slot has a
finite list linked both ways with nothing before its first timer, every pending timer is live and
stands once in the list of its own slot and in no other, and no address that is not pending, such as
that of a timer deleted or called, has a live timer or is pointed at. The rotation of a pending
timer counts the whole turns of its ticks to go, so it is not negative. Every operation that is
provided for returns, so the run goes on. -/
theorem slots_hold_pending (h : Pending s live) :
    s.cur_slot < N ∧
      (∃ chain : Nat → List Nat,
        (∀ i, i < N → Follows s.next (s.slots i) (chain i) ∧
          (chain i).IsChain (Foundation.Linked s.next s.prev) ∧
          ∀ x, s.slots i = some x → s.prev x = none) ∧
        (∀ x left, live x = some left → ∃ u, s.timers x = some u ∧ u.time_slot < N ∧
          (∀ i, i < N → (chain i).count x = if i = u.time_slot then 1 else 0) ∧
          left = u.rotation * N + (u.time_slot + N - s.cur_slot) % N) ∧
        ∀ x, live x = none → s.timers x = none ∧
          (∀ i, i < N → s.slots i ≠ some x ∧ x ∉ chain i) ∧
          ∀ y u, s.timers y = some u → u.next ≠ some x ∧ u.prev ≠ some x) ∧
      ∀ op : WheelOp, op.Allowed s → ∃ t, Returns op.exec s ((), t) := by
  obtain ⟨hs, hlive⟩ := h.wellFormed
  obtain ⟨chain, hchain⟩ := hs.chained
  refine ⟨hchain.cur_slot, ⟨chain, fun i _ => ⟨?_, (hchain.threaded i).links, ?_⟩, ?_, ?_⟩, ?_⟩
  · exact (hchain.slots i).symm ▸ (hchain.threaded i).follows
  · intro x hx
    exact hchain.first i x (hchain.slots i ▸ hx)
  · intro x left hx
    obtain ⟨u, hu⟩ : ∃ u, s.timers x = some u := by
      rw [← Option.isSome_iff_exists, ← h.isSome_live, hx]
      rfl
    refine ⟨u, hu, hchain.lt (hchain.mem hu), fun i _ => hchain.count_eq hu i, ?_⟩
    rw [hlive, hs.ticksToGo_eq hu, Option.some.injEq] at hx
    have hcur := hchain.cur_slot
    unfold N at hx hcur ⊢
    omega
  · intro x hx
    have hdead : s.timers x = none := by
      rw [← Option.isNone_iff_eq_none, ← Option.not_isSome, ← h.isSome_live, hx]
      rfl
    obtain ⟨hslots, hlinks⟩ := hchain.unreachable hdead
    exact ⟨hdead, fun i _ => hslots i, hlinks⟩
  · intro op hop
    obtain ⟨t, hrun, -⟩ := exec_counts hs op hop
    exact ⟨t, hrun⟩

/-- Two timers of one slot that have seen a tick. -/
theorem slots_hold_pending_two :
    ∃ s live, Pending s live ∧ live 0 = some 59 ∧ live 1 = some 119 ∧ s.cur_slot < N ∧
      (∃ u, s.timers 0 = some u ∧
        (59 : Int) = u.rotation * N + (u.time_slot + N - s.cur_slot) % N) ∧
      ∃ u, s.timers 1 = some u ∧
        (119 : Int) = u.rotation * N + (u.time_slot + N - s.cur_slot) % N := by
  have hone : Pending _ _ := Pending.empty.step (.add 0 60 7 9) rfl ⟨0, fun _ _ => rfl⟩
    (List.append_nil _).symm
  have htwo : Pending _ _ := hone.step (.add 1 120 7 9) rfl ⟨0, fun _ _ => rfl⟩
    (List.append_nil _).symm
  have htick : Pending _ _ := htwo.step .tick trivial
    (tick_steady.returns (rfl : (tick 3).run _ = _)) (List.append_nil _).symm
  obtain ⟨hcur, ⟨chain, -, hlive, -⟩, -⟩ := slots_hold_pending htick
  obtain ⟨u, hu, -, -, hleft⟩ := hlive 0 59 (by decide)
  obtain ⟨v, hv, -, -, hright⟩ := hlive 1 119 (by decide)
  exact ⟨_, _, htick, by decide, by decide, hcur, ⟨u, hu, hleft⟩, v, hv, hright⟩

end Pending

end TimeWheel

end CLanguageLearning.Timer
