import CLanguageLearning.Timer.ListMemory

/-!
# What a tick of the sorted list fires

On a well-formed list `tick` fires the timers that are due, in the order of the list, frees exactly
these and leaves a well-formed list of the others. In a list that is built by the operations of
`11-2lst_timer.h` timers that expire at the same time stand in the order in which `add_timer` or
`adjust_timer` put them there, so this is also the order in which they fire.
-/

set_option autoImplicit false

namespace CLanguageLearning.Timer

open CLanguageLearning.Foundation

/-! ## The order of insertion -/

/-- The live timers after an operation, in the order of their latest insertion. -/
def Op.queued (Q : List Entry) : Op → List Entry
  | add e => Q ++ [e]
  | adjust x expire =>
      match Q.find? fun e => e.id = x with
      | some e => (Q.filter fun e => e.id ≠ x) ++ [{ e with expire := expire }]
      | none => Q
  | del x => Q.filter fun e => e.id ≠ x
  | tick cur => Q.filter fun e => cur < e.expire

/-- The states of the runs of the list, with the live timers in the order of their latest
insertion. -/
inductive Inserted : SortTimerLst → List Entry → Prop where
  | empty : Inserted .empty []
  | step {s s' : SortTimerLst} {Q : List Entry} (op : Op) (h : Inserted s Q) (hop : op.Allowed Q)
      (hnew : op.Fresh s) (hrun : Returns (op.exec add_timer) s ((), s')) :
      Inserted s' (op.queued Q)

/-- The entries that expire at the time `t`. -/
def atTime (t : Int) (L : List Entry) : List Entry := L.filter fun e => e.expire = t

/-- Among the entries that expire at one time the order is the same. -/
def SameAtTime (L Q : List Entry) : Prop := ∀ t, atTime t L = atTime t Q

section Order

variable {e : Entry} {L Q : List Entry} {t : Int}

theorem atTime_append (L Q : List Entry) : atTime t (L ++ Q) = atTime t L ++ atTime t Q :=
  List.filter_append ..

theorem atTime_cons_of_eq (h : e.expire = t) : atTime t (e :: L) = e :: atTime t L :=
  List.filter_cons_of_pos (decide_eq_true h)

theorem atTime_cons_of_ne (h : e.expire ≠ t) : atTime t (e :: L) = atTime t L :=
  List.filter_cons_of_neg (by simpa using h)

theorem atTime_filter (p : Entry → Bool) : atTime t (L.filter p) = (atTime t L).filter p :=
  List.filter_comm ..

theorem count_atTime (e : Entry) (L : List Entry) :
    (atTime e.expire L).count e = L.count e :=
  List.count_filter (decide_eq_true rfl)

theorem SameAtTime.perm (h : SameAtTime L Q) : L.Perm Q := by
  rw [List.perm_iff_count]
  intro e
  rw [← count_atTime e L, h, count_atTime]

/-- Taking entries out by a property keeps the order. -/
theorem SameAtTime.filter (h : SameAtTime L Q) (p : Entry → Bool) :
    SameAtTime (L.filter p) (Q.filter p) := by
  intro t
  rw [atTime_filter, h t, atTime_filter]

/-- In a list in the order of expiry a new entry comes behind those that expire at its time. -/
theorem atTime_insertEntry (hasc : Ascending L) :
    atTime t (insertEntry e L) = atTime t L ++ atTime t [e] := by
  induction L with
  | nil => rfl
  | cons a L ih =>
      obtain ⟨ha, hL⟩ := List.pairwise_cons.mp hasc
      by_cases hlt : e.expire < a.expire
      · rw [insertEntry_cons_of_lt hlt]
        by_cases ht : e.expire = t
        · -- neither `a` nor any entry behind it expires at that time
          have hnone : atTime t (a :: L) = [] := by
            rw [atTime, List.filter_eq_nil_iff]
            intro b hb
            rw [decide_eq_true_eq]
            rcases List.mem_cons.mp hb with rfl | hb
            · omega
            · have := ha b hb
              omega
          rw [atTime_cons_of_eq ht, atTime_cons_of_eq ht, hnone]
          rfl
        · rw [atTime_cons_of_ne ht, atTime_cons_of_ne ht]
          exact (List.append_nil _).symm
      · rw [insertEntry_cons_of_le (not_lt.mp hlt)]
        by_cases ht : a.expire = t
        · rw [atTime_cons_of_eq ht, atTime_cons_of_eq ht, ih hL, List.cons_append]
        · rw [atTime_cons_of_ne ht, atTime_cons_of_ne ht, ih hL]

theorem SameAtTime.insert (h : SameAtTime L Q) (hasc : Ascending L) (e : Entry) :
    SameAtTime (insertEntry e L) (Q ++ [e]) := by
  intro t
  rw [atTime_insertEntry hasc, h t, atTime_append]

theorem find_eq_some_of_mem (hnodup : (ids L).Nodup) (he : e ∈ L) :
    (L.find? fun a => a.id = e.id) = some e := by
  obtain ⟨A, B, rfl⟩ := List.append_of_mem he
  exact find_mid hnodup

/-- Every operation keeps the order among timers that expire at one time that of their insertion. -/
theorem SameAtTime.step {op : Op} (h : SameAtTime L Q) (hnodup : (ids L).Nodup)
    (hasc : Ascending L) (hop : op.Allowed L) : SameAtTime (op.sorted L) (op.queued Q) := by
  cases op with
  | add e => exact h.insert hasc e
  | adjust x expire =>
      obtain ⟨e, he, rfl, -⟩ := hop
      have hp := h.perm
      have hnodup' : (ids Q).Nodup := (hp.map Entry.id).nodup_iff.mp hnodup
      rw [Op.sorted, Op.queued, find_eq_some_of_mem hnodup he,
        find_eq_some_of_mem hnodup' (hp.mem_iff.mp he)]
      exact (h.filter _).insert (hasc.sublist List.filter_sublist) _
  | del x => exact h.filter _
  | tick cur =>
      rw [Op.sorted, pending_eq_filter hasc]
      exact h.filter _

end Order

section Runs

variable {s : SortTimerLst} {Q : List Entry}

theorem Inserted.represents (h : Inserted s Q) :
    ∃ L, Represents Tidy s L ∧ SameAtTime L Q := by
  induction h with
  | empty => exact ⟨[], .empty Tidy rfl, fun _ => rfl⟩
  | step op _ hop hnew hrun ih =>
      obtain ⟨L, hL, hsame⟩ := ih
      have hop' := hop.perm hsame.perm.symm
      obtain ⟨s', hrun', hL', -⟩ :=
        Op.exec_returns tidy_none add_timer_steady add_timer_inserts hL op hop' hnew trivial
      cases hrun.unique hrun'
      exact ⟨op.sorted L, hL', hsame.step hL.nodup hL.ascending hop'⟩

/-- Every operation a user may ask for returns, and the run goes on. -/
theorem Inserted.next (h : Inserted s Q) (op : Op) (hop : op.Allowed Q) (hnew : op.Fresh s) :
    ∃ s', Returns (op.exec add_timer) s ((), s') ∧ Inserted s' (op.queued Q) := by
  obtain ⟨L, hL, hsame⟩ := h.represents
  obtain ⟨s', hrun, -⟩ := Op.exec_returns tidy_none add_timer_steady add_timer_inserts hL op
    (hop.perm hsame.perm.symm) hnew trivial
  exact ⟨s', hrun, .step op h hop hnew hrun⟩

end Runs

/-! ## A tick of a well-formed list -/

section Tick

variable {s : SortTimerLst} {live order L : List Entry} {cur : Int}

/-- The links of a well-formed list are those of the chain from the head. -/
theorem SortTimerLst.WellFormed.represents (h : s.WellFormed live order) :
    Represents Tidy s order where
  nodup := h.once
  ascending := h.ascending
  head := h.chain.head
  list hne := by
    refine ⟨s.next, s.prev, ⟨?_, ?_, ?_⟩, ?_⟩
    · intro e he
      obtain ⟨t, ht, hexp, hcb, hdata⟩ := h.stored e he
      rw [ht, Entry.timer, SortTimerLst.next, SortTimerLst.prev, ht, ← hexp, ← hcb, ← hdata]
      rfl
    · exact .of_follows h.chain fun a ha b hb hab => (h.inverse b hb a).mpr ⟨ha, hab⟩
    · obtain ⟨x, htail, hlast, -⟩ := h.last hne
      rw [htail, hlast]
    · intro x hx
      rw [← h.chain.head] at hx
      exact h.first x hx

theorem Entry.eq_of_fields {e a : Entry} (hid : e.id = a.id) (hexp : e.expire = a.expire)
    (hcb : e.cb_func = a.cb_func) (hdata : e.user_data = a.user_data) : e = a := by
  cases e
  cases a
  cases hid
  cases hexp
  cases hcb
  cases hdata
  rfl

/-- The chain from the head determines the order of the timers. -/
theorem SortTimerLst.Chained.unique (h : s.Chained order) (h' : s.Chained L) : order = L := by
  have hids : ids order = ids L := h.chain.unique h'.chain
  have hlen : order.length = L.length := by
    rw [← List.length_map Entry.id, ← List.length_map Entry.id]
    exact congrArg List.length hids
  refine List.ext_getElem hlen fun k hk hk' => ?_
  -- the entries at one place have one name, and so the same fields in memory
  have hid : order[k].id = L[k].id := by
    have := List.getElem_of_eq hids (i := k) (by simpa [ids] using hk)
    simpa [ids] using this
  obtain ⟨t, ht, hexp, hcb, hdata⟩ := h.stored _ (List.getElem_mem hk)
  obtain ⟨t', ht', hexp', hcb', hdata'⟩ := h'.stored _ (List.getElem_mem hk')
  rw [hid, ht', Option.some.injEq] at ht
  subst ht
  exact Entry.eq_of_fields hid (hexp.symm.trans hexp') (hcb.symm.trans hcb')
    (hdata.symm.trans hdata')

/-- The tick returns with the due timers fired, in the order of the list, and freed. -/
theorem Represents.tick_fires (h : Represents Tidy s order) (hp : order.Perm live) (cur : Int) :
    ∃ s', Returns (tick cur) s ((), s') ∧
      s'.calls = s.calls ++ (order.filter fun e => e.expire ≤ cur).map Entry.call ∧
      (∀ x, s'.inMemory x =
        (s.inMemory x && decide (x ∉ ids (order.filter fun e => e.expire ≤ cur)))) ∧
      s'.WellFormed (live.filter fun e => cur < e.expire)
        (order.filter fun e => cur < e.expire) := by
  obtain ⟨s', hrun, h', hcalls⟩ :
      ∃ s', (tick cur (order.length + 1)).run s = .ok ((), s') ∧
        Represents Tidy s' (Op.sorted order (.tick cur)) ∧
        s'.calls = s.calls ++ Op.fired order (.tick cur) :=
    tick_run tidy_none h (Nat.lt_succ_self _)
  rw [Op.sorted, pending_eq_filter h.ascending] at h'
  rw [Op.fired, due_eq_filter h.ascending] at hcalls
  refine ⟨s', (tick_steady cur).returns hrun, hcalls, ?_, h'.wellFormed (hp.filter _)⟩
  -- the timers that are freed are those whose callbacks are called
  obtain ⟨calls, hcalls', hmem⟩ := tick_frees hrun
  rw [hcalls] at hcalls'
  have hnames : ids (order.filter fun e => e.expire ≤ cur) = calls.map Call.timer := by
    rw [← List.append_cancel_left hcalls', List.map_map]
    rfl
  intro x
  rw [hmem, hnames]

/-- On a well-formed list `tick` fires exactly the timers that are due, each once, in the order of
the list, frees exactly these and leaves the others as a well-formed list in the same order; and in
a list that a run has built, timers that expire at the same time stand in the order of their
insertion. -/
theorem tick_fires_in_order (h : s.WellFormed live order) (cur : Int) :
    (∃ s', Returns (tick cur) s ((), s') ∧
      s'.calls = s.calls ++ (order.filter fun e => e.expire ≤ cur).map Entry.call ∧
      (∀ x, s'.inMemory x =
        (s.inMemory x && decide (x ∉ ids (order.filter fun e => e.expire ≤ cur)))) ∧
      s'.WellFormed (live.filter fun e => cur < e.expire)
        (order.filter fun e => cur < e.expire)) ∧
    ∀ Q, Inserted s Q → ∀ t : Int,
      (order.filter fun e => e.expire = t) = Q.filter fun e => e.expire = t := by
  refine ⟨h.represents.tick_fires h.members cur, ?_⟩
  intro Q hQ
  obtain ⟨L, hL, hsame⟩ := hQ.represents
  rw [h.toChained.unique hL.linked.chained]
  exact hsame

/-- Two timers for the same time, of which timer 1 was inserted first. -/
theorem tick_fires_in_order_equal :
    ∃ s, Inserted s [⟨1, 5, 7, 1⟩, ⟨0, 5, 7, 0⟩] ∧
      ∃ order, s.WellFormed [⟨1, 5, 7, 1⟩, ⟨0, 5, 7, 0⟩] order ∧
        (∃ s', Returns (tick 5) s ((), s') ∧
          s'.calls = s.calls ++ (order.filter fun e => e.expire ≤ 5).map Entry.call ∧
          (∀ x, s'.inMemory x =
            (s.inMemory x && decide (x ∉ ids (order.filter fun e => e.expire ≤ 5)))) ∧
          s'.WellFormed ([⟨1, 5, 7, 1⟩, ⟨0, 5, 7, 0⟩].filter fun e => 5 < e.expire)
            (order.filter fun e => 5 < e.expire)) ∧
        ∀ Q, Inserted s Q → ∀ t : Int,
          (order.filter fun e => e.expire = t) = Q.filter fun e => e.expire = t := by
  obtain ⟨s, hrun, h⟩ := Inserted.empty.next (.add ⟨1, 5, 7, 1⟩) trivial rfl
  have hnew : (Op.add ⟨0, 5, 7, 0⟩).Fresh s := by
    obtain ⟨N, hN⟩ := hrun
    have hone := (hN (N + 1) (Nat.le_succ N)).symm.trans
      (rfl : ((Op.add ⟨1, 5, 7, 1⟩).exec add_timer (N + 1)).run .empty = _)
    cases hone
    rfl
  obtain ⟨s', -, h'⟩ := h.next (.add ⟨0, 5, 7, 0⟩) trivial hnew
  obtain ⟨L, hL, hsame⟩ := h'.represents
  have hwf := hL.wellFormed hsame.perm
  exact ⟨s', h', L, hwf, tick_fires_in_order hwf 5⟩

end Tick

end CLanguageLearning.Timer
