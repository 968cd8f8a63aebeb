import CLanguageLearning.Timer.ListSteps

/-!
# Runs of the two sorted timer lists

A run starts with an empty list and applies operations whose arguments a user may provide. The two
classes are runs of the same operations with their own `add_timer`.

The class of `11-2lst_timer.h` keeps a well-formed list in every run. The webserver's does so as
long as no timer is inserted before the head, and its list is broken right after the first one that
is: the new head is its own previous timer. No other function ever reads that pointer of the head,
so the two classes still hold the same timers in the same order and call the same callbacks.
-/

set_option autoImplicit false

namespace CLanguageLearning.Timer

open CLanguageLearning.Foundation

/-! ## Operations of a class -/

/-- An operation, for the class with the public member function `add`. -/
def Op.exec (add : Nat → Option Nat → Exec SortTimerLst Unit) :
    Op → Nat → Exec SortTimerLst Unit
  | .add e, fuel => do
      newTimer e.id e.expire e.cb_func e.user_data
      add fuel (some e.id)
  | .adjust x expire, fuel => do
      writeTimer (some x) fun t => { t with expire := expire }
      adjust_timer fuel (some x)
  | .del x, _ => del_timer (some x)
  | .tick cur, fuel => Timer.tick cur fuel

/-- A new timer is at an address without a live one. -/
def Op.Fresh (s : SortTimerLst) : Op → Prop
  | .add e => s.timers e.id = none
  | _ => True

section Steady

/-- More turns do not change where a timer is inserted. -/
theorem insertLoop_steady (timer prev tmp : Option Nat) :
    Steady fun fuel => insertLoop timer fuel prev tmp := by
  refine .of_succ fun fuel => ?_
  induction fuel generalizing prev tmp with
  | zero => exact .of_throw _ _
  | succ fuel ih =>
      exact .ite (.refl _) (.next fun _ => .next fun n => .ite (.refl _) (ih tmp n.next))

theorem add_timer_from_steady (timer lst_head : Option Nat) :
    Steady fun fuel => add_timer_from fuel timer lst_head :=
  fun fuel fuel' hle => .next fun h => insertLoop_steady timer lst_head h.next fuel fuel' hle

theorem add_timer_steady (timer : Option Nat) : Steady fun fuel => add_timer fuel timer := by
  intro fuel fuel' hle
  refine .ite (.refl _) (.next fun s => .ite (.refl _) (.next fun _ => .next fun _ => ?_))
  exact .ite (.refl _) (add_timer_from_steady timer s.head fuel fuel' hle)

theorem Webserver.add_timer_steady (timer : Option Nat) :
    Steady fun fuel => Webserver.add_timer fuel timer := by
  intro fuel fuel' hle
  refine .ite (.refl _) (.next fun s => .ite (.refl _) (.next fun _ => .next fun _ => ?_))
  refine .ite (.next fun _ => .next fun _ => .next fun _ => ?_)
    (add_timer_from_steady timer s.head fuel fuel' hle)
  exact add_timer_from_steady timer timer fuel fuel' hle

theorem moveTimer_steady (timer : Option Nat) : Steady fun fuel => moveTimer fuel timer := by
  intro fuel fuel' hle
  refine .next fun s => .ite (.next fun h => .next fun _ => .next fun _ => .next fun _ => ?_)
    (.next fun _ => .next fun _ => .next fun _ => .next fun _ => .next fun t => ?_)
  · exact add_timer_from_steady timer h.next fuel fuel' hle
  · exact add_timer_from_steady timer t.next fuel fuel' hle

theorem adjust_timer_steady (timer : Option Nat) : Steady fun fuel => adjust_timer fuel timer := by
  intro fuel fuel' hle
  refine .ite (.refl _) (.next fun _ => .ite (.refl _) (.next fun _ => .ite (.refl _) ?_))
  exact moveTimer_steady timer fuel fuel' hle

/-- More turns do not change what a tick does. -/
theorem tickLoop_steady (cur : Int) (tmp : Option Nat) :
    Steady fun fuel => tickLoop cur fuel tmp := by
  refine .of_succ fun fuel => ?_
  induction fuel generalizing tmp with
  | zero => exact .of_throw _ _
  | succ fuel ih =>
      cases tmp with
      | none => exact .refl _
      | some x =>
          refine .next fun t => .ite (.refl _) (.next fun _ => .next fun _ => .ite ?_ ?_)
          · exact .next fun _ => ih t.next
          · exact .next fun _ => .next fun _ => ih t.next

theorem tick_steady (cur : Int) : Steady (tick cur) :=
  fun fuel fuel' hle => .next fun s => .ite (.refl _) (tickLoop_steady cur s.head fuel fuel' hle)

theorem Op.exec_steady {add : Nat → Option Nat → Exec SortTimerLst Unit}
    (hadd : ∀ timer, Steady fun fuel => add fuel timer) (op : Op) : Steady (op.exec add) := by
  intro fuel fuel' hle
  cases op with
  | add e => exact .next fun _ => hadd _ fuel fuel' hle
  | adjust x expire => exact .next fun _ => adjust_timer_steady _ fuel fuel' hle
  | del x => exact .refl _
  | tick cur => exact tick_steady cur fuel fuel' hle

end Steady

/-! ## One step -/

/-- Every previous pointer is allowed to the first timer that the first class leaves: none. -/
def Tidy (_ : Nat) (p : Option Nat) : Prop := p = none

/-- In the webserver's class the first timer may also be its own previous one. -/
def Loose (x : Nat) (p : Option Nat) : Prop := p = none ∨ p = some x

/-- In states that meet `C`, the member function `add` inserts a new timer in order. -/
def Inserts (add : Nat → Option Nat → Exec SortTimerLst Unit) (P : Nat → Option Nat → Prop)
    (C : SortTimerLst → Op → Prop) : Prop :=
  ∀ s L e fuel, Represents P s L → s.timers e.id = none → C s (.add e) → L.length < fuel →
    ∃ s₁ s', (newTimer e.id e.expire e.cb_func e.user_data).run s = .ok ((), s₁) ∧
      (add fuel (some e.id)).run s₁ = .ok ((), s') ∧ Represents P s' (insertEntry e L) ∧
      s'.calls = s.calls

/-- No timer is inserted before the head. -/
def BehindHead (s : SortTimerLst) : Op → Prop
  | .add e => ∀ x ∈ s.head, ∀ t, s.timers x = some t → t.expire ≤ e.expire
  | _ => True

/-- No condition on the steps of a run. -/
def Always (_ : SortTimerLst) (_ : Op) : Prop := True

/-- The class of `11-2lst_timer.h` inserts a new timer, also in a list that is not in order. -/
theorem add_timer_linked {s : SortTimerLst} {L : List Entry} {e : Entry} {fuel : Nat}
    (h : Linked Tidy s L) (hnew : s.timers e.id = none) (hfuel : L.length < fuel) :
    ∃ s₁ s', (newTimer e.id e.expire e.cb_func e.user_data).run s = .ok ((), s₁) ∧
      (add_timer fuel (some e.id)).run s₁ = .ok ((), s') ∧ Linked Tidy s' (insertEntry e L) ∧
      s'.calls = s.calls := by
  cases L with
  | nil =>
      obtain ⟨s₁, s', hnew', hrun, -, h', hcalls⟩ := add_timer_run_empty fuel h rfl hnew
      exact ⟨s₁, s', hnew', hrun, h', hcalls⟩
  | cons a T =>
      rw [List.length_cons] at hfuel
      by_cases hlt : e.expire < a.expire
      · exact add_timer_run_front h rfl hnew hlt
      · obtain ⟨s₁, s', hnew', hrun, -, h', hcalls⟩ :=
          add_timer_run_behind h hnew (not_lt.mp hlt) (by omega : T.length < fuel)
        exact ⟨s₁, s', hnew', hrun, h', hcalls⟩

theorem add_timer_inserts : Inserts add_timer Tidy Always := by
  intro s L e fuel h hnew _ hfuel
  obtain ⟨s₁, s', hnew', hrun, h', hcalls⟩ := add_timer_linked h.linked hnew hfuel
  exact ⟨s₁, s', hnew', hrun, h'.represents (ascending_insertEntry h.ascending), hcalls⟩

theorem Webserver.add_timer_inserts : Inserts Webserver.add_timer Loose Always := by
  intro s L e fuel h hnew _ hfuel
  have hasc := ascending_insertEntry (e := e) h.ascending
  cases L with
  | nil =>
      obtain ⟨s₁, s', hnew', -, hrun, h', hcalls⟩ :=
        add_timer_run_empty fuel h.linked (.inl rfl) hnew
      exact ⟨s₁, s', hnew', hrun, h'.represents hasc, hcalls⟩
  | cons a T =>
      rw [List.length_cons] at hfuel
      by_cases hlt : e.expire < a.expire
      · obtain ⟨fuel, rfl⟩ := Nat.exists_eq_succ_of_ne_zero (by omega : fuel ≠ 0)
        obtain ⟨s₁, s', hnew', hrun, h', hcalls, -⟩ :=
          Webserver.add_timer_run_front fuel h.linked (.inr rfl) hnew hlt
        exact ⟨s₁, s', hnew', hrun, h'.represents hasc, hcalls⟩
      · obtain ⟨s₁, s', hnew', -, hrun, h', hcalls⟩ :=
          add_timer_run_behind h.linked hnew (not_lt.mp hlt) (by omega : T.length < fuel)
        exact ⟨s₁, s', hnew', hrun, h'.represents hasc, hcalls⟩

/-- The expiry time of the head. -/
theorem Represents.head_timer {P : Nat → Option Nat → Prop} {s : SortTimerLst} {a : Entry}
    {T : List Entry} (h : Represents P s (a :: T)) :
    s.head = some a.id ∧ ∃ t, s.timers a.id = some t ∧ t.expire = a.expire := by
  obtain ⟨nx, pv, hl, -⟩ := h.list (List.cons_ne_nil a T)
  exact ⟨h.head, _, hl.stored a (List.mem_cons_self ..), rfl⟩

/-- Behind the head the webserver's class leaves the pointers of the other class. -/
theorem Webserver.add_timer_inserts_behind : Inserts Webserver.add_timer Tidy BehindHead := by
  intro s L e fuel h hnew hC hfuel
  have hasc := ascending_insertEntry (e := e) h.ascending
  cases L with
  | nil =>
      obtain ⟨s₁, s', hnew', -, hrun, h', hcalls⟩ := add_timer_run_empty fuel h.linked rfl hnew
      exact ⟨s₁, s', hnew', hrun, h'.represents hasc, hcalls⟩
  | cons a T =>
      rw [List.length_cons] at hfuel
      obtain ⟨hhead, t, ht, hexp⟩ := h.head_timer
      have hle : a.expire ≤ e.expire := hexp ▸ hC a.id hhead t ht
      obtain ⟨s₁, s', hnew', -, hrun, h', hcalls⟩ :=
        add_timer_run_behind h.linked hnew hle (by omega : T.length < fuel)
      exact ⟨s₁, s', hnew', hrun, h'.represents hasc, hcalls⟩

section Step

variable {add : Nat → Option Nat → Exec SortTimerLst Unit} {P : Nat → Option Nat → Prop}
  {C : SortTimerLst → Op → Prop} {s : SortTimerLst} {L : List Entry}

/-- Every operation returns, with the entries in their sorted order and the calls it is for. -/
theorem Op.exec_run (hP : ∀ x, P x none) (hins : Inserts add P C) (h : Represents P s L) (op : Op)
    (hop : op.Allowed L) (hnew : op.Fresh s) (hC : C s op) {fuel : Nat} (hfuel : L.length < fuel) :
    ∃ s', (op.exec add fuel).run s = .ok ((), s') ∧ Represents P s' (op.sorted L) ∧
      s'.calls = s.calls ++ op.fired L := by
  cases op with
  | add e =>
      obtain ⟨s₁, s', hnew', hrun, h', hcalls⟩ := hins s L e fuel h hnew hC hfuel
      refine ⟨s', (run_bind_of_ok hnew' _).trans hrun, h', ?_⟩
      rw [hcalls]
      exact (List.append_nil _).symm
  | adjust x expire =>
      obtain ⟨e, he, rfl, hexp⟩ := hop
      obtain ⟨s₁, s', hwrite, hrun, h', hcalls⟩ := adjust_timer_run hP h he hexp hfuel.le
      refine ⟨s', (run_bind_of_ok hwrite _).trans hrun, h', ?_⟩
      rw [hcalls]
      exact (List.append_nil _).symm
  | del x =>
      obtain ⟨e, he, rfl⟩ := hop
      obtain ⟨s', hrun, h', hcalls⟩ := del_timer_run hP h he
      refine ⟨s', hrun, h', ?_⟩
      rw [hcalls]
      exact (List.append_nil _).symm
  | tick cur => exact tick_run hP h hfuel

/-- The result does not depend on the number of turns. -/
theorem Op.exec_returns (hP : ∀ x, P x none) (hadd : ∀ timer, Steady fun fuel => add fuel timer)
    (hins : Inserts add P C) (h : Represents P s L) (op : Op) (hop : op.Allowed L)
    (hnew : op.Fresh s) (hC : C s op) :
    ∃ s', Returns (op.exec add) s ((), s') ∧ Represents P s' (op.sorted L) ∧
      s'.calls = s.calls ++ op.fired L := by
  obtain ⟨s', hrun, hrest⟩ := Op.exec_run hP hins h op hop hnew hC (Nat.lt_succ_self _)
  exact ⟨s', (Op.exec_steady hadd op).returns hrun, hrest⟩

theorem Op.Allowed.perm {L L' : List Entry} {op : Op} (h : op.Allowed L) (hp : L.Perm L') :
    op.Allowed L' := by
  cases op with
  | add e => trivial
  | adjust x expire =>
      obtain ⟨e, he, hrest⟩ := h
      exact ⟨e, hp.mem_iff.mp he, hrest⟩
  | del x =>
      obtain ⟨e, he, hrest⟩ := h
      exact ⟨e, hp.mem_iff.mp he, hrest⟩
  | tick cur => trivial

end Step

/-! ## Runs -/

/-- The states of the runs of a class whose steps meet `C`, with the timers that were added and
have neither been deleted nor fired. -/
inductive Reachable (add : Nat → Option Nat → Exec SortTimerLst Unit)
    (C : SortTimerLst → Op → Prop) : SortTimerLst → List Entry → Prop where
  | empty : Reachable add C .empty []
  | step {s s' : SortTimerLst} {live : List Entry} (op : Op) (h : Reachable add C s live)
      (hop : op.Allowed live) (hnew : op.Fresh s) (hC : C s op)
      (hrun : Returns (op.exec add) s ((), s')) : Reachable add C s' (op.live live)

section Runs

variable {add : Nat → Option Nat → Exec SortTimerLst Unit} {P : Nat → Option Nat → Prop}
  {C : SortTimerLst → Op → Prop} {s s' : SortTimerLst} {live : List Entry}

theorem Reachable.mono {D : SortTimerLst → Op → Prop} (h : Reachable add C s live)
    (hCD : ∀ s op, C s op → D s op) : Reachable add D s live := by
  induction h with
  | empty => exact .empty
  | step op _ hop hnew hC hrun ih => exact .step op ih hop hnew (hCD _ op hC) hrun

/-- In every state of a run the list holds the live timers. -/
theorem Reachable.represents (hP : ∀ x, P x none)
    (hadd : ∀ timer, Steady fun fuel => add fuel timer) (hins : Inserts add P C)
    (h : Reachable add C s live) : ∃ L, Represents P s L ∧ L.Perm live := by
  induction h with
  | empty => exact ⟨[], .empty P rfl, .refl _⟩
  | step op _ hop hnew hC hrun ih =>
      obtain ⟨L, hL, hp⟩ := ih
      have hop' := hop.perm hp.symm
      obtain ⟨s', hrun', hL', -⟩ := Op.exec_returns hP hadd hins hL op hop' hnew hC
      cases hrun.unique hrun'
      exact ⟨op.sorted L, hL', Op.sorted_perm_live hL.nodup hL.ascending hop' hp⟩

/-- A step whose result is computed with some number of turns. -/
theorem Reachable.step_run (fuel : Nat) (hadd : ∀ timer, Steady fun fuel => add fuel timer)
    (op : Op) (h : Reachable add C s live) (hop : op.Allowed live) (hnew : op.Fresh s) (hC : C s op)
    (hrun : (op.exec add fuel).run s = .ok ((), s')) : Reachable add C s' (op.live live) :=
  .step op h hop hnew hC ((Op.exec_steady hadd op).returns hrun)

end Runs

/-! ## Well-formed lists -/

namespace SortTimerLst

/-- `x->next`, for a live timer. -/
def next (s : SortTimerLst) (x : Nat) : Option Nat := (s.timers x).bind UtilTimer.next

/-- `x->prev`, for a live timer. -/
def prev (s : SortTimerLst) (x : Nat) : Option Nat := (s.timers x).bind UtilTimer.prev

/-- From the head one meets the timers of the entries `order`, in this order, and then the end. -/
structure Chained (s : SortTimerLst) (order : List Entry) : Prop where
  stored : ∀ e ∈ order, ∃ t, s.timers e.id = some t ∧ t.expire = e.expire ∧
    t.cb_func = e.cb_func ∧ t.user_data = e.user_data
  chain : Follows s.next s.head (ids order)

/-- A doubly linked list of the timers `live`, each once, in the order of expiry. -/
structure WellFormed (s : SortTimerLst) (live order : List Entry) : Prop extends
    Chained s order where
  members : order.Perm live
  once : (ids order).Nodup
  ascending : Ascending order
  first : ∀ x ∈ s.head, s.prev x = none
  inverse : ∀ y ∈ ids order, ∀ x, s.prev y = some x ↔ x ∈ ids order ∧ s.next x = some y
  last : order ≠ [] → ∃ x, s.tail = some x ∧ (ids order).getLast? = some x ∧ s.next x = none

end SortTimerLst

section WellFormed

variable {P : Nat → Option Nat → Prop} {s : SortTimerLst} {L live : List Entry}

/-- The links in memory of the timers of a list. -/
theorem Linked.threaded (h : Linked P s L) :
    Threaded s.next s.prev (ids L) ∧ (L ≠ [] → s.tail = (ids L).getLast?) ∧
      ∀ x ∈ s.head, P x (s.prev x) := by
  by_cases hL : L = []
  · subst hL
    refine ⟨.nil _ _, fun hne => absurd rfl hne, ?_⟩
    intro x hx
    rw [h.head] at hx
    cases hx
  · obtain ⟨nx, pv, hl, hfirst⟩ := h.list hL
    have hlinks : ∀ y ∈ ids L, s.next y = nx y ∧ s.prev y = pv y := by
      intro y hy
      obtain ⟨e, he, rfl⟩ := List.mem_map.mp hy
      rw [SortTimerLst.next, SortTimerLst.prev, hl.stored e he]
      exact ⟨rfl, rfl⟩
    refine ⟨hl.threaded.congr (fun y hy => (hlinks y hy).1)
      fun y hy => (hlinks y (List.mem_of_mem_tail hy)).2, fun _ => hl.tail, ?_⟩
    intro x hx
    rw [h.head] at hx
    rw [(hlinks x (List.mem_of_mem_head? hx)).2]
    exact hfirst x hx

theorem Linked.chained (h : Linked P s L) : s.Chained L where
  stored e he := by
    obtain ⟨nx, pv, hl, -⟩ := h.list (List.ne_nil_of_mem he)
    exact ⟨_, hl.stored e he, rfl, rfl, rfl⟩
  chain := by
    rw [h.head]
    exact h.threaded.1.follows

/-- With a null previous pointer at the head the list is well-formed. -/
theorem Represents.wellFormed (h : Represents Tidy s L) (hp : L.Perm live) :
    s.WellFormed live L where
  toChained := h.linked.chained
  members := hp
  once := h.nodup
  ascending := h.ascending
  first := h.linked.threaded.2.2
  inverse y hy x := by
    refine h.linked.threaded.1.prev_iff_next ?_ hy
    intro z hz
    exact h.linked.threaded.2.2 z (h.head.trans hz)
  last hne := by
    obtain ⟨ht, htail, -⟩ := h.linked.threaded
    have hne' : ids L ≠ [] := by simpa [ids] using hne
    refine ⟨(ids L).getLast hne', ?_, List.getLast?_eq_some_getLast hne', ?_⟩
    · rw [htail hne, List.getLast?_eq_some_getLast hne']
    · exact ht.last _ (List.getLast?_eq_some_getLast hne')

end WellFormed

section Results

variable {s : SortTimerLst} {live : List Entry}

/-- In every run of the class of `11-2lst_timer.h` the list is well-formed, and every operation
returns. -/
theorem sort_timer_lst_wellFormed (h : Reachable add_timer Always s live) :
    (∃ order, s.WellFormed live order) ∧
      ∀ op : Op, op.Allowed live → op.Fresh s →
        ∃ s', Returns (op.exec add_timer) s ((), s') ∧
          Reachable add_timer Always s' (op.live live) := by
  have hP : ∀ x, Tidy x none := fun _ => rfl
  obtain ⟨L, hL, hp⟩ := h.represents hP add_timer_steady add_timer_inserts
  refine ⟨⟨L, hL.wellFormed hp⟩, ?_⟩
  intro op hop hnew
  obtain ⟨s', hrun, -⟩ :=
    Op.exec_returns hP add_timer_steady add_timer_inserts hL op (hop.perm hp.symm) hnew trivial
  exact ⟨s', hrun, .step op h hop hnew trivial hrun⟩

/-- A run that adds two timers, the second before the first. -/
theorem sort_timer_lst_wellFormed_two :
    ∃ s, Reachable add_timer Always s [⟨0, 1, 7, 0⟩, ⟨1, 2, 7, 1⟩] ∧
      ∃ order, s.WellFormed [⟨0, 1, 7, 0⟩, ⟨1, 2, 7, 1⟩] order := by
  obtain ⟨s, hrun, h⟩ :=
    (sort_timer_lst_wellFormed .empty).2 (.add ⟨1, 2, 7, 1⟩) trivial rfl
  have hnew : (Op.add ⟨0, 1, 7, 0⟩).Fresh s := by
    obtain ⟨N, hN⟩ := hrun
    have hone := (hN (N + 1) (Nat.le_succ N)).symm.trans
      (rfl : ((Op.add ⟨1, 2, 7, 1⟩).exec add_timer (N + 1)).run .empty = _)
    cases hone
    rfl
  obtain ⟨s', -, h'⟩ := (sort_timer_lst_wellFormed h).2 (.add ⟨0, 1, 7, 0⟩) trivial hnew
  exact ⟨s', h', (sort_timer_lst_wellFormed h').1⟩

/-- The webserver's class after an insertion before the head: the new head is its own previous
timer. -/
theorem Webserver.prev_of_before (h : Reachable Webserver.add_timer Always s live) {e : Entry}
    {s' : SortTimerLst} (hnew : s.timers e.id = none)
    (hrun : Returns ((Op.add e).exec Webserver.add_timer) s ((), s'))
    (hbefore : ¬ BehindHead s (.add e)) : s'.head = some e.id ∧ s'.prev e.id = some e.id := by
  obtain ⟨L, hL, -⟩ :=
    h.represents (fun _ => .inl rfl) Webserver.add_timer_steady Webserver.add_timer_inserts
  cases L with
  | nil =>
      -- there is no head to be inserted before
      refine absurd ?_ hbefore
      intro x hx
      rw [hL.head] at hx
      cases hx
  | cons a T =>
      obtain ⟨hhead, t, ht, hexp⟩ := hL.head_timer
      -- the timer is inserted before the head, so it expires earlier
      have hlt : e.expire < a.expire := by
        refine not_le.mp fun hle => hbefore ?_
        intro x hx t' ht'
        cases hhead.symm.trans hx
        cases ht.symm.trans ht'
        rwa [hexp]
      obtain ⟨N, hN⟩ := hrun
      obtain ⟨s₁, s₂, hnew', hadd, h₂, -, t₂, ht₂, hprev⟩ :=
        Webserver.add_timer_run_front N hL.linked (.inr rfl) hnew hlt
      have hboth := (run_bind_of_ok hnew' fun _ =>
        Webserver.add_timer (N + 1) (some e.id)).trans hadd
      cases (hN (N + 1) (Nat.le_succ N)).symm.trans hboth
      refine ⟨?_, ?_⟩
      · rw [h₂.head, insertEntry_cons_of_lt hlt]
        rfl
      · rw [SortTimerLst.prev, ht₂]
        exact hprev

/-- A list whose head has a previous timer is not well-formed. -/
theorem SortTimerLst.not_wellFormed {x y : Nat} {order : List Entry} (hhead : s.head = some x)
    (hprev : s.prev x = some y) : ¬ s.WellFormed live order := by
  intro h
  rw [h.first x hhead] at hprev
  cases hprev

/-- The webserver's class keeps a well-formed list in the runs that never insert a timer before the
head. The first step that does leaves a list that is not well-formed. -/
theorem Webserver.wellFormed_iff_behind (h : Reachable Webserver.add_timer BehindHead s live) :
    (∃ order, s.WellFormed live order) ∧
      ∀ (op : Op) (s' : SortTimerLst), op.Allowed live → op.Fresh s →
        Returns (op.exec Webserver.add_timer) s ((), s') →
          ((∃ order, s'.WellFormed (op.live live) order) ↔ BehindHead s op) := by
  have hwell : ∀ {s live}, Reachable Webserver.add_timer BehindHead s live →
      ∃ order, s.WellFormed live order := by
    intro s live h
    have hP : ∀ x, Tidy x none := fun _ => rfl
    obtain ⟨L, hL, hp⟩ :=
      h.represents hP Webserver.add_timer_steady Webserver.add_timer_inserts_behind
    exact ⟨L, hL.wellFormed hp⟩
  refine ⟨hwell h, ?_⟩
  intro op s' hop hnew hrun
  constructor
  · rintro ⟨order, hw⟩
    cases op with
    | add e =>
        by_contra hbefore
        obtain ⟨hhead, hprev⟩ :=
          Webserver.prev_of_before (h.mono fun _ _ _ => trivial) hnew hrun hbefore
        exact SortTimerLst.not_wellFormed hhead hprev hw
    | adjust x expire => trivial
    | del x => trivial
    | tick cur => trivial
  · intro hC
    exact hwell (.step op h hop hnew hC hrun)

/-- The operations of a well-formed run return. -/
theorem Webserver.exec_returns (h : Reachable Webserver.add_timer Always s live) (op : Op)
    (hop : op.Allowed live) (hnew : op.Fresh s) :
    ∃ s', Returns (op.exec Webserver.add_timer) s ((), s') ∧
      Reachable Webserver.add_timer Always s' (op.live live) := by
  obtain ⟨L, hL, hp⟩ :=
    h.represents (fun _ => .inl rfl) Webserver.add_timer_steady Webserver.add_timer_inserts
  obtain ⟨s', hrun, -⟩ := Op.exec_returns (fun _ => .inl rfl) Webserver.add_timer_steady
    Webserver.add_timer_inserts hL op (hop.perm hp.symm) hnew trivial
  exact ⟨s', hrun, .step op h hop hnew trivial hrun⟩

/-- Three timers are added, the first one is put off behind the second, and a tick calls the
second. -/
theorem Webserver.three_timers :
    ∃ s, Reachable Webserver.add_timer BehindHead s [⟨3, 5, 7, 3⟩, ⟨1, 4, 7, 1⟩] ∧
      s.calls = [⟨2, 7, 2⟩] := by
  have hadd := Webserver.add_timer_steady
  have h₁ : Reachable Webserver.add_timer BehindHead _ [⟨1, 2, 7, 1⟩] :=
    .step_run 9 hadd (.add ⟨1, 2, 7, 1⟩) .empty trivial rfl (fun x hx => by cases hx) rfl
  have h₂ : Reachable Webserver.add_timer BehindHead _ [⟨2, 3, 7, 2⟩, ⟨1, 2, 7, 1⟩] :=
    .step_run 9 hadd (.add ⟨2, 3, 7, 2⟩) h₁ trivial rfl (fun x hx t ht => by
      cases hx
      cases ht
      decide) rfl
  have h₃ : Reachable Webserver.add_timer BehindHead _
      [⟨3, 5, 7, 3⟩, ⟨2, 3, 7, 2⟩, ⟨1, 2, 7, 1⟩] :=
    .step_run 9 hadd (.add ⟨3, 5, 7, 3⟩) h₂ trivial rfl (fun x hx t ht => by
      cases hx
      cases ht
      decide) rfl
  have h₄ : Reachable Webserver.add_timer BehindHead _
      [⟨3, 5, 7, 3⟩, ⟨2, 3, 7, 2⟩, ⟨1, 4, 7, 1⟩] :=
    .step_run 9 hadd (.adjust 1 4) h₃ ⟨⟨1, 2, 7, 1⟩, by decide, rfl, by decide⟩ trivial
      trivial rfl
  have h₅ : Reachable Webserver.add_timer BehindHead _ [⟨3, 5, 7, 3⟩, ⟨1, 4, 7, 1⟩] :=
    .step_run 9 hadd (.tick 3) h₄ trivial trivial trivial rfl
  exact ⟨_, h₅, rfl⟩

theorem Webserver.wellFormed_iff_behind_three :
    ∃ s, Reachable Webserver.add_timer BehindHead s [⟨3, 5, 7, 3⟩, ⟨1, 4, 7, 1⟩] ∧
      s.calls = [⟨2, 7, 2⟩] ∧ ∃ order, s.WellFormed [⟨3, 5, 7, 3⟩, ⟨1, 4, 7, 1⟩] order := by
  obtain ⟨s, h, hcalls⟩ := Webserver.three_timers
  exact ⟨s, h, hcalls, (Webserver.wellFormed_iff_behind h).1⟩

/-- Two timers are added, the second before the first; the head is then its own previous timer. -/
theorem Webserver.head_before_itself :
    ∃ s, Reachable Webserver.add_timer Always s [⟨0, 1, 7, 0⟩, ⟨1, 2, 7, 1⟩] ∧
      s.head = some 0 ∧ s.prev 0 = some 0 ∧
      ∀ order, ¬ s.WellFormed [⟨0, 1, 7, 0⟩, ⟨1, 2, 7, 1⟩] order := by
  obtain ⟨s, hrun, h⟩ := Webserver.exec_returns .empty (.add ⟨1, 2, 7, 1⟩) trivial rfl
  have hone : s.head = some 1 ∧ s.timers 0 = none ∧ s.timers 1 = some ⟨2, 7, 1, none, none⟩ := by
    obtain ⟨N, hN⟩ := hrun
    cases (hN (N + 1) (Nat.le_succ N)).symm.trans
      (rfl : ((Op.add ⟨1, 2, 7, 1⟩).exec Webserver.add_timer (N + 1)).run .empty = _)
    exact ⟨rfl, rfl, rfl⟩
  obtain ⟨hhead, hnew, ht⟩ := hone
  obtain ⟨s', hrun', h'⟩ := Webserver.exec_returns h (.add ⟨0, 1, 7, 0⟩) trivial hnew
  have hbefore : ¬ BehindHead s (.add ⟨0, 1, 7, 0⟩) := by
    intro hle
    exact absurd (hle 1 hhead _ ht) (by decide)
  obtain ⟨hhead', hprev⟩ := Webserver.prev_of_before h hnew hrun' hbefore
  exact ⟨s', h', hhead', hprev, fun order => SortTimerLst.not_wellFormed hhead' hprev⟩

end Results

/-! ## The two classes side by side -/

/-- Runs of the same operations on both classes, with the live timers. -/
inductive Alongside : SortTimerLst → SortTimerLst → List Entry → Prop where
  | empty : Alongside .empty .empty []
  | step {s s' w w' : SortTimerLst} {live : List Entry} (op : Op) (h : Alongside s w live)
      (hop : op.Allowed live) (hnew : op.Fresh s) (hnew' : op.Fresh w)
      (hrun : Returns (op.exec add_timer) s ((), s'))
      (hrun' : Returns (op.exec Webserver.add_timer) w ((), w')) : Alongside s' w' (op.live live)

section Alongside

variable {s s' w w' : SortTimerLst} {live L : List Entry}

/-- The simulation between the classes: both hold the same entries in the same order, and have made
the same calls. Only the previous pointer of the first timer may differ. -/
structure Simulates (s w : SortTimerLst) (live L : List Entry) : Prop where
  first : Represents Tidy s L
  second : Represents Loose w L
  members : L.Perm live
  calls : s.calls = w.calls

/-- One operation on both classes. -/
theorem Simulates.step (h : Simulates s w live L) (op : Op) (hop : op.Allowed live)
    (hnew : op.Fresh s) (hnew' : op.Fresh w) :
    ∃ s' w', Returns (op.exec add_timer) s ((), s') ∧
      Returns (op.exec Webserver.add_timer) w ((), w') ∧
      Simulates s' w' (op.live live) (op.sorted L) ∧
      s'.calls = s.calls ++ op.fired L ∧ w'.calls = w.calls ++ op.fired L := by
  have hP : ∀ x, Tidy x none := fun _ => rfl
  have hop' := hop.perm h.members.symm
  obtain ⟨s', hrun, hs', hcalls⟩ :=
    Op.exec_returns hP add_timer_steady add_timer_inserts h.first op hop' hnew trivial
  obtain ⟨w', hrun', hw', hcalls'⟩ := Op.exec_returns (fun _ => .inl rfl)
    Webserver.add_timer_steady Webserver.add_timer_inserts h.second op hop' hnew' trivial
  refine ⟨s', w', hrun, hrun', ⟨hs', hw', ?_, ?_⟩, hcalls, hcalls'⟩
  · exact Op.sorted_perm_live h.first.nodup h.first.ascending hop' h.members
  · rw [hcalls, hcalls', h.calls]

theorem Alongside.simulates (h : Alongside s w live) : ∃ L, Simulates s w live L := by
  induction h with
  | empty => exact ⟨[], .empty _ rfl, .empty _ rfl, .refl _, rfl⟩
  | step op _ hop hnew hnew' hrun hrun' ih =>
      obtain ⟨L, hL⟩ := ih
      obtain ⟨s', w', h₁, h₂, hL', -⟩ := hL.step op hop hnew hnew'
      cases hrun.unique h₁
      cases hrun'.unique h₂
      exact ⟨op.sorted L, hL'⟩

/-- The two classes cannot be told apart by their next pointers, their tails and the callbacks they
make: after the same operations both chains list the same live timers in the same order, the tails
of lists that are not empty are the same, and so are the calls made so far. Every next operation
returns on both, so neither follows a null pointer or one to a deleted timer, and makes the same
calls on both. -/
theorem sort_timer_lsts_agree (h : Alongside s w live) :
    (∃ order, order.Perm live ∧ s.Chained order ∧ w.Chained order ∧
      (order ≠ [] → s.tail = w.tail)) ∧ s.calls = w.calls ∧
      ∀ op : Op, op.Allowed live → op.Fresh s → op.Fresh w →
        ∃ s' w' calls, Returns (op.exec add_timer) s ((), s') ∧
          Returns (op.exec Webserver.add_timer) w ((), w') ∧ Alongside s' w' (op.live live) ∧
          s'.calls = s.calls ++ calls ∧ w'.calls = w.calls ++ calls := by
  obtain ⟨L, hL⟩ := h.simulates
  refine ⟨⟨L, hL.members, hL.first.linked.chained, hL.second.linked.chained, ?_⟩, hL.calls, ?_⟩
  · intro hne
    rw [hL.first.linked.threaded.2.1 hne, hL.second.linked.threaded.2.1 hne]
  · intro op hop hnew hnew'
    obtain ⟨s', w', hrun, hrun', -, hcalls, hcalls'⟩ := hL.step op hop hnew hnew'
    exact ⟨s', w', _, hrun, hrun', .step op h hop hnew hnew' hrun hrun', hcalls, hcalls'⟩

/-- The results of a step are computed with some number of turns. -/
theorem Alongside.step_run (fuel : Nat) (op : Op) (h : Alongside s w live) (hop : op.Allowed live)
    (hnew : op.Fresh s) (hnew' : op.Fresh w) (hrun : (op.exec add_timer fuel).run s = .ok ((), s'))
    (hrun' : (op.exec Webserver.add_timer fuel).run w = .ok ((), w')) :
    Alongside s' w' (op.live live) :=
  .step op h hop hnew hnew' ((Op.exec_steady add_timer_steady op).returns hrun)
    ((Op.exec_steady Webserver.add_timer_steady op).returns hrun')

/-- Three timers are added to both, the second one before the first; it is put off, and a tick calls
the first. -/
theorem sort_timer_lsts_agree_three :
    ∃ s w, Alongside s w [⟨3, 5, 7, 3⟩, ⟨1, 4, 7, 1⟩] ∧ s.calls = [⟨2, 7, 2⟩] ∧
      s.calls = w.calls := by
  have h₁ : Alongside _ _ [⟨2, 3, 7, 2⟩] :=
    .step_run 9 (.add ⟨2, 3, 7, 2⟩) .empty trivial rfl rfl rfl rfl
  have h₂ : Alongside _ _ [⟨1, 2, 7, 1⟩, ⟨2, 3, 7, 2⟩] :=
    .step_run 9 (.add ⟨1, 2, 7, 1⟩) h₁ trivial rfl rfl rfl rfl
  have h₃ : Alongside _ _ [⟨3, 5, 7, 3⟩, ⟨1, 2, 7, 1⟩, ⟨2, 3, 7, 2⟩] :=
    .step_run 9 (.add ⟨3, 5, 7, 3⟩) h₂ trivial rfl rfl rfl rfl
  have h₄ : Alongside _ _ [⟨3, 5, 7, 3⟩, ⟨1, 4, 7, 1⟩, ⟨2, 3, 7, 2⟩] :=
    .step_run 9 (.adjust 1 4) h₃ ⟨⟨1, 2, 7, 1⟩, by decide, rfl, by decide⟩ trivial trivial
      rfl rfl
  have h₅ : Alongside _ _ [⟨3, 5, 7, 3⟩, ⟨1, 4, 7, 1⟩] :=
    .step_run 9 (.tick 3) h₄ trivial trivial trivial rfl rfl
  exact ⟨_, _, h₅, rfl, (sort_timer_lsts_agree h₅).2.1⟩

end Alongside

end CLanguageLearning.Timer
