import CLanguageLearning.Timer.ListRuns
import CLanguageLearning.Timer.WheelRuns

/-!
# The time wheel and the sorted list side by side

The same timers are added to a `time_wheel` and to a `sort_timer_lst`, and both are ticked together.
The list counts time in ticks: a timer is added to it with the number of the tick in which it is due.
Then every tick calls the callbacks of the same timers on both sides (`wheel_list_agree`). The list
searches for the place of a timer and the wheel does not; it pays with an order of its own within a
tick.
-/

set_option autoImplicit false

namespace CLanguageLearning.Timer

open CLanguageLearning.Foundation

/-- What happens to both containers. -/
inductive TickEvent where
  | add (x : Nat) (timeout : Int) (cb_func user_data : Nat)
  | del (x : Nat)
  | tick
  deriving DecidableEq, Repr

namespace TickEvent

/-- The operation on the wheel. -/
def onWheel : TickEvent → WheelOp
  | add x timeout cb_func user_data => .add x timeout cb_func user_data
  | del x => .del (some x)
  | tick => .tick

/-- The operation on the list after so many ticks. -/
def onList (clock : Nat) : TickEvent → Op
  | add x timeout cb_func user_data =>
      .add ⟨x, clock + TimeWheel.ticksOf timeout, cb_func, user_data⟩
  | del x => .del x
  | tick => .tick clock

/-- The number of ticks after the event. -/
def clockAfter (clock : Nat) : TickEvent → Nat
  | tick => clock + 1
  | _ => clock

/-- A new timer is at an address that is free on both sides, and a deleted one is live. -/
def Allowed (w : TimeWheel) (s : SortTimerLst) (live : List Entry) : TickEvent → Prop
  | add x timeout _ _ => 0 ≤ timeout ∧ w.timers x = none ∧ s.timers x = none
  | del x => ∃ e ∈ live, e.id = x
  | tick => True

end TickEvent

/-- Runs of the same events on a wheel and on a list, both empty at the start, with the number of
ticks and the live timers. -/
inductive Ticking : TimeWheel → SortTimerLst → Nat → List Entry → Prop where
  | start : Ticking .empty .empty 0 []
  | step {w w' : TimeWheel} {s s' : SortTimerLst} {clock : Nat} {live : List Entry} (ev : TickEvent)
      (h : Ticking w s clock live) (hev : ev.Allowed w s live)
      (hrun : Returns ev.onWheel.exec w ((), w'))
      (hrun' : Returns ((ev.onList clock).exec add_timer) s ((), s')) :
      Ticking w' s' (ev.clockAfter clock) ((ev.onList clock).live live)

/-- The timer that a countdown stands for. -/
def Countdown.entry (x clock : Nat) (c : Countdown) : Entry :=
  ⟨x, clock + c.left, c.cb_func, c.user_data⟩

/-- The wheel holds the live timers, each with the ticks that are left to it. -/
structure WheelHolds (w : TimeWheel) (clock : Nat) (live : List Entry) : Prop where
  wellFormed : w.WellFormed
  nodup : (ids live).Nodup
  holds : ∀ x c, w.countdown x = some c ↔ c.entry x clock ∈ live
  later : ∀ e ∈ live, (clock : Int) ≤ e.expire

section Agreement

variable {w w' : TimeWheel} {s s' : SortTimerLst} {clock : Nat} {live L : List Entry} {e : Entry}
  {x : Nat} {c : Countdown}

/-- A live timer has a countdown. -/
theorem WheelHolds.countdown (h : WheelHolds w clock live) (he : e ∈ live) :
    w.countdown e.id = some ⟨(e.expire - clock).toNat, e.cb_func, e.user_data⟩ := by
  have hlater := h.later e he
  rw [h.holds]
  have hentry : Countdown.entry e.id clock
      ⟨(e.expire - clock).toNat, e.cb_func, e.user_data⟩ = e := by
    rw [Countdown.entry, Int.toNat_of_nonneg (by omega)]
    simp
  rwa [hentry]

theorem WheelHolds.holds_iff (h : WheelHolds w clock live) (x : Nat) :
    (w.timers x).isSome = true ↔ ∃ e ∈ live, e.id = x := by
  rw [← h.wellFormed.isSome_countdown, Option.isSome_iff_exists]
  constructor
  · rintro ⟨c, hc⟩
    exact ⟨c.entry x clock, (h.holds x c).mp hc, rfl⟩
  · rintro ⟨e, he, rfl⟩
    exact ⟨_, h.countdown he⟩

/-- A timer that starts to count. -/
theorem WheelHolds.add {T f d : Nat} (h : WheelHolds w clock live) (hx : w.timers x = none)
    (hw : w'.WellFormed)
    (hcount : ∀ y, w'.countdown y = if x = y then some ⟨T, f, d⟩ else w.countdown y) :
    WheelHolds w' clock (⟨x, clock + T, f, d⟩ :: live) := by
  have hnew : ∀ e ∈ live, e.id ≠ x := by
    intro e he hid
    have hsome := (h.holds_iff x).mpr ⟨e, he, hid⟩
    rw [hx] at hsome
    cases hsome
  constructor
  case wellFormed => exact hw
  case nodup =>
    refine List.nodup_cons.mpr ⟨fun hmem => ?_, h.nodup⟩
    obtain ⟨e, he, hid⟩ := List.mem_map.mp hmem
    exact hnew e he hid
  case holds =>
    intro y c
    rw [hcount, List.mem_cons]
    split
    · next hxy =>
        subst hxy
        have hnot : c.entry x clock ∉ live := fun hmem => hnew _ hmem rfl
        rw [or_iff_left hnot, Countdown.entry, Option.some.injEq]
        cases c
        simp [eq_comm]
    · next hxy =>
        have hnot : c.entry y clock ≠ ⟨x, clock + T, f, d⟩ :=
          fun heq => hxy (congrArg Entry.id heq).symm
        rw [or_iff_right hnot, h.holds]
  case later =>
    intro e he
    rcases List.mem_cons.mp he with rfl | he
    · simp
    · exact h.later e he

theorem WheelHolds.del (h : WheelHolds w clock live) (hw : w'.WellFormed)
    (hcount : ∀ y, w'.countdown y = if x = y then none else w.countdown y) :
    WheelHolds w' clock (live.filter fun e => e.id ≠ x) := by
  constructor
  case wellFormed => exact hw
  case nodup => exact h.nodup.sublist (List.filter_sublist.map _)
  case holds =>
    intro y c
    rw [hcount, List.mem_filter]
    split
    · next hxy => simp [Countdown.entry, hxy]
    · next hxy =>
        have hne : y ≠ x := fun heq => hxy heq.symm
        simp [h.holds, Countdown.entry, hne]
  case later => exact fun e he => h.later e (List.mem_filter.mp he).1

/-- A tick takes one from each countdown, and the timers without a tick left are gone. -/
theorem WheelHolds.tick (h : WheelHolds w clock live) (hw : w'.WellFormed)
    (hcount : ∀ y, w'.countdown y = WheelOp.tick.count y (w.countdown y)) :
    WheelHolds w' (clock + 1) (live.filter fun e => (clock : Int) < e.expire) := by
  constructor
  case wellFormed => exact hw
  case nodup => exact h.nodup.sublist (List.filter_sublist.map _)
  case holds =>
    intro y c
    have hentry : c.entry y (clock + 1) = Countdown.entry y clock { c with left := c.left + 1 } := by
      simp only [Countdown.entry]
      congr 1
      push_cast
      ring
    have hlater : (clock : Int) < (c.entry y (clock + 1)).expire := by
      simp only [Countdown.entry]
      push_cast
      omega
    rw [hcount, List.mem_filter, decide_eq_true_iff, and_iff_left hlater, hentry, ← h.holds,
      WheelOp.count]
    cases hc : w.countdown y with
    | none => simp
    | some c' =>
        obtain ⟨left, f, d⟩ := c'
        obtain ⟨left', f', d'⟩ := c
        simp only [Option.bind_some, Option.some.injEq, Countdown.mk.injEq]
        cases left with
        | zero => simp
        | succ left => simp
  case later =>
    intro e he
    have hlt := (List.mem_filter.mp he).2
    rw [decide_eq_true_iff] at hlt
    push_cast
    omega

/-- A timer gets at most one call, at the end of its countdown. -/
theorem mem_rings_iff {k : Call} {o : Option Countdown} :
    k ∈ WheelOp.tick.rings k.timer o ↔ o = some ⟨0, k.cb_func, k.user_data⟩ := by
  cases o with
  | none => simp [WheelOp.rings]
  | some c =>
      obtain ⟨left, f, d⟩ := c
      obtain ⟨x, f', d'⟩ := k
      cases left with
      | zero => simp [WheelOp.rings, eq_comm]
      | succ left => simp [WheelOp.rings]

theorem length_rings_le (x : Nat) (o : Option Countdown) :
    (WheelOp.tick.rings x o).length ≤ 1 := by
  cases o with
  | none => exact Nat.zero_le 1
  | some c =>
      rw [WheelOp.rings]
      split
      · exact le_refl 1
      · exact Nat.zero_le 1

/-- The calls of a tick are those of the timers that are due. -/
theorem WheelHolds.calls_perm {new : List Call} (h : WheelHolds w clock live)
    (hnew : ∀ y, new.filter (fun k => k.timer = y) = WheelOp.tick.rings y (w.countdown y)) :
    new.Perm ((live.filter fun e => e.expire ≤ (clock : Int)).map Entry.call) := by
  have hnodup : new.Nodup := by
    refine List.nodup_iff_count_le_one.mpr fun k => ?_
    have hcount : (new.filter fun j => j.timer = k.timer).count k = new.count k :=
      List.count_filter (by simp)
    rw [← hcount, hnew]
    exact List.count_le_length.trans (length_rings_le _ _)
  have hnodup' : ((live.filter fun e => e.expire ≤ (clock : Int)).map Entry.call).Nodup := by
    refine List.Nodup.of_map Call.timer ?_
    rw [List.map_map]
    exact h.nodup.sublist (List.filter_sublist.map _)
  refine (List.perm_ext_iff_of_nodup hnodup hnodup').mpr fun k => ?_
  have hmem : k ∈ new ↔ k ∈ new.filter fun j => j.timer = k.timer := by simp
  rw [hmem, hnew, mem_rings_iff, h.holds, List.mem_map]
  constructor
  · intro hentry
    exact ⟨_, List.mem_filter.mpr ⟨hentry, by simp [Countdown.entry]⟩, rfl⟩
  · rintro ⟨e, he, rfl⟩
    obtain ⟨he, hdue⟩ := List.mem_filter.mp he
    rw [decide_eq_true_iff] at hdue
    -- the timer has no tick left
    have hexpire : e.expire = clock := le_antisymm hdue (h.later e he)
    have hentry : Countdown.entry e.call.timer clock ⟨0, e.call.cb_func, e.call.user_data⟩ = e := by
      simp [Countdown.entry, Entry.call, ← hexpire]
    rwa [hentry]

/-- One event on the wheel. -/
theorem WheelHolds.step (h : WheelHolds w clock live) (ev : TickEvent)
    (hev : ev.Allowed w s live) : ∃ w', Returns ev.onWheel.exec w ((), w') ∧
      WheelHolds w' (ev.clockAfter clock) ((ev.onList clock).live live) ∧
      ∃ new, w'.calls = w.calls ++ new ∧
        (ev = .tick → new.Perm ((live.filter fun e => e.expire ≤ (clock : Int)).map Entry.call)) := by
  have hop : ev.onWheel.Allowed w := by
    cases ev with
    | add x timeout f d => exact hev.2.1
    | del x => exact (h.holds_iff x).mpr hev
    | tick => trivial
  obtain ⟨w', hrun, hw, new, hcalls, hcount⟩ := TimeWheel.exec_counts h.wellFormed ev.onWheel hop
  refine ⟨w', hrun, ?_, new, hcalls, ?_⟩
  · cases ev with
    | add x timeout f d =>
        refine h.add hev.2.1 hw fun y => (hcount y).1.trans ?_
        simp [TickEvent.onWheel, WheelOp.count, hev.1]
    | del x =>
        refine h.del hw fun y => (hcount y).1.trans ?_
        simp [TickEvent.onWheel, WheelOp.count]
    | tick => exact h.tick hw fun y => (hcount y).1
  · rintro rfl
    exact h.calls_perm fun y => (hcount y).2

/-- One event on the list. -/
theorem list_step (hL : Represents Tidy s L) (hperm : L.Perm live) (ev : TickEvent)
    (hev : ev.Allowed w s live) (clock : Nat) :
    ∃ s' L', Returns ((ev.onList clock).exec add_timer) s ((), s') ∧ Represents Tidy s' L' ∧
      L'.Perm ((ev.onList clock).live live) ∧ ∃ new, s'.calls = s.calls ++ new ∧
        (ev = .tick → new.Perm ((live.filter fun e => e.expire ≤ (clock : Int)).map Entry.call)) := by
  have hP : ∀ x, Tidy x none := fun _ => rfl
  have hop : (ev.onList clock).Allowed L := by
    cases ev with
    | add x timeout f d => trivial
    | del x => exact (show (Op.del x).Allowed live from hev).perm hperm.symm
    | tick => trivial
  have hnew : (ev.onList clock).Fresh s := by
    cases ev with
    | add x timeout f d => exact hev.2.2
    | del x => trivial
    | tick => trivial
  obtain ⟨s', hrun, hL', hcalls⟩ :=
    Op.exec_returns hP add_timer_steady add_timer_inserts hL (ev.onList clock) hop hnew trivial
  refine ⟨s', _, hrun, hL', Op.sorted_perm_live hL.nodup hL.ascending hop hperm, _, hcalls, ?_⟩
  rintro rfl
  show ((due (clock : Int) L).map Entry.call).Perm _
  rw [due_eq_filter hL.ascending]
  exact (hperm.filter _).map _

/-- In every state of a run both sides hold the live timers. -/
theorem Ticking.agrees (h : Ticking w s clock live) :
    WheelHolds w clock live ∧ ∃ L, Represents Tidy s L ∧ L.Perm live := by
  induction h with
  | start =>
      refine ⟨⟨TimeWheel.wellFormed_empty, List.nodup_nil, fun x c => ?_, fun e he => ?_⟩, [],
        .empty _ rfl, .refl _⟩
      · exact iff_of_false (by simp [TimeWheel.countdown, TimeWheel.settingOf, TimeWheel.empty])
          List.not_mem_nil
      · cases he
  | step ev _ hev hrun hrun' ih =>
      obtain ⟨hw, L, hL, hperm⟩ := ih
      obtain ⟨w₁, hrun₁, hw₁, -⟩ := hw.step ev hev
      obtain ⟨s₁, L₁, hrun₁', hL₁, hperm₁, -⟩ := list_step hL hperm ev hev _
      cases hrun.unique hrun₁
      cases hrun'.unique hrun₁'
      exact ⟨hw₁, L₁, hL₁, hperm₁⟩

/-- The wheel and the list agree in every run in which the list gets the number of the tick in which
a timer is due: every event returns on both sides, the same timers stay live, and a tick calls the
same callbacks, those of the timers that are due, each once. -/
theorem wheel_list_agree (h : Ticking w s clock live) :
    (∀ x, (w.timers x).isSome = true ↔ ∃ e ∈ live, e.id = x) ∧
      ∀ ev : TickEvent, ev.Allowed w s live → ∃ w' s', Returns ev.onWheel.exec w ((), w') ∧
        Returns ((ev.onList clock).exec add_timer) s ((), s') ∧
        Ticking w' s' (ev.clockAfter clock) ((ev.onList clock).live live) ∧
        ∃ new new', w'.calls = w.calls ++ new ∧ s'.calls = s.calls ++ new' ∧
          (ev = .tick → new.Perm new' ∧
            new'.Perm ((live.filter fun e => e.expire ≤ (clock : Int)).map Entry.call)) := by
  obtain ⟨hw, L, hL, hperm⟩ := h.agrees
  refine ⟨hw.holds_iff, fun ev hev => ?_⟩
  obtain ⟨w', hrun, -, new, hcalls, hdue⟩ := hw.step ev hev
  obtain ⟨s', -, hrun', -, -, new', hcalls', hdue'⟩ := list_step hL hperm ev hev clock
  refine ⟨w', s', hrun, hrun', h.step ev hev hrun hrun', new, new', hcalls, hcalls', fun htick => ?_⟩
  exact ⟨(hdue htick).trans (hdue' htick).symm, hdue' htick⟩

/-- A timer with a timeout of two seconds is added to both, and the third tick calls it. -/
theorem wheel_list_agree_fires : ∃ w s w' s', Ticking w s 2 [⟨3, 2, 7, 9⟩] ∧
    Returns WheelOp.tick.exec w ((), w') ∧ Returns ((Op.tick 2).exec add_timer) s ((), s') ∧
      Ticking w' s' 3 [] ∧ w'.calls = w.calls ++ [⟨3, 7, 9⟩] ∧
      s'.calls = s.calls ++ [⟨3, 7, 9⟩] := by
  obtain ⟨_, _, -, -, h₀, -⟩ := (wheel_list_agree .start).2 (.add 3 2 7 9) ⟨by decide, rfl, rfl⟩
  obtain ⟨_, _, -, -, h₁, -⟩ := (wheel_list_agree h₀).2 .tick trivial
  obtain ⟨w, s, -, -, h₂, -⟩ := (wheel_list_agree h₁).2 .tick trivial
  obtain ⟨w', s', hrun, hrun', h₃, new, new', hcalls, hcalls', hdue⟩ :=
    (wheel_list_agree h₂).2 .tick trivial
  obtain ⟨hperm, hfired⟩ := hdue rfl
  have hone : new' = [⟨3, 7, 9⟩] := hfired.eq_singleton
  have hsame : new = [⟨3, 7, 9⟩] := (hone ▸ hperm).eq_singleton
  rw [hsame] at hcalls
  rw [hone] at hcalls'
  exact ⟨w, s, w', s', h₂, hrun, hrun', h₃, hcalls, hcalls'⟩

end Agreement

end CLanguageLearning.Timer
