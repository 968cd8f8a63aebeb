import CLanguageLearning.Timer.WheelSteps

/-!
# Runs of the time wheel

The abstract picture of a timer is a countdown: the ticks that go by before the one that fires it.
The wheel spreads this number over the rotation of the timer and the way from the current slot to
the timer's own. Every operation moves the countdown of every address as the picture says, and so
does every run; when a timer fires is then a matter of counting ticks.
-/

set_option autoImplicit false

namespace CLanguageLearning.Timer

open CLanguageLearning.Foundation

/-- The operations on a time wheel. A user who adds a timer sets its callback and its data; `x` is
the address that `new` answers. -/
inductive WheelOp where
  | add (x : Nat) (timeout : Int) (cb_func user_data : Nat)
  | del (timer : Option Nat)
  | tick
  deriving DecidableEq, Repr

/-- A timer that fires after `left` more ticks. -/
structure Countdown where
  left : Nat
  cb_func : Nat
  user_data : Nat
  deriving DecidableEq, Repr

namespace WheelOp

/-- The calls of the member functions. -/
def exec : WheelOp → Nat → Exec TimeWheel Unit
  | add x timeout cb_func user_data, _ => do
      let timer ← TimeWheel.add_timer x timeout
      if timer = none then return ()
      else TimeWheel.writeTimer timer fun t =>
        { t with cb_func := some cb_func, user_data := some user_data }
  | del timer, _ => TimeWheel.del_timer timer
  | tick, fuel => TimeWheel.tick fuel

/-- What is provided: memory for a new timer is at a free address, and a user deletes timers that
are still in the wheel. -/
def Allowed (s : TimeWheel) : WheelOp → Prop
  | add x _ _ _ => s.timers x = none
  | del (some x) => (s.timers x).isSome = true
  | _ => True

/-- The operation makes a timer at the address `x`. -/
def Creates (x : Nat) : WheelOp → Prop
  | add y timeout _ _ => y = x ∧ 0 ≤ timeout
  | _ => False

/-- What becomes of the countdown at the address `x`. -/
def count (x : Nat) : WheelOp → Option Countdown → Option Countdown
  | add y timeout cb_func user_data, c =>
      if y = x ∧ 0 ≤ timeout then some ⟨TimeWheel.ticksOf timeout, cb_func, user_data⟩ else c
  | del timer, c => if timer = some x then none else c
  | tick, c => c.bind fun c => if c.left = 0 then none else some { c with left := c.left - 1 }

/-- The calls that the timer at the address `x` gets. -/
def rings (x : Nat) : WheelOp → Option Countdown → List Call
  | tick, some c => if c.left = 0 then [⟨x, c.cb_func, c.user_data⟩] else []
  | _, _ => []

/-- The countdown at the address `x` after operations. -/
def countAll (x : Nat) (ops : List WheelOp) (c : Option Countdown) : Option Countdown :=
  ops.foldl (fun c op => op.count x c) c

/-- The calls that timers at the address `x` get during operations. -/
def ringsAll (x : Nat) : List WheelOp → Option Countdown → List Call
  | [], _ => []
  | op :: ops, c => op.rings x c ++ ringsAll x ops (op.count x c)

/-- The number of ticks. -/
def ticks (ops : List WheelOp) : Nat := ops.count .tick

end WheelOp

namespace TimeWheel

/-- The countdown at the address `x`: a rotation is `N` ticks, and the rest is the way from the
current slot. -/
def countdown (s : TimeWheel) (x : Nat) : Option Countdown :=
  (s.settingOf x).bind fun c =>
    match c.cb_func, c.user_data with
    | some f, some d => some ⟨c.rotation * N + (c.time_slot + N - s.cur_slot) % N, f, d⟩
    | _, _ => none

/-- Between two operations: the slots are chained, and every timer has its callback and data. -/
structure WellFormed (s : TimeWheel) : Prop where
  chained : ∃ chain, Chained s chain
  armed : ∀ x, ∀ c ∈ s.settingOf x, c.Armed

/-- The operation goes on from `s` to a well-formed wheel as the countdowns say. -/
def Counts (op : WheelOp) (s t : TimeWheel) : Prop :=
  WellFormed t ∧ ∃ new, t.calls = s.calls ++ new ∧
    ∀ x, t.countdown x = op.count x (s.countdown x) ∧
      new.filter (fun c => c.timer = x) = op.rings x (s.countdown x)

section Countdowns

variable {s t : TimeWheel} {chain : Nat → List Nat} {x : Nat} {c : Setting}

/-- The way to the current slot is the longest after the slot has moved on, and any other way is
one slot shorter. -/
theorem way_succ {cur i : Nat} (hcur : cur < N) (hi : i < N) :
    (i + N - (cur + 1) % N) % N = if i = cur then N - 1 else (i + N - cur) % N - 1 := by
  unfold N at *
  split_ifs <;> omega

theorem way_eq_zero_iff {cur i : Nat} (hcur : cur < N) (hi : i < N) :
    (i + N - cur) % N = 0 ↔ i = cur := by
  unfold N at *
  omega

/-- The slot and the rotation of a new timer encode its ticks. -/
theorem ticks_eq {cur T : Nat} (hcur : cur < N) :
    T / N * N + ((cur + T % N) % N + N - cur) % N = T := by
  unfold N at *
  omega

theorem Setting.Armed.exists_eq (hc : c.Armed) :
    ∃ f d, c.cb_func = some f ∧ c.user_data = some d := by
  obtain ⟨f, hf⟩ := Option.isSome_iff_exists.mp hc.1
  obtain ⟨d, hd⟩ := Option.isSome_iff_exists.mp hc.2
  exact ⟨f, d, hf, hd⟩

theorem countdown_eq {f d : Nat} (hc : s.settingOf x = some c) (hf : c.cb_func = some f)
    (hd : c.user_data = some d) :
    s.countdown x = some ⟨c.rotation * N + (c.time_slot + N - s.cur_slot) % N, f, d⟩ := by
  rw [countdown, hc, Option.bind_some, hf, hd]

theorem countdown_eq_none (hc : s.settingOf x = none) : s.countdown x = none := by
  rw [countdown, hc, Option.bind_none]

/-- The countdown depends on the setting and the current slot. -/
theorem countdown_congr (hcur : t.cur_slot = s.cur_slot) (hc : t.settingOf x = s.settingOf x) :
    t.countdown x = s.countdown x := by
  rw [countdown, countdown, hc, hcur]

theorem isSome_settingOf (s : TimeWheel) (x : Nat) :
    (s.settingOf x).isSome = (s.timers x).isSome := by
  rw [settingOf, Option.isSome_map]

/-- In a well-formed wheel the live timers are those with a countdown. -/
theorem WellFormed.isSome_countdown (h : WellFormed s) (x : Nat) :
    (s.countdown x).isSome = (s.timers x).isSome := by
  rw [← isSome_settingOf]
  cases hc : s.settingOf x with
  | none =>
      rw [countdown_eq_none hc]
      rfl
  | some c =>
      obtain ⟨f, d, hf, hd⟩ := Setting.Armed.exists_eq (h.armed x c hc)
      rw [countdown_eq hc hf hd]
      rfl

theorem Chained.mem_iff (h : Chained s chain) (hc : s.settingOf x = some c) (i : Nat) :
    x ∈ chain i ↔ c.time_slot = i := by
  obtain ⟨t, ht, rfl⟩ := Option.map_eq_some_iff.mp hc
  rw [h.member, slotOf, ht, Option.map_some, Option.some.injEq]

theorem Chained.time_slot_lt (h : Chained s chain) (hc : s.settingOf x = some c) :
    c.time_slot < N :=
  h.lt ((h.mem_iff hc c.time_slot).mpr rfl)

/-- No timer of the chain has a callback for another address. -/
theorem filter_firing (f : Nat → Option Setting) {l : List Nat} (hnodup : l.Nodup) (x : Nat) :
    (l.filterMap fun y => (f y).bind (Setting.firing y)).filter (fun c => c.timer = x) =
      if x ∈ l then ((f x).bind (Setting.firing x)).toList else [] := by
  have htimer : ∀ y call, (f y).bind (Setting.firing y) = some call → call.timer = y := by
    intro y call hcall
    obtain ⟨c, -, hfire⟩ := Option.bind_eq_some_iff.mp hcall
    unfold Setting.firing at hfire
    split_ifs at hfire
    split at hfire
    · cases hfire
      rfl
    · cases hfire
  induction l with
  | nil => rfl
  | cons y l ih =>
      obtain ⟨hy, hl⟩ := List.nodup_cons.mp hnodup
      rw [List.filterMap_cons]
      cases hcall : (f y).bind (Setting.firing y) with
      | none =>
          rw [ih hl]
          by_cases hxy : x = y
          · subst hxy
            rw [if_neg hy, if_pos (List.mem_cons_self ..), hcall, Option.toList_none]
          · simp [hxy]
      | some call =>
          have hcy := htimer y call hcall
          by_cases hxy : x = y
          · subst hxy
            rw [List.filter_cons_of_pos (by simp [hcy]), ih hl, if_neg hy,
              if_pos (List.mem_cons_self ..), hcall, Option.toList_some]
          · rw [List.filter_cons_of_neg (by simp [hcy, Ne.symm hxy]), ih hl]
            simp [hxy]

end Countdowns

/-! ## One step -/

section Step

variable {s t : TimeWheel} {chain : Nat → List Nat} {x : Nat} {c : Setting}

theorem tickLoop_steady (tmp : Option Nat) : Steady fun fuel => tickLoop fuel tmp := by
  refine .of_succ fun fuel => ?_
  induction fuel generalizing tmp with
  | zero => exact .of_throw _ _
  | succ fuel ih =>
      cases tmp with
      | none => exact .refl _
      | some x =>
          refine .next fun t => .ite (.next fun _ => .next fun t => ih t.next) ?_
          exact .next fun _ => .next fun tmp => ih tmp

theorem tick_steady : Steady tick :=
  fun fuel fuel' hle => .next fun _ => .next fun head =>
    .bind (tickLoop_steady head fuel fuel' hle) fun _ => .refl _

theorem Setting.Armed.turn {c' : Setting} (hc : c.Armed) (hturn : c.turn = some c') : c'.Armed := by
  rw [Setting.turn] at hturn
  split_ifs at hturn
  cases hturn
  exact hc

/-- A new timer, with its callback and data. -/
theorem add_counts (h : WellFormed s) (hx : s.timers x = none) (timeout : Int)
    (cb_func user_data : Nat) :
    ∃ t, (∀ fuel, ((WheelOp.add x timeout cb_func user_data).exec fuel).run s = .ok ((), t)) ∧
      Counts (.add x timeout cb_func user_data) s t := by
  by_cases htimeout : 0 ≤ timeout
  · obtain ⟨chain, hchain⟩ := h.chained
    let ts := (s.cur_slot + ticksOf timeout % N) % N
    let u : TwTimer := ⟨ticksOf timeout / N, ts, none, none, none, none⟩
    let u' : TwTimer := ⟨ticksOf timeout / N, ts, some cb_func, some user_data, s.slots ts, none⟩
    let s₁ := s.link x ts u
    let t : TimeWheel := { s₁ with timers := Function.update s₁.timers x (some u') }
    have hts : ts < N := Nat.mod_lt _ (by decide)
    have hu : s₁.timers x = some { u with next := s.slots ts, prev := none } := if_pos rfl
    have hsetting : ∀ y, t.settingOf y =
        if y = x then some ⟨ticksOf timeout / N, ts, some cb_func, some user_data⟩
        else s.settingOf y := by
      intro y
      by_cases hyx : y = x
      · subst hyx
        rw [if_pos rfl, settingOf_eq (t := u') (Function.update_self ..)]
      · have hsame : t.settingOf y = s₁.settingOf y := by
          rw [settingOf, settingOf]
          exact congrArg (Option.map _) (Function.update_of_ne hyx ..)
        rw [hsame, settingOf_link, if_neg hyx, if_neg hyx]
    refine ⟨t, fun fuel => ?_, ⟨⟨_, (hchain.link (t := u) hx hts).setTimer hu rfl rfl rfl⟩, ?_⟩, [],
      (List.append_nil _).symm, ?_⟩
    · apply (run_bind_of_ok (add_timer_run hchain hx htimeout) _).trans
      rw [if_neg (by simp)]
      exact writeTimer_run hu _
    · intro y c hc
      rw [hsetting y] at hc
      split_ifs at hc
      · cases hc
        exact ⟨rfl, rfl⟩
      · exact h.armed y c hc
    · intro y
      refine ⟨?_, rfl⟩
      by_cases hyx : y = x
      · subst hyx
        rw [countdown_eq ((hsetting y).trans (if_pos rfl)) rfl rfl, WheelOp.count,
          if_pos ⟨rfl, htimeout⟩]
        exact congrArg (fun left => some (Countdown.mk left cb_func user_data))
          (ticks_eq hchain.cur_slot)
      · have hsame := (hsetting y).trans (if_neg hyx)
        rw [countdown_congr (s := s) (t := t) rfl hsame, WheelOp.count,
          if_neg (fun hxy => hyx hxy.1.symm)]
  · -- a negative timeout makes no timer
    refine ⟨s, fun fuel => ?_, h, [], (List.append_nil _).symm, ?_⟩
    · rw [WheelOp.exec, add_timer, if_pos (not_le.mp htimeout)]
      rfl
    · intro y
      rw [WheelOp.count, if_neg (fun hxy => htimeout hxy.2)]
      exact ⟨rfl, rfl⟩

theorem del_counts (h : WellFormed s) (hx : (s.timers x).isSome = true) :
    ∃ t, (∀ fuel, ((WheelOp.del (some x)).exec fuel).run s = .ok ((), t)) ∧
      Counts (.del (some x)) s t := by
  obtain ⟨chain, hchain⟩ := h.chained
  obtain ⟨u, hu⟩ := Option.isSome_iff_exists.mp hx
  obtain ⟨A, B, hsplit⟩ := List.append_of_mem (hchain.mem hu)
  refine ⟨s.unlink x, fun fuel => del_timer_run hchain hu, ⟨⟨_, hchain.unlink hsplit⟩, ?_⟩, [],
    (List.append_nil _).symm, ?_⟩
  · intro y c hc
    rw [settingOf_unlink] at hc
    split_ifs at hc
    · cases hc
    · exact h.armed y c hc
  · intro y
    refine ⟨?_, rfl⟩
    by_cases hyx : y = x
    · rw [countdown_eq_none ((settingOf_unlink s x y).trans (if_pos hyx)), WheelOp.count,
        if_pos (congrArg some hyx.symm)]
    · have hsame := (settingOf_unlink s x y).trans (if_neg hyx)
      rw [countdown_congr (s := s) (t := s.unlink x) rfl hsame, WheelOp.count,
        if_neg (fun hxy => hyx (Option.some.inj hxy).symm)]

theorem del_none_counts (h : WellFormed s) :
    (∀ fuel, ((WheelOp.del none).exec fuel).run s = .ok ((), s)) ∧ Counts (.del none) s s := by
  refine ⟨fun fuel => rfl, h, [], (List.append_nil _).symm, ?_⟩
  intro y
  rw [WheelOp.count, if_neg (by simp)]
  exact ⟨rfl, rfl⟩

/-- A tick moves the countdown of a timer and calls its callback when the countdown is over: in the
current slot the rotation decides, and in the others only the way to the current slot changes. -/
theorem tick_countdown (hcur : s.cur_slot < N) (hi : c.time_slot < N) (hc : s.settingOf x = some c)
    (harmed : c.Armed) (htcur : t.cur_slot = (s.cur_slot + 1) % N)
    (ht : t.settingOf x = if c.time_slot = s.cur_slot then c.turn else some c) :
    t.countdown x = WheelOp.tick.count x (s.countdown x) ∧
      (if c.time_slot = s.cur_slot then (Setting.firing x c).toList else []) =
        WheelOp.tick.rings x (s.countdown x) := by
  obtain ⟨f, d, hf, hd⟩ := Setting.Armed.exists_eq harmed
  have hway := way_succ hcur hi
  have hzero := way_eq_zero_iff hcur hi
  have hN : 0 < N := by decide
  rw [countdown_eq hc hf hd, WheelOp.count, WheelOp.rings, Option.bind_some]
  by_cases hslot : c.time_slot = s.cur_slot
  · rw [if_pos hslot] at ht hway ⊢
    -- no way is left, so the rotation is the countdown
    rw [hzero.mpr hslot, Nat.add_zero]
    by_cases hwait : 0 < c.rotation
    · have hne : c.rotation * N ≠ 0 := Nat.mul_ne_zero (Nat.ne_of_gt hwait) (Nat.ne_of_gt hN)
      rw [Setting.turn, if_pos hwait] at ht
      rw [countdown_eq ht hf hd, htcur, hway, if_neg hne, if_neg hne, Setting.firing, if_pos hwait]
      refine ⟨?_, rfl⟩
      -- a rotation less, and the whole circle but one slot ahead
      have hleft : (c.rotation - 1) * N + (N - 1) = c.rotation * N - 1 := by
        obtain ⟨r, hr⟩ := Nat.exists_eq_succ_of_ne_zero (Nat.ne_of_gt hwait)
        rw [hr, Nat.succ_sub_one, Nat.succ_mul]
        omega
      rw [hleft]
    · have hrot : c.rotation * N = 0 := by rw [Nat.eq_zero_of_not_pos hwait, Nat.zero_mul]
      rw [Setting.turn, if_neg hwait] at ht
      rw [countdown_eq_none ht, if_pos hrot, if_pos hrot, Setting.firing, if_neg hwait, hf, hd]
      exact ⟨rfl, rfl⟩
  · rw [if_neg hslot] at ht hway ⊢
    -- the timer is not touched; the slot moves on towards it
    have hne : (c.time_slot + N - s.cur_slot) % N ≠ 0 := fun hw => hslot (hzero.mp hw)
    have hleft : c.rotation * N + (c.time_slot + N - s.cur_slot) % N ≠ 0 :=
      fun hzero => hne (Nat.add_eq_zero_iff.mp hzero).2
    rw [countdown_eq ht hf hd, htcur, hway, if_neg hleft, if_neg hleft]
    refine ⟨?_, rfl⟩
    rw [Nat.add_sub_assoc (Nat.pos_of_ne_zero hne)]

theorem tick_counts (h : WellFormed s) :
    ∃ t, Returns WheelOp.tick.exec s ((), t) ∧ Counts .tick s t := by
  obtain ⟨chain, hchain⟩ := h.chained
  obtain ⟨t, chain', hrun, ht, htcur, hcalls, hsetting⟩ :=
    tick_run hchain (fun y _ => h.armed y) (Nat.lt_succ_self _)
  refine ⟨t, tick_steady.returns hrun, ⟨⟨chain', ht⟩, ?_⟩, _, hcalls, ?_⟩
  · intro y c hc
    rw [hsetting y] at hc
    split_ifs at hc
    · obtain ⟨c', hc', hturn⟩ := Option.bind_eq_some_iff.mp hc
      exact Setting.Armed.turn (h.armed y c' hc') hturn
    · exact h.armed y c hc
  · intro y
    rw [filter_firing _ (hchain.nodup _)]
    cases hc : s.settingOf y with
    | none =>
        have hty : t.settingOf y = none := by
          rw [hsetting y, hc, Option.bind_none, ite_self]
        rw [countdown_eq_none hty, countdown_eq_none hc, Option.bind_none]
        exact ⟨rfl, ite_self _⟩
    | some c =>
        have hmem := hchain.mem_iff hc s.cur_slot
        have hty := hsetting y
        rw [hc, Option.bind_some] at hty
        rw [Option.bind_some]
        simp only [hmem] at hty ⊢
        exact tick_countdown hchain.cur_slot (hchain.time_slot_lt hc) hc (h.armed y c hc) htcur hty

/-- Every operation returns and counts. -/
theorem exec_counts (h : WellFormed s) (op : WheelOp) (hop : op.Allowed s) :
    ∃ t, Returns op.exec s ((), t) ∧ Counts op s t := by
  cases op with
  | add x timeout cb_func user_data =>
      obtain ⟨t, hrun, ht⟩ := add_counts h hop timeout cb_func user_data
      exact ⟨t, ⟨0, fun fuel _ => hrun fuel⟩, ht⟩
  | del timer =>
      cases timer with
      | none => exact ⟨s, ⟨0, fun fuel _ => (del_none_counts h).1 fuel⟩, (del_none_counts h).2⟩
      | some x =>
          obtain ⟨t, hrun, ht⟩ := del_counts h hop
          exact ⟨t, ⟨0, fun fuel _ => hrun fuel⟩, ht⟩
  | tick => exact tick_counts h

end Step

end TimeWheel

/-! ## Countdowns in a sequence of operations -/

namespace WheelOp

variable {x : Nat} {A B ops : List WheelOp}

theorem countAll_cons (op : WheelOp) (c : Option Countdown) :
    countAll x (op :: ops) c = countAll x ops (op.count x c) := rfl

theorem countAll_append (c : Option Countdown) :
    countAll x (A ++ B) c = countAll x B (countAll x A c) :=
  List.foldl_append

theorem ringsAll_append (c : Option Countdown) :
    ringsAll x (A ++ B) c = ringsAll x A c ++ ringsAll x B (countAll x A c) := by
  induction A generalizing c with
  | nil => rfl
  | cons op A ih => rw [List.cons_append, ringsAll, ringsAll, ih, List.append_assoc, countAll_cons]

/-- An address without a timer stays so until a timer is made there. -/
theorem count_none {op : WheelOp} (hop : ¬ op.Creates x) : op.count x none = none := by
  cases op with
  | add y timeout cb_func user_data => exact if_neg hop
  | del timer => exact ite_self _
  | tick => rfl

theorem all_none (hops : ∀ op ∈ ops, ¬ op.Creates x) :
    countAll x ops none = none ∧ ringsAll x ops none = [] := by
  induction ops with
  | nil => exact ⟨rfl, rfl⟩
  | cons op ops ih =>
      obtain ⟨hop, hops⟩ := List.forall_mem_cons.mp hops
      rw [countAll_cons, ringsAll, count_none hop, (ih hops).2]
      refine ⟨(ih hops).1, ?_⟩
      cases op <;> rfl

/-- An operation other than a tick leaves the timer at `x` alone, unless it is about `x`. -/
theorem count_some {op : WheelOp} (hop : ¬ op.Creates x) (hdel : op ≠ .del (some x))
    (htick : op ≠ .tick) (c : Countdown) :
    op.count x (some c) = some c ∧ op.rings x (some c) = [] := by
  cases op with
  | add y timeout cb_func user_data => exact ⟨if_neg hop, rfl⟩
  | del timer => exact ⟨if_neg fun htimer => hdel (congrArg del htimer), rfl⟩
  | tick => exact absurd rfl htick

/-- A timer that is not deleted fires in the tick after `c.left` others, once. -/
theorem all_some (hops : ∀ op ∈ ops, ¬ op.Creates x) (hdel : .del (some x) ∉ ops) (c : Countdown) :
    (countAll x ops (some c) =
      if c.left < ticks ops then none else some { c with left := c.left - ticks ops }) ∧
    ringsAll x ops (some c) = if c.left < ticks ops then [⟨x, c.cb_func, c.user_data⟩] else [] := by
  induction ops generalizing c with
  | nil => exact ⟨rfl, rfl⟩
  | cons op ops ih =>
      obtain ⟨hop, htail⟩ := List.forall_mem_cons.mp hops
      obtain ⟨hne, hdel'⟩ := not_or.mp (mt List.mem_cons.mpr hdel)
      rw [countAll_cons, ringsAll]
      by_cases htick : op = .tick
      · subst htick
        have hticks : ticks (.tick :: ops) = ticks ops + 1 := List.count_cons_self
        rw [hticks, count, rings, Option.bind_some]
        by_cases hleft : c.left = 0
        · -- this is the tick that fires it
          rw [if_pos hleft, if_pos hleft, (all_none htail).1, (all_none htail).2, if_pos (by omega),
            if_pos (by omega)]
          exact ⟨rfl, rfl⟩
        · obtain ⟨hcount, hrings⟩ := ih htail hdel' { c with left := c.left - 1 }
          have hiff : c.left - 1 < ticks ops ↔ c.left < ticks ops + 1 := by omega
          have hsub : c.left - 1 - ticks ops = c.left - (ticks ops + 1) := by omega
          rw [if_neg hleft, if_neg hleft, hcount, hrings, List.nil_append]
          simp only [hiff, hsub, and_self]
      · have hticks : ticks (op :: ops) = ticks ops := List.count_cons_of_ne htick
        obtain ⟨hcount, hrings⟩ := count_some hop (Ne.symm hne) htick c
        rw [hticks, hcount, hrings, List.nil_append]
        exact ih htail hdel' c

end WheelOp

/-! ## Runs -/

namespace TimeWheel

/-- The operations lead from `s` to `t`. Each of them is allowed where it starts, and returns. -/
inductive Run : TimeWheel → List WheelOp → TimeWheel → Prop where
  | nil (s : TimeWheel) : Run s [] s
  | cons {s t u : TimeWheel} {op : WheelOp} {ops : List WheelOp} (hop : op.Allowed s)
      (hrun : Returns op.exec s ((), t)) (h : Run t ops u) : Run s (op :: ops) u

/-- The timer `x` is in the list of a slot. -/
def Holds (s : TimeWheel) (x : Nat) : Prop :=
  ∃ i, i < N ∧ ∃ l, Follows s.next (s.slots i) l ∧ x ∈ l

section Runs

variable {s t u : TimeWheel} {A B ops : List WheelOp} {x : Nat}

theorem wellFormed_empty : WellFormed empty := by
  refine ⟨⟨fun _ => [], by decide, fun i => rfl, fun i => .nil _ _, ?_, fun i => .nil, ?_, ?_⟩, ?_⟩
  · intro i x hx
    cases hx
  · intro i x
    exact iff_of_false (by simp) (by simp [slotOf, empty])
  · intro x i hx
    cases hx
  · intro x c hc
    cases hc

/-- The timers in the lists of the slots are the live ones. -/
theorem WellFormed.holds_iff (h : WellFormed s) (x : Nat) :
    s.Holds x ↔ (s.timers x).isSome = true := by
  obtain ⟨chain, hchain⟩ := h.chained
  have hfollows : ∀ i, Follows s.next (s.slots i) (chain i) :=
    fun i => (hchain.slots i).symm ▸ (hchain.threaded i).follows
  constructor
  · rintro ⟨i, -, l, hl, hx⟩
    rw [hl.unique (hfollows i)] at hx
    obtain ⟨u, hu, -⟩ := hchain.live hx
    rw [hu]
    rfl
  · intro hx
    obtain ⟨u, hu⟩ := Option.isSome_iff_exists.mp hx
    exact ⟨u.time_slot, hchain.lt (hchain.mem hu), _, hfollows _, hchain.mem hu⟩

/-- A run may be cut. -/
theorem Run.split (h : Run s (A ++ B) u) : ∃ t, Run s A t ∧ Run t B u := by
  induction A generalizing s with
  | nil => exact ⟨s, .nil s, h⟩
  | cons op A ih =>
      cases h with
      | cons hop hrun h =>
          obtain ⟨t, hA, hB⟩ := ih h
          exact ⟨t, .cons hop hrun hA, hB⟩

/-- A run counts at every address as its operations say. -/
theorem Run.counts (h : Run s ops t) (hs : WellFormed s) :
    WellFormed t ∧ ∃ new, t.calls = s.calls ++ new ∧
      ∀ x, t.countdown x = WheelOp.countAll x ops (s.countdown x) ∧
        new.filter (fun c => c.timer = x) = WheelOp.ringsAll x ops (s.countdown x) := by
  induction h with
  | nil s => exact ⟨hs, [], (List.append_nil _).symm, fun x => ⟨rfl, rfl⟩⟩
  | @cons s t u op ops hop hrun _ ih =>
      obtain ⟨t', hrun', ht, new, hcalls, hstep⟩ := exec_counts hs op hop
      cases hrun.unique hrun'
      obtain ⟨hu, new', hcalls', hrest⟩ := ih ht
      refine ⟨hu, new ++ new', by rw [hcalls', hcalls, List.append_assoc], ?_⟩
      intro x
      rw [List.filter_append, (hstep x).2, (hrest x).1, (hrest x).2, (hstep x).1]
      exact ⟨rfl, rfl⟩

theorem ticksOf_eq {timeout : Int} (htimeout : 0 ≤ timeout) :
    ticksOf timeout = max 1 (timeout.toNat / TI) := by
  unfold ticksOf TI
  split_ifs <;> omega

/-- What happens at the address `x` after a timer is added there. The operations `B` may go on for
as long as no other timer is made at this address. -/
theorem Run.counts_added {timeout : Int} {cb_func user_data : Nat} (hs : WellFormed s)
    (h : Run s (.add x timeout cb_func user_data :: B) t) (htimeout : 0 ≤ timeout) :
    WellFormed t ∧ ∃ called, t.calls = s.calls ++ called ∧
      t.countdown x = WheelOp.countAll x B (some ⟨ticksOf timeout, cb_func, user_data⟩) ∧
      called.filter (fun c => c.timer = x) =
        WheelOp.ringsAll x B (some ⟨ticksOf timeout, cb_func, user_data⟩) := by
  obtain ⟨ht, called, hcalls, hx⟩ := h.counts hs
  obtain ⟨hcount, hrings⟩ := hx x
  rw [WheelOp.countAll_cons, WheelOp.count, if_pos ⟨rfl, htimeout⟩] at hcount
  rw [WheelOp.ringsAll, WheelOp.count, if_pos ⟨rfl, htimeout⟩] at hrings
  exact ⟨ht, called, hcalls, hcount, hrings⟩

/-- A timer that is deleted before it fires gets no call. -/
theorem Run.silent_of_del {c : Countdown} (hs : WellFormed s) (hc : s.countdown x = some c)
    (h : Run s B t) (hfresh : ∀ op ∈ B, ¬ op.Creates x) (hdel : .del (some x) ∈ B) :
    WheelOp.countAll x B (some c) = none ∧ WheelOp.ringsAll x B (some c) = [] := by
  obtain ⟨B₁, B₂, rfl, hfirst⟩ := List.eq_append_cons_of_mem hdel
  obtain ⟨u, h₁, h₂⟩ := h.split
  have hfresh₁ : ∀ op ∈ B₁, ¬ op.Creates x := fun op hop => hfresh op (by simp [hop])
  have hfresh₂ : ∀ op ∈ B₂, ¬ op.Creates x := fun op hop => hfresh op (by simp [hop])
  obtain ⟨hu, new, -, hcount⟩ := h₁.counts hs
  obtain ⟨hall, hrings⟩ := WheelOp.all_some hfresh₁ hfirst c
  -- what is deleted is still in the wheel, so it has not fired
  have hlive : (u.countdown x).isSome = true := by
    cases h₂ with
    | cons hop => rw [hu.isSome_countdown, hop]
  rw [(hcount x).1, hc, hall] at hlive
  have hleft : ¬ c.left < WheelOp.ticks B₁ := by
    intro hlt
    rw [if_pos hlt] at hlive
    cases hlive
  rw [WheelOp.countAll_append, WheelOp.ringsAll_append, hrings, if_neg hleft, WheelOp.countAll_cons,
    WheelOp.ringsAll]
  have hgone : ∀ c, (WheelOp.del (some x)).count x c = none := fun c => if_pos rfl
  rw [hgone, (WheelOp.all_none hfresh₂).1, (WheelOp.all_none hfresh₂).2]
  exact ⟨rfl, rfl⟩

/-- In every state of a run of the wheel every operation that is provided for returns. A timer added
with a timeout gets its callback called once, in the tick that comes after `max 1 (timeout / TI)`
others: with so many ticks or fewer it is in the wheel and has not been called, and with one more it
has been called and is gone, from the wheel and from memory. A timer that is deleted before gets no
call. The operations after the timer is added may go on until its address is given out again. -/
theorem fires_once (hA : Run empty A s) :
    (∀ op : WheelOp, op.Allowed s → ∃ t, Returns op.exec s ((), t)) ∧
      ∀ (x : Nat) (timeout : Int) (cb_func user_data : Nat) (B : List WheelOp) (t : TimeWheel),
        0 ≤ timeout → Run s (.add x timeout cb_func user_data :: B) t →
        (∀ op ∈ B, ¬ op.Creates x) →
        ∃ called, t.calls = s.calls ++ called ∧
          (.del (some x) ∉ B →
            (called.filter (fun c => c.timer = x) =
              if max 1 (timeout.toNat / TI) < WheelOp.ticks B then [⟨x, cb_func, user_data⟩]
              else []) ∧
            (t.Holds x ↔ WheelOp.ticks B ≤ max 1 (timeout.toNat / TI)) ∧
            ((t.timers x).isSome = true ↔ WheelOp.ticks B ≤ max 1 (timeout.toNat / TI))) ∧
          (.del (some x) ∈ B →
            called.filter (fun c => c.timer = x) = [] ∧ ¬ t.Holds x ∧ t.timers x = none) := by
  have hs := (hA.counts wellFormed_empty).1
  constructor
  · intro op hop
    obtain ⟨t, hrun, -⟩ := exec_counts hs op hop
    exact ⟨t, hrun⟩
  · intro x timeout cb_func user_data B t htimeout h hfresh
    obtain ⟨ht, called, hcalls, hcount, hrings⟩ := h.counts_added hs htimeout
    refine ⟨called, hcalls, ?_, ?_⟩
    · intro hdel
      obtain ⟨hcountAll, hringsAll⟩ :=
        WheelOp.all_some hfresh hdel ⟨ticksOf timeout, cb_func, user_data⟩
      have hlive : (t.timers x).isSome = true ↔ WheelOp.ticks B ≤ ticksOf timeout := by
        rw [← ht.isSome_countdown, hcount, hcountAll]
        split_ifs with hlt
        · exact iff_of_false (by simp) (not_le.mpr hlt)
        · exact iff_of_true rfl (not_lt.mp hlt)
      rw [ht.holds_iff, ← ticksOf_eq htimeout]
      exact ⟨hrings.trans hringsAll, hlive, hlive⟩
    · intro hdel
      cases h with
      | cons hop hrun h =>
          obtain ⟨u, hrun', hu, new, -, hstep⟩ := exec_counts hs _ hop
          cases hrun.unique hrun'
          have hc := (hstep x).1
          rw [WheelOp.count, if_pos ⟨rfl, htimeout⟩] at hc
          obtain ⟨hgone, hsilent⟩ := h.silent_of_del hu hc hfresh hdel
          have hdead : (t.timers x).isSome ≠ true := by
            rw [← ht.isSome_countdown, hcount, hgone]
            exact Bool.false_ne_true
          rw [ht.holds_iff]
          exact ⟨hrings.trans hsilent, hdead, by simpa using hdead⟩

/-- A timer with a timeout of one second fires in the second tick. -/
theorem fires_once_second_tick :
    ∃ t called, Run empty [.add 0 1 7 9, .tick, .tick] t ∧ t.calls = called ∧
      called.filter (fun c => c.timer = 0) = [⟨0, 7, 9⟩] := by
  have hrun : ∃ t, Run empty [.add 0 1 7 9, .tick, .tick] t := by
    obtain ⟨t₁, hadd, h₁, -⟩ := exec_counts wellFormed_empty (.add 0 1 7 9) rfl
    obtain ⟨t₂, htick, h₂, -⟩ := exec_counts h₁ .tick trivial
    obtain ⟨t₃, htick', -⟩ := exec_counts h₂ .tick trivial
    exact ⟨t₃, .cons rfl hadd (.cons trivial htick (.cons trivial htick' (.nil t₃)))⟩
  obtain ⟨t, hrun⟩ := hrun
  obtain ⟨called, hcalls, hfire, -⟩ :=
    (fires_once (.nil empty)).2 0 1 7 9 [.tick, .tick] t (by decide) hrun
      (by simp [WheelOp.Creates])
  exact ⟨t, called, hrun, hcalls, (hfire (by decide)).1.trans (if_pos (by decide))⟩

end Runs

end TimeWheel

end CLanguageLearning.Timer
