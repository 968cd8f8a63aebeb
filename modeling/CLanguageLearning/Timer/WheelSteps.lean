import CLanguageLearning.Foundation.LinkedChain
import CLanguageLearning.Timer.TimeWheel

/-!
# The member functions on a well-formed wheel

`Chained s chain` says that slot `i` of the wheel holds the timers `chain i`, linked both ways, and
that every live timer is in the chain of its own slot. The surgery of `add_timer`, `del_timer` and
`tick` on the lists is described by two functions on states, `link` and `unlink`, which keep it.
-/

set_option autoImplicit false

namespace CLanguageLearning.Timer

open CLanguageLearning.Foundation

namespace TimeWheel

/-- `x->next`. -/
def next (s : TimeWheel) (x : Nat) : Option Nat := (s.timers x).bind TwTimer.next

/-- `x->prev`. -/
def prev (s : TimeWheel) (x : Nat) : Option Nat := (s.timers x).bind TwTimer.prev

/-- `x->time_slot`, if `x` is live. -/
def slotOf (s : TimeWheel) (x : Nat) : Option Nat := (s.timers x).map TwTimer.time_slot

/-- Slot `i` holds the timers `chain i`. -/
structure Chained (s : TimeWheel) (chain : Nat → List Nat) : Prop where
  cur_slot : s.cur_slot < N
  slots : ∀ i, s.slots i = (chain i).head?
  threaded : ∀ i, Threaded s.next s.prev (chain i)
  first : ∀ i, ∀ x ∈ (chain i).head?, s.prev x = none
  nodup : ∀ i, (chain i).Nodup
  member : ∀ i x, x ∈ chain i ↔ s.slotOf x = some i
  time_slot : ∀ x i, s.slotOf x = some i → i < N

/-- A timer without its links. -/
structure Setting where
  rotation : Nat
  time_slot : Nat
  cb_func : Option Nat
  user_data : Option Nat
  deriving DecidableEq, Repr

/-- The timer `x` without its links, if it is live. -/
def settingOf (s : TimeWheel) (x : Nat) : Option Setting :=
  (s.timers x).map fun t => ⟨t.rotation, t.time_slot, t.cb_func, t.user_data⟩

namespace Setting

/-- The user has set the callback and its data. -/
def Armed (c : Setting) : Prop := c.cb_func.isSome = true ∧ c.user_data.isSome = true

/-- What a turn of `tick` leaves of a timer. -/
def turn (c : Setting) : Option Setting :=
  if 0 < c.rotation then some { c with rotation := c.rotation - 1 } else none

/-- The call that a turn of `tick` makes for the timer `x`. -/
def firing (x : Nat) (c : Setting) : Option Call :=
  if 0 < c.rotation then none
  else match c.cb_func, c.user_data with
    | some f, some d => some ⟨x, f, d⟩
    | _, _ => none

/-- An armed timer that does not wait calls its callback. -/
theorem firing_of_armed {c : Setting} (x : Nat) (hc : c.Armed) (hrot : ¬ 0 < c.rotation) :
    ∃ call, Setting.firing x c = some call := by
  obtain ⟨f, hf⟩ := Option.isSome_iff_exists.mp hc.1
  obtain ⟨d, hd⟩ := Option.isSome_iff_exists.mp hc.2
  exact ⟨⟨x, f, d⟩, by rw [firing, if_neg hrot, hf, hd]⟩

end Setting

/-- `p->next = q`, if `p` is not null. -/
def withNext (s : TimeWheel) (p q : Option Nat) : TimeWheel :=
  { s with timers := fun y =>
      if p = some y then (s.timers y).map fun t => { t with next := q } else s.timers y }

/-- `p->prev = q`, if `p` is not null. -/
def withPrev (s : TimeWheel) (p q : Option Nat) : TimeWheel :=
  { s with timers := fun y =>
      if p = some y then (s.timers y).map fun t => { t with prev := q } else s.timers y }

/-- `delete x`. -/
def without (s : TimeWheel) (x : Nat) : TimeWheel :=
  { s with timers := Function.update s.timers x none }

/-- The timer `x` is taken out: what pointed at it points past it. -/
def unlink (s : TimeWheel) (x : Nat) : TimeWheel :=
  { s with
    timers := fun y =>
      if y = x then none
      else (s.timers y).map fun t =>
        { t with
          next := if t.next = some x then s.next x else t.next
          prev := if t.prev = some x then s.prev x else t.prev }
    slots := fun i => if s.slots i = some x then s.next x else s.slots i }

/-- The new timer `x` comes to the front of slot `i`. -/
def link (s : TimeWheel) (x i : Nat) (t : TwTimer) : TimeWheel :=
  { s with
    timers := fun y =>
      if y = x then some { t with next := s.slots i, prev := none }
      else (s.timers y).map fun u => { u with prev := if s.slots i = some y then some x else u.prev }
    slots := Function.update s.slots i (some x) }

section Memory

variable {s : TimeWheel} {x i : Nat} {t : TwTimer}

theorem deref_run (ht : s.timers x = some t) : (deref (some x)).run s = .ok (t, s) := by
  simp [deref, ht]

theorem writeTimer_run (ht : s.timers x = some t) (f : TwTimer → TwTimer) :
    (writeTimer (some x) f).run s =
      .ok ((), { s with timers := Function.update s.timers x (some (f t)) }) := by
  rw [writeTimer, run_bind_of_ok (deref_run ht)]
  rfl

theorem setNext_run (ht : s.timers x = some t) (q : Option Nat) :
    (setNext (some x) q).run s = .ok ((), s.withNext (some x) q) := by
  rw [setNext, writeTimer_run ht, withNext]
  congr 3
  funext y
  by_cases hyx : y = x
  · subst hyx
    simp [ht]
  · rw [Function.update_of_ne hyx, if_neg (by simpa using Ne.symm hyx)]

theorem setPrev_run (ht : s.timers x = some t) (q : Option Nat) :
    (setPrev (some x) q).run s = .ok ((), s.withPrev (some x) q) := by
  rw [setPrev, writeTimer_run ht, withPrev]
  congr 3
  funext y
  by_cases hyx : y = x
  · subst hyx
    simp [ht]
  · rw [Function.update_of_ne hyx, if_neg (by simpa using Ne.symm hyx)]

/-- A previous pointer that is set unless the pointer to the timer is null. -/
theorem guardedPrev_run {p : Option Nat} (hp : ∀ n ∈ p, (s.timers n).isSome = true)
    (q : Option Nat) :
    ((if p = none then return () else setPrev p q) : Exec TimeWheel Unit).run s =
      .ok ((), s.withPrev p q) := by
  cases p with
  | none => simp [withPrev]
  | some n =>
      obtain ⟨u, hu⟩ := Option.isSome_iff_exists.mp (hp n rfl)
      rw [if_neg (by simp)]
      exact setPrev_run hu q

theorem deleteTimer_run (hx : (s.timers x).isSome = true) :
    (deleteTimer (some x)).run s = .ok ((), s.without x) := by
  obtain ⟨t, ht⟩ := Option.isSome_iff_exists.mp hx
  rw [deleteTimer, run_bind_of_ok (deref_run ht)]
  rfl

theorem slot_run (hi : i < N) (s : TimeWheel) : (slot i).run s = .ok (s.slots i, s) := by
  rw [slot, run_bind_of_ok rfl, if_pos hi]
  rfl

theorem setSlot_run (hi : i < N) (p : Option Nat) (s : TimeWheel) :
    (setSlot i p).run s = .ok ((), { s with slots := Function.update s.slots i p }) := by
  rw [setSlot, if_pos hi]
  rfl

@[simp] theorem isSome_withNext (s : TimeWheel) (p q : Option Nat) (x : Nat) :
    ((s.withNext p q).timers x).isSome = (s.timers x).isSome := by
  simp only [withNext]
  split_ifs <;> simp

@[simp] theorem isSome_withPrev (s : TimeWheel) (p q : Option Nat) (x : Nat) :
    ((s.withPrev p q).timers x).isSome = (s.timers x).isSome := by
  simp only [withPrev]
  split_ifs <;> simp

@[simp] theorem withNext_none (s : TimeWheel) (q : Option Nat) : s.withNext none q = s := by
  simp [withNext]

/-- The order of the last two writes of a removal does not matter. -/
theorem withPrev_without (s : TimeWheel) (p q : Option Nat) (x : Nat) :
    (s.without x).withPrev p q = (s.withPrev p q).without x := by
  simp only [without, withPrev]
  congr 1
  funext y
  by_cases hyx : y = x
  · subst hyx
    simp
  · rw [Function.update_of_ne hyx, Function.update_of_ne hyx]

theorem next_eq (ht : s.timers x = some t) : s.next x = t.next := by rw [next, ht]; rfl

theorem prev_eq (ht : s.timers x = some t) : s.prev x = t.prev := by rw [prev, ht]; rfl

end Memory

namespace Chained

variable {s : TimeWheel} {chain : Nat → List Nat} {x y i j : Nat} {t u : TwTimer} {A B : List Nat}

theorem mem (h : Chained s chain) (ht : s.timers x = some t) : x ∈ chain t.time_slot := by
  rw [h.member, slotOf, ht]
  rfl

theorem live (h : Chained s chain) (hx : x ∈ chain i) :
    ∃ t, s.timers x = some t ∧ t.time_slot = i :=
  Option.map_eq_some_iff.mp ((h.member i x).mp hx)

theorem lt (h : Chained s chain) (hx : x ∈ chain i) : i < N :=
  h.time_slot x i ((h.member i x).mp hx)

/-- A timer is in one chain only. -/
theorem slot_unique (h : Chained s chain) (hi : x ∈ chain i) (hj : x ∈ chain j) : i = j := by
  rw [h.member] at hi hj
  rw [hi, Option.some.injEq] at hj
  exact hj

/-- A timer that points forward at `x` is the one before it. -/
theorem prev_of_next (h : Chained s chain) (hy : y ∈ chain i) (hn : s.next y = some x) :
    x ∈ chain i ∧ s.prev x = some y :=
  (h.threaded i).prev_of_next hy hn

/-- A timer that points back at `x` is the one behind it. -/
theorem next_of_prev (h : Chained s chain) (hy : y ∈ chain i) (hp : s.prev y = some x) :
    x ∈ chain i ∧ s.next x = some y := by
  refine (h.threaded i).next_of_prev ?_ hp
  cases hchain : chain i with
  | nil =>
      rw [hchain] at hy
      cases hy
  | cons a l =>
      rw [hchain] at hy
      rcases List.mem_cons.mp hy with rfl | hl
      · rw [h.first i y (by rw [hchain]; rfl)] at hp
        cases hp
      · exact hl

theorem next_unlink (hyx : y ≠ x) :
    (s.unlink x).next y = if s.next y = some x then s.next x else s.next y := by
  cases hy : s.timers y with
  | none => simp [next, TimeWheel.unlink, hyx, hy]
  | some t => simp [next, TimeWheel.unlink, hyx, hy]

theorem prev_unlink (hyx : y ≠ x) :
    (s.unlink x).prev y = if s.prev y = some x then s.prev x else s.prev y := by
  cases hy : s.timers y with
  | none => simp [prev, TimeWheel.unlink, hyx, hy]
  | some t => simp [prev, TimeWheel.unlink, hyx, hy]

theorem slotOf_unlink (s : TimeWheel) (x y : Nat) :
    (s.unlink x).slotOf y = if y = x then none else s.slotOf y := by
  by_cases hyx : y = x
  · simp [slotOf, TimeWheel.unlink, hyx]
  · simp [slotOf, TimeWheel.unlink, hyx, Function.comp_def]

/-- The chain of one slot is replaced: what is in the others keeps its links and its slot. -/
theorem update {s' : TimeWheel} {l : List Nat} (h : Chained s chain) (hi : i < N)
    (hcur : s'.cur_slot = s.cur_slot) (hhead : s'.slots i = l.head?)
    (hthreaded : Threaded s'.next s'.prev l) (hfirst : ∀ x ∈ l.head?, s'.prev x = none)
    (hnodup : l.Nodup) (hmember : ∀ x, x ∈ l ↔ s'.slotOf x = some i)
    (hslots : ∀ j, j ≠ i → s'.slots j = s.slots j)
    (hlinks : ∀ j, j ≠ i → ∀ y ∈ chain j, s'.next y = s.next y ∧ s'.prev y = s.prev y)
    (hslotOf : ∀ j, j ≠ i → ∀ x, s'.slotOf x = some j ↔ s.slotOf x = some j) :
    Chained s' (Function.update chain i l) := by
  have hself : Function.update chain i l i = l := Function.update_self ..
  have hother : ∀ j, j ≠ i → Function.update chain i l j = chain j :=
    fun j hj => Function.update_of_ne hj ..
  refine ⟨hcur ▸ h.cur_slot, fun j => ?_, fun j => ?_, fun j => ?_, fun j => ?_, fun j => ?_, ?_⟩
  · by_cases hj : j = i
    · rw [hj, hself, hhead]
    · rw [hother j hj, hslots j hj, h.slots]
  · by_cases hj : j = i
    · rw [hj, hself]
      exact hthreaded
    · rw [hother j hj]
      refine (h.threaded j).congr (fun y hy => (hlinks j hj y hy).1) ?_
      exact fun y hy => (hlinks j hj y (List.mem_of_mem_tail hy)).2
  · by_cases hj : j = i
    · rw [hj, hself]
      exact hfirst
    · rw [hother j hj]
      intro y hy
      rw [(hlinks j hj y (List.mem_of_head? hy)).2, h.first j y hy]
  · by_cases hj : j = i
    · rw [hj, hself]
      exact hnodup
    · rw [hother j hj]
      exact h.nodup j
  · intro x
    by_cases hj : j = i
    · rw [hj, hself]
      exact hmember x
    · rw [hother j hj, hslotOf j hj, h.member]
  · intro x j hx
    by_cases hj : j = i
    · exact hj ▸ hi
    · exact h.time_slot x j ((hslotOf j hj x).mp hx)

/-- The chain of a slot without one of its timers. -/
theorem unlink_threaded (h : Chained s chain) (hx : chain i = A ++ x :: B) :
    Threaded (s.unlink x).next (s.unlink x).prev (A ++ B) ∧
      (∀ y ∈ (A ++ B).head?, (s.unlink x).prev y = none) ∧
      (s.unlink x).slots i = (A ++ B).head? := by
  have hnodup : (A ++ x :: B).Nodup := hx ▸ h.nodup i
  have hchain : Threaded s.next s.prev (A ++ x :: B) := hx ▸ h.threaded i
  have hxAB : ∀ y ∈ A ++ B, y ≠ x := by
    rintro y hy rfl
    exact (List.nodup_cons.mp (List.nodup_middle.mp hnodup)).1 hy
  have hhead : s.slots i = (A ++ x :: B).head? := by rw [h.slots, hx]
  refine ⟨?_, ?_, ?_⟩
  · refine hchain.bypass hnodup ?_ ?_
    · exact fun y hy => next_unlink (hxAB y hy)
    · exact fun y hy => prev_unlink (hxAB y hy)
  · intro y hy
    rw [prev_unlink (hxAB y (List.mem_of_head? hy))]
    cases A with
    | nil =>
        -- the timer behind the old head pointed back at it
        have hfirst : s.prev x = none := h.first i x (by rw [hx]; rfl)
        cases B with
        | nil => cases hy
        | cons b B =>
            cases hy
            rw [if_pos (List.isChain_cons_cons.mp hchain.links).1.2, hfirst]
    | cons a A =>
        cases hy
        have hfirst : s.prev y = none := h.first i y (by rw [hx]; rfl)
        rw [hfirst, if_neg (by simp)]
  · show (if s.slots i = some x then s.next x else s.slots i) = _
    rw [hhead]
    cases A with
    | nil =>
        have hnext : s.next x = B.head? := hchain.next_mid
        rw [if_pos (by rfl), hnext]
        rfl
    | cons a A =>
        have hax : a ≠ x := hxAB a (by simp)
        rw [if_neg (by simpa using hax)]
        rfl

/-- Taking a timer out of the chain of its slot. -/
theorem unlink (h : Chained s chain) (hx : chain i = A ++ x :: B) :
    Chained (s.unlink x) (Function.update chain i (A ++ B)) := by
  have hnodup : (A ++ x :: B).Nodup := hx ▸ h.nodup i
  have hxi : x ∈ chain i := by simp [hx]
  have hother : ∀ j, j ≠ i → x ∉ chain j := fun j hj hmem => hj (h.slot_unique hmem hxi)
  have hslot : s.slotOf x = some i := (h.member i x).mp hxi
  obtain ⟨hxAB, hAB⟩ := List.nodup_cons.mp (List.nodup_middle.mp hnodup)
  obtain ⟨hthreaded, hfirst, hhead⟩ := h.unlink_threaded hx
  refine h.update (h.lt hxi) rfl hhead hthreaded hfirst hAB ?_ ?_ ?_ ?_
  · intro y
    rw [slotOf_unlink]
    by_cases hyx : y = x
    · rw [if_pos hyx, hyx]
      exact iff_of_false hxAB (by simp)
    · rw [if_neg hyx, ← h.member, hx]
      simp [hyx]
  · intro j hj
    show (if s.slots j = some x then s.next x else s.slots j) = _
    rw [if_neg]
    intro hhead
    rw [h.slots] at hhead
    exact hother j hj (List.mem_of_head? hhead)
  · intro j hj y hy
    have hyx : y ≠ x := fun hyx => hother j hj (hyx ▸ hy)
    rw [next_unlink hyx, prev_unlink hyx, if_neg, if_neg]
    · exact ⟨rfl, rfl⟩
    · exact fun hp => hother j hj (h.next_of_prev hy hp).1
    · exact fun hn => hother j hj (h.prev_of_next hy hn).1
  · intro j hj y
    rw [slotOf_unlink]
    by_cases hyx : y = x
    · rw [if_pos hyx, hyx, hslot]
      simpa using Ne.symm hj
    · rw [if_neg hyx]

/-- For live timers, pointing forward and pointing back go together. -/
theorem next_iff_prev (h : Chained s chain) (hx : s.timers x = some t) (hy : s.timers y = some u) :
    u.next = some x ↔ t.prev = some y := by
  rw [← next_eq hy, ← prev_eq hx]
  exact ⟨fun hn => (h.prev_of_next (h.mem hy) hn).2, fun hp => (h.next_of_prev (h.mem hx) hp).2⟩

/-- The writes that take `x` out. -/
theorem unlink_eq (h : Chained s chain) (ht : s.timers x = some t) :
    s.unlink x = { ((s.withNext t.prev t.next).withPrev t.next t.prev).without x with
      slots := fun j => if s.slots j = some x then t.next else s.slots j } := by
  rw [TimeWheel.unlink, next_eq ht, prev_eq ht]
  congr 1
  funext y
  simp only [without, withPrev, withNext]
  by_cases hyx : y = x
  · rw [if_pos hyx, hyx, Function.update_self]
  · rw [if_neg hyx, Function.update_of_ne hyx]
    cases hy : s.timers y with
    | none => simp
    | some u =>
        have hnext := h.next_iff_prev ht hy
        have hprev := h.next_iff_prev hy ht
        by_cases hp : t.prev = some y <;> by_cases hn : t.next = some y <;>
          simp [hnext, ← hprev, hp, hn]

theorem next_ne_self (h : Chained s chain) (ht : s.timers x = some t) : t.next ≠ some x := by
  intro hn
  obtain ⟨A, B, hchain⟩ := List.append_of_mem (h.mem ht)
  have hthreaded : Threaded s.next s.prev (A ++ x :: B) := hchain ▸ h.threaded _
  have hmid := hthreaded.next_mid
  rw [next_eq ht, hn] at hmid
  have hnodup : (A ++ x :: B).Nodup := hchain ▸ h.nodup _
  exact (List.nodup_cons.mp (List.nodup_append.mp hnodup).2.1).1 (List.mem_of_head? hmid.symm)

theorem prev_ne_self (h : Chained s chain) (ht : s.timers x = some t) : t.prev ≠ some x :=
  fun hp => h.next_ne_self ht ((h.next_iff_prev ht ht).mpr hp)

/-- The timer behind a live one is live. -/
theorem next_live (h : Chained s chain) (ht : s.timers x = some t) :
    ∀ n ∈ t.next, (s.timers n).isSome = true := by
  intro n hn
  rw [← next_eq ht] at hn
  obtain ⟨u, hu, -⟩ := h.live (h.prev_of_next (h.mem ht) hn).1
  rw [hu]
  rfl

/-- A slot with `x` at its head is the slot of `x`. -/
theorem slot_of_head (h : Chained s chain) (ht : s.timers x = some t) (hj : s.slots j = some x) :
    j = t.time_slot := by
  rw [h.slots] at hj
  exact h.slot_unique (List.mem_of_head? hj) (h.mem ht)

/-- The timer at the head of its slot is taken out. -/
theorem unlink_head (h : Chained s chain) (ht : s.timers x = some t)
    (hhead : s.slots t.time_slot = some x) :
    s.unlink x = (({ s with slots := Function.update s.slots t.time_slot t.next } :
      TimeWheel).withPrev t.next none).without x := by
  have hprev : t.prev = none := by
    rw [← prev_eq ht]
    exact h.first t.time_slot x (by rw [← h.slots]; exact hhead)
  have hslots : (fun j => if s.slots j = some x then t.next else s.slots j) =
      Function.update s.slots t.time_slot t.next := by
    funext j
    by_cases hj : s.slots j = some x
    · rw [if_pos hj, h.slot_of_head ht hj, Function.update_self]
    · have hne : j ≠ t.time_slot := fun hj' => hj (hj' ▸ hhead)
      rw [if_neg hj, Function.update_of_ne hne]
  rw [h.unlink_eq ht, hprev, withNext_none, hslots]
  rfl

/-- A timer behind another one is taken out. -/
theorem unlink_inner (h : Chained s chain) (ht : s.timers x = some t)
    (hhead : s.slots t.time_slot ≠ some x) :
    (∃ a u, t.prev = some a ∧ s.timers a = some u) ∧
      s.unlink x = ((s.withNext t.prev t.next).withPrev t.next t.prev).without x := by
  constructor
  · obtain ⟨A, B, hchain⟩ := List.append_of_mem (h.mem ht)
    rcases List.eq_nil_or_concat' A with rfl | ⟨A, a, rfl⟩
    · exact absurd (by rw [h.slots, hchain]; rfl) hhead
    · rw [List.append_assoc, List.singleton_append] at hchain
      obtain ⟨u, hu, -⟩ := h.live (i := t.time_slot) (x := a) (by simp [hchain])
      have hthreaded : Threaded s.next s.prev (A ++ a :: x :: B) := hchain ▸ h.threaded _
      exact ⟨a, u, by rw [← prev_eq ht, hthreaded.prev_mid], hu⟩
  · -- no slot has at its head a timer that is behind another one
    have hslots : (fun j => if s.slots j = some x then t.next else s.slots j) = s.slots := by
      funext j
      rw [if_neg]
      intro hj
      exact hhead (h.slot_of_head ht hj ▸ hj)
    rw [h.unlink_eq ht, hslots]
    rfl

end Chained

section Functions

variable {s : TimeWheel} {chain : Nat → List Nat} {x : Nat} {t : TwTimer}

theorem del_timer_run (h : Chained s chain) (ht : s.timers x = some t) :
    (del_timer (some x)).run s = .ok ((), s.unlink x) := by
  have hi : t.time_slot < N := h.lt (h.mem ht)
  have hlive : (s.timers x).isSome = true := by rw [ht]; rfl
  rw [del_timer, if_neg (by simp), run_bind_of_ok (deref_run ht), run_bind_of_ok (slot_run hi s)]
  by_cases hhead : s.slots t.time_slot = some x
  · let s₁ : TimeWheel := { s with slots := Function.update s.slots t.time_slot t.next }
    rw [if_pos hhead.symm, hhead, run_bind_of_ok (deref_run ht),
      run_bind_of_ok (setSlot_run hi _ s),
      run_bind_of_ok (guardedPrev_run (s := s₁) (h.next_live ht) none),
      deleteTimer_run (by simpa [s₁] using hlive), h.unlink_head ht hhead]
  · obtain ⟨⟨a, u, ha, hu⟩, heq⟩ := h.unlink_inner ht hhead
    have hax : a ≠ x := fun hax => h.prev_ne_self ht (hax ▸ ha)
    have ht₁ : (s.withNext t.prev t.next).timers x = some t := by
      rw [ha, withNext]
      simp [hax, ht]
    rw [if_neg (Ne.symm hhead), ha, run_bind_of_ok (setNext_run hu _), ← ha,
      run_bind_of_ok (deref_run ht₁),
      run_bind_of_ok (guardedPrev_run (by simpa using h.next_live ht) t.prev),
      deleteTimer_run (by simpa using hlive), heq]

/-- The new timer at the front of a slot. -/
theorem slotOf_link (s : TimeWheel) (x i y : Nat) (t : TwTimer) :
    (s.link x i t).slotOf y = if y = x then some t.time_slot else s.slotOf y := by
  by_cases hyx : y = x
  · simp [slotOf, link, hyx]
  · simp [slotOf, link, hyx, Function.comp_def]

theorem next_link {y : Nat} (s : TimeWheel) (i : Nat) (t : TwTimer) (hyx : y ≠ x) :
    (s.link x i t).next y = s.next y := by
  cases hy : s.timers y with
  | none => simp [next, link, hyx, hy]
  | some u => simp [next, link, hyx, hy]

theorem prev_link {y : Nat} {u : TwTimer} (i : Nat) (t : TwTimer) (hyx : y ≠ x)
    (hy : s.timers y = some u) :
    (s.link x i t).prev y = if s.slots i = some y then some x else s.prev y := by
  simp [prev, link, hyx, hy]

/-- A new timer comes to the chain of its slot. -/
theorem Chained.link (h : Chained s chain) (hx : s.timers x = none) (hi : t.time_slot < N) :
    Chained (s.link x t.time_slot t)
      (Function.update chain t.time_slot (x :: chain t.time_slot)) := by
  have hfresh : ∀ j, ∀ y ∈ chain j, y ≠ x := by
    rintro j y hy rfl
    obtain ⟨u, hu, -⟩ := h.live hy
    rw [hx] at hu
    cases hu
  have hprev : ∀ j, ∀ y ∈ chain j, (s.link x t.time_slot t).prev y =
      if s.slots t.time_slot = some y then some x else s.prev y := by
    intro j y hy
    obtain ⟨u, hu, -⟩ := h.live hy
    exact prev_link _ t (hfresh j y hy) hu
  have hslot : s.slotOf x = none := by rw [slotOf, hx]; rfl
  refine h.update hi rfl (Function.update_self ..) ?_ ?_ ?_ ?_ ?_ ?_ ?_
  · apply (h.threaded t.time_slot).push
    · rw [← h.slots]
      simp [next, TimeWheel.link]
    · intro y hy
      rw [hprev _ y (List.mem_of_head? hy), if_pos (by rw [h.slots]; exact hy)]
    · exact fun y hy => next_link s _ t (hfresh _ y hy)
    · intro y hy
      rw [hprev _ y (List.mem_of_mem_tail hy), if_neg]
      intro hhead
      -- the head is not among the timers behind it
      have hnodup := h.nodup t.time_slot
      rw [h.slots] at hhead
      obtain ⟨l, hl⟩ := List.head?_eq_some_iff.mp hhead
      rw [hl] at hy hnodup
      exact (List.nodup_cons.mp hnodup).1 hy
  · intro y hy
    cases hy
    simp [prev, TimeWheel.link]
  · exact List.nodup_cons.mpr ⟨fun hmem => hfresh _ x hmem rfl, h.nodup _⟩
  · intro y
    rw [slotOf_link, List.mem_cons]
    by_cases hyx : y = x
    · rw [if_pos hyx]
      exact iff_of_true (Or.inl hyx) rfl
    · rw [if_neg hyx, ← h.member]
      exact or_iff_right hyx
  · intro j hj
    exact Function.update_of_ne hj ..
  · intro j hj y hy
    rw [next_link s _ t (hfresh j y hy), hprev j y hy, if_neg]
    · exact ⟨rfl, rfl⟩
    · intro hhead
      rw [h.slots] at hhead
      exact hj (h.slot_unique hy (List.mem_of_head? hhead))
  · intro j hj y
    rw [slotOf_link]
    by_cases hyx : y = x
    · rw [if_pos hyx, hyx, hslot]
      simpa using Ne.symm hj
    · rw [if_neg hyx]

/-- The writes that put `x` in front of the timer `y`. -/
theorem link_eq {y i : Nat} (t : TwTimer) (hhead : s.slots i = some y) (hyx : y ≠ x)
    (hnext : t.next = none) (hprev : t.prev = none) :
    s.link x i t = { ((({ s with timers := Function.update s.timers x (some t) } :
      TimeWheel).withNext (some x) (some y)).withPrev (some y) (some x)) with
        slots := Function.update s.slots i (some x) } := by
  simp only [link, withNext, withPrev, hhead]
  congr 1
  funext z
  by_cases hzx : z = x
  · subst hzx
    cases t
    simp_all
  · by_cases hzy : z = y
    · subst hzy
      simp [hzx, Ne.symm hzx]
    · simp [hzx, Ne.symm hzx, Ne.symm hzy]

theorem link_eq_of_none {i : Nat} (t : TwTimer) (hhead : s.slots i = none)
    (hnext : t.next = none) (hprev : t.prev = none) :
    s.link x i t = { s with
      timers := Function.update s.timers x (some t)
      slots := Function.update s.slots i (some x) } := by
  simp only [link, hhead]
  congr 1
  funext z
  by_cases hzx : z = x
  · subst hzx
    cases t
    simp_all
  · simp [hzx]

theorem insertTimer_run {rotation i : Nat} (h : Chained s chain) (hx : s.timers x = none)
    (hi : i < N) :
    (insertTimer x rotation i).run s =
      .ok (some x, s.link x i ⟨rotation, i, none, none, none, none⟩) := by
  have hnew : ∀ t : TwTimer, ({ s with timers := Function.update s.timers x (some t) } :
      TimeWheel).timers x = some t := fun t => Function.update_self ..
  rw [insertTimer, run_bind_of_ok rfl, run_bind_of_ok (slot_run hi _)]
  dsimp only
  cases hhead : s.slots i with
  | none =>
      rw [if_pos rfl, run_bind_of_ok (setSlot_run hi _ _), link_eq_of_none _ hhead rfl rfl]
      rfl
  | some y =>
      have hy : y ∈ chain i := by
        rw [h.slots] at hhead
        exact List.mem_of_head? hhead
      obtain ⟨u, hu, -⟩ := h.live hy
      have hyx : y ≠ x := by
        rintro rfl
        rw [hx] at hu
        cases hu
      have hu' : ∀ t : TwTimer, (({ s with timers := Function.update s.timers x (some t) } :
          TimeWheel).withNext (some x) (some y)).timers y = some u := by
        intro t
        simp [withNext, Ne.symm hyx, hyx, hu]
      rw [if_neg (by simp), run_bind_of_ok ((run_bind_of_ok (setNext_run (hnew _) _) _).trans
        ((run_bind_of_ok (setPrev_run (hu' _) _) _).trans (setSlot_run hi _ _))),
        link_eq _ hhead hyx rfl rfl]
      rfl

theorem add_timer_run (h : Chained s chain) (hx : s.timers x = none) {timeout : Int}
    (htimeout : 0 ≤ timeout) :
    (add_timer x timeout).run s = .ok (some x,
      s.link x ((s.cur_slot + ticksOf timeout % N) % N)
        ⟨ticksOf timeout / N, (s.cur_slot + ticksOf timeout % N) % N, none, none, none, none⟩) := by
  rw [add_timer, if_neg (not_lt.mpr htimeout), run_bind_of_ok rfl]
  exact insertTimer_run h hx (Nat.mod_lt _ (by decide))

/-- The removal in `tick`. -/
theorem removeExpired_run (h : Chained s chain) (ht : s.timers x = some t)
    (hslot : t.time_slot = s.cur_slot) :
    (removeExpired x).run s = .ok (t.next, s.unlink x) := by
  have hi : s.cur_slot < N := h.cur_slot
  have hlive : (s.timers x).isSome = true := by rw [ht]; rfl
  rw [removeExpired, run_bind_of_ok rfl, run_bind_of_ok (slot_run hi s)]
  by_cases hhead : s.slots s.cur_slot = some x
  · let s₁ : TimeWheel := { s with slots := Function.update s.slots s.cur_slot t.next }
    have hslots : (s₁.without x).slots s.cur_slot = t.next := Function.update_self ..
    have hnext : ∀ n ∈ t.next, ((s₁.without x).timers n).isSome = true := by
      intro n hn
      have hnx : n ≠ x := fun hnx => h.next_ne_self ht (hnx ▸ hn)
      show (Function.update s.timers x none n).isSome = true
      rw [Function.update_of_ne hnx]
      exact h.next_live ht n hn
    rw [if_pos hhead.symm, run_bind_of_ok (deref_run ht), run_bind_of_ok (setSlot_run hi _ s),
      run_bind_of_ok (deleteTimer_run (s := s₁) hlive), run_bind_of_ok (slot_run hi _), hslots,
      run_bind_of_ok (guardedPrev_run hnext none), slot_run hi]
    -- the code frees the timer before it resets the previous pointer of the new head
    show Except.ok ((s₁.without x).slots s.cur_slot, _) = _
    rw [hslots, withPrev_without, h.unlink_head ht (hslot ▸ hhead), hslot]
  · obtain ⟨⟨a, u, ha, hu⟩, heq⟩ := h.unlink_inner ht (hslot ▸ hhead)
    have hax : a ≠ x := fun hax => h.prev_ne_self ht (hax ▸ ha)
    have ht₁ : (s.withNext t.prev t.next).timers x = some t := by
      rw [ha, withNext]
      simp [hax, ht]
    have ht₂ : ((s.withNext t.prev t.next).withPrev t.next t.prev).timers x = some t := by
      rw [withPrev]
      simp [h.next_ne_self ht, ht₁]
    rw [if_neg (Ne.symm hhead), run_bind_of_ok (deref_run ht), ha,
      run_bind_of_ok (setNext_run hu _),
      ← ha, run_bind_of_ok (deref_run ht₁),
      run_bind_of_ok (guardedPrev_run (by simpa using h.next_live ht) t.prev),
      run_bind_of_ok (deref_run ht₂), run_bind_of_ok (deleteTimer_run (by simpa using hlive)), heq]
    rfl

/-- A state with the same links and slots is chained in the same way. -/
theorem Chained.congr {s' : TimeWheel} (h : Chained s chain) (hcur : s'.cur_slot < N)
    (hslots : s'.slots = s.slots) (hnext : s'.next = s.next) (hprev : s'.prev = s.prev)
    (hslot : s'.slotOf = s.slotOf) : Chained s' chain := by
  refine ⟨hcur, ?_, ?_, ?_, h.nodup, ?_, ?_⟩
  · exact fun i => by rw [hslots, h.slots]
  · exact fun i => by rw [hnext, hprev]; exact h.threaded i
  · exact fun i => by rw [hprev]; exact h.first i
  · exact fun i x => by rw [hslot]; exact h.member i x
  · exact fun x i => by rw [hslot]; exact h.time_slot x i

/-- A write to a timer that keeps its links and its slot. -/
theorem Chained.setTimer {u : TwTimer} (h : Chained s chain) (ht : s.timers x = some t)
    (hnext : u.next = t.next) (hprev : u.prev = t.prev) (hslot : u.time_slot = t.time_slot) :
    Chained { s with timers := Function.update s.timers x (some u) } chain := by
  refine h.congr h.cur_slot rfl ?_ ?_ ?_
  · funext y
    by_cases hyx : y = x
    · subst hyx
      simp [next, ht, hnext]
    · simp [next, hyx]
  · funext y
    by_cases hyx : y = x
    · subst hyx
      simp [prev, ht, hprev]
    · simp [prev, hyx]
  · funext y
    by_cases hyx : y = x
    · subst hyx
      simp [slotOf, ht, hslot]
    · simp [slotOf, hyx]

theorem settingOf_eq (ht : s.timers x = some t) :
    s.settingOf x = some ⟨t.rotation, t.time_slot, t.cb_func, t.user_data⟩ := by
  rw [settingOf, ht]
  rfl

theorem settingOf_unlink (s : TimeWheel) (x y : Nat) :
    (s.unlink x).settingOf y = if y = x then none else s.settingOf y := by
  by_cases hyx : y = x
  · simp [settingOf, unlink, hyx]
  · simp [settingOf, unlink, hyx, Function.comp_def]

/-- A turn of `tick` at a timer that waits for a rotation. -/
theorem tickLoop_run_wait (h : Chained s chain) (ht : s.timers x = some t) (hwait : 0 < t.rotation)
    (fuel : Nat) :
    ∃ s', (tickLoop (fuel + 1) (some x)).run s = (tickLoop fuel t.next).run s' ∧
      Chained s' chain ∧ s'.cur_slot = s.cur_slot ∧ s'.calls = s.calls ∧
      ∀ y, s'.settingOf y = if y = x then (s.settingOf y).bind Setting.turn else s.settingOf y := by
  refine ⟨{ s with
    timers := Function.update s.timers x (some { t with rotation := t.rotation - 1 }) },
    ?_, h.setTimer ht rfl rfl rfl, rfl, rfl, ?_⟩
  · rw [tickLoop, run_bind_of_ok (deref_run ht), if_pos hwait, run_bind_of_ok (writeTimer_run ht _),
      run_bind_of_ok (deref_run (Function.update_self ..))]
  · intro y
    by_cases hyx : y = x
    · subst hyx
      simp [settingOf, ht, Setting.turn, hwait]
    · simp [settingOf, hyx]

/-- A turn of `tick` at a timer that has expired. -/
theorem tickLoop_run_fire {D R : List Nat} {c : Call} (h : Chained s chain)
    (hchain : chain s.cur_slot = D ++ x :: R) (ht : s.timers x = some t)
    (hfire : Setting.firing x ⟨t.rotation, t.time_slot, t.cb_func, t.user_data⟩ = some c)
    (fuel : Nat) :
    ∃ s', (tickLoop (fuel + 1) (some x)).run s = (tickLoop fuel t.next).run s' ∧
      Chained s' (Function.update chain s.cur_slot (D ++ R)) ∧ s'.cur_slot = s.cur_slot ∧
      s'.calls = s.calls ++ [c] ∧
      ∀ y, s'.settingOf y = if y = x then (s.settingOf y).bind Setting.turn else s.settingOf y := by
  have hx : x ∈ chain s.cur_slot := by rw [hchain]; simp
  have hslot : t.time_slot = s.cur_slot := h.slot_unique (h.mem ht) hx
  have hrot : ¬ 0 < t.rotation := by
    intro hwait
    rw [Setting.firing, if_pos hwait] at hfire
    cases hfire
  have hcall : (callTimer x).run s = .ok ((), { s with calls := s.calls ++ [c] }) := by
    rw [Setting.firing, if_neg hrot] at hfire
    rw [callTimer, run_bind_of_ok (deref_run ht)]
    cases hf : t.cb_func with
    | none =>
        rw [hf] at hfire
        cases hfire
    | some f =>
        cases hd : t.user_data with
        | none =>
            rw [hf, hd] at hfire
            cases hfire
        | some d =>
            rw [hf, hd] at hfire
            cases hfire
            rfl
  have h₁ : Chained { s with calls := s.calls ++ [c] } chain :=
    h.congr h.cur_slot rfl rfl rfl rfl
  refine ⟨TimeWheel.unlink { s with calls := s.calls ++ [c] } x, ?_, h₁.unlink hchain, rfl, rfl, ?_⟩
  · rw [tickLoop, run_bind_of_ok (deref_run ht), if_neg hrot, run_bind_of_ok hcall,
      run_bind_of_ok (removeExpired_run h₁ ht hslot)]
  · intro y
    rw [settingOf_unlink]
    by_cases hyx : y = x
    · rw [if_pos hyx, if_pos hyx, hyx, settingOf_eq ht, Option.bind_some, Setting.turn, if_neg hrot]
    · rw [if_neg hyx, if_neg hyx]
      rfl

/-- An armed timer has its turn in the loop of `tick`. The timers `D` before it have had theirs. -/
theorem tickLoop_run_turn {D R : List Nat} (h : Chained s chain)
    (hchain : chain s.cur_slot = D ++ x :: R) (ht : s.timers x = some t)
    (harmed : ∀ c ∈ s.settingOf x, c.Armed) (fuel : Nat) :
    ∃ s' chain' D', (tickLoop (fuel + 1) (some x)).run s = (tickLoop fuel R.head?).run s' ∧
      Chained s' chain' ∧ s'.cur_slot = s.cur_slot ∧ chain' s.cur_slot = D' ++ R ∧
      s'.calls = s.calls ++ ((s.settingOf x).bind (Setting.firing x)).toList ∧
      ∀ y, s'.settingOf y = if y = x then (s.settingOf y).bind Setting.turn else s.settingOf y := by
  have hnext : t.next = R.head? := by
    have hthreaded : Threaded s.next s.prev (D ++ x :: R) := hchain ▸ h.threaded _
    rw [← next_eq ht, hthreaded.next_mid]
  rw [settingOf_eq ht] at harmed ⊢
  by_cases hwait : 0 < t.rotation
  · obtain ⟨s', hrun, h', hcur, hcalls, hsetting⟩ := tickLoop_run_wait h ht hwait fuel
    refine ⟨s', chain, D ++ [x], hnext ▸ hrun, h', hcur, ?_, ?_, hsetting⟩
    · rw [hchain, List.append_assoc, List.singleton_append]
    · rw [hcalls, Option.bind_some, Setting.firing, if_pos hwait, Option.toList_none,
        List.append_nil]
  · obtain ⟨c, hfire⟩ := Setting.firing_of_armed x (harmed _ rfl) hwait
    obtain ⟨s', hrun, h', hcur, hcalls, hsetting⟩ := tickLoop_run_fire h hchain ht hfire fuel
    refine ⟨s', _, D, hnext ▸ hrun, h', hcur, Function.update_self .., ?_, hsetting⟩
    rw [hcalls, Option.bind_some, hfire, Option.toList_some]

/-- The loop of `tick` over the chain of the current slot: every timer has its turn. The induction
is on the timers ahead. -/
theorem tickLoop_run (R : List Nat) :
    ∀ (D : List Nat) (s : TimeWheel) (chain : Nat → List Nat) (fuel : Nat), Chained s chain →
      chain s.cur_slot = D ++ R → (∀ y ∈ R, ∀ c ∈ s.settingOf y, c.Armed) → R.length < fuel →
      ∃ t chain', (tickLoop fuel R.head?).run s = .ok ((), t) ∧ Chained t chain' ∧
        t.cur_slot = s.cur_slot ∧
        t.calls = s.calls ++ R.filterMap (fun y => (s.settingOf y).bind (Setting.firing y)) ∧
        ∀ y, t.settingOf y =
          if y ∈ R then (s.settingOf y).bind Setting.turn else s.settingOf y := by
  induction R with
  | nil =>
      intro D s chain fuel h hchain harmed hfuel
      obtain ⟨fuel, rfl⟩ := Nat.exists_eq_succ_of_ne_zero (Nat.ne_zero_of_lt hfuel)
      exact ⟨s, chain, rfl, h, rfl, (List.append_nil _).symm, fun y => rfl⟩
  | cons x R ih =>
      intro D s chain fuel h hchain harmed hfuel
      obtain ⟨fuel, rfl⟩ := Nat.exists_eq_succ_of_ne_zero (Nat.ne_zero_of_lt hfuel)
      have hxR : x ∉ R := by
        have hnodup : (D ++ x :: R).Nodup := hchain ▸ h.nodup _
        exact (List.nodup_cons.mp (List.nodup_append.mp hnodup).2.1).1
      obtain ⟨u, hu, -⟩ := h.live (i := s.cur_slot) (x := x) (by simp [hchain])
      obtain ⟨s', chain₁, D', hturn, h', hcur, hchain', hcalls, hsetting⟩ :=
        tickLoop_run_turn h hchain hu (harmed x (List.mem_cons_self ..)) fuel
      have hsame : ∀ y ∈ R, s'.settingOf y = s.settingOf y := by
        intro y hy
        rw [hsetting y, if_neg (fun (hyx : y = x) => hxR (hyx ▸ hy))]
      have harmed' : ∀ y ∈ R, ∀ c ∈ s'.settingOf y, c.Armed := by
        intro y hy c hc
        rw [hsame y hy] at hc
        exact harmed y (List.mem_cons_of_mem _ hy) c hc
      obtain ⟨t, chain₂, hrun, ht, hcur', hcalls', hsetting'⟩ :=
        ih D' s' chain₁ fuel h' (hcur ▸ hchain') harmed' (Nat.succ_lt_succ_iff.mp hfuel)
      refine ⟨t, chain₂, hturn.trans hrun, ht, hcur'.trans hcur, ?_, ?_⟩
      · -- the calls of the timers ahead do not depend on the turn of `x`
        have hrest : R.filterMap (fun y => (s'.settingOf y).bind (Setting.firing y)) =
            R.filterMap (fun y => (s.settingOf y).bind (Setting.firing y)) :=
          List.filterMap_congr fun y hy => by rw [hsame y hy]
        rw [hcalls', hcalls, hrest, List.append_assoc, List.filterMap_cons]
        cases (s.settingOf x).bind (Setting.firing x) with
        | none => rfl
        | some c => rfl
      · intro y
        rw [hsetting' y]
        by_cases hyx : y = x
        · rw [hyx, if_neg hxR, if_pos (List.mem_cons_self ..), hsetting x, if_pos rfl]
        · by_cases hy : y ∈ R
          · rw [if_pos hy, if_pos (List.mem_cons_of_mem _ hy), hsame y hy]
          · rw [if_neg hy, if_neg (by simp [hyx, hy]), hsetting y, if_neg hyx]

/-- A tick: every timer of the current slot has its turn. -/
theorem tick_run {fuel : Nat} (h : Chained s chain)
    (harmed : ∀ y ∈ chain s.cur_slot, ∀ c ∈ s.settingOf y, c.Armed)
    (hfuel : (chain s.cur_slot).length < fuel) :
    ∃ t chain', (tick fuel).run s = .ok ((), t) ∧ Chained t chain' ∧
      t.cur_slot = (s.cur_slot + 1) % N ∧
      t.calls = s.calls ++
        (chain s.cur_slot).filterMap (fun y => (s.settingOf y).bind (Setting.firing y)) ∧
      ∀ y, t.settingOf y =
        if y ∈ chain s.cur_slot then (s.settingOf y).bind Setting.turn else s.settingOf y := by
  obtain ⟨t, chain', hrun, ht, hcur, hcalls, hsetting⟩ :=
    tickLoop_run (chain s.cur_slot) [] s chain fuel h rfl harmed hfuel
  have hlt : (t.cur_slot + 1) % N < N := Nat.mod_lt _ (by decide)
  refine ⟨{ t with cur_slot := (t.cur_slot + 1) % N }, chain', ?_, ht.congr hlt rfl rfl rfl rfl,
    by rw [← hcur], hcalls, hsetting⟩
  rw [tick, run_bind_of_ok rfl, run_bind_of_ok (slot_run h.cur_slot s), h.slots,
    run_bind_of_ok hrun]
  rfl

theorem settingOf_link (s : TimeWheel) (x i : Nat) (t : TwTimer) (y : Nat) :
    (s.link x i t).settingOf y =
      if y = x then some ⟨t.rotation, t.time_slot, t.cb_func, t.user_data⟩ else s.settingOf y := by
  by_cases hyx : y = x
  · simp [settingOf, link, hyx]
  · simp [settingOf, link, hyx, Function.comp_def]

end Functions

end TimeWheel

end CLanguageLearning.Timer
