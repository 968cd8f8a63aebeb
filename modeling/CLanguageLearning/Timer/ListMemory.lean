import CLanguageLearning.Timer.ListRuns

/-!
# Which timers are in memory

The operations of `11-2lst_timer.h` on a list that need not be in order, with what they do to memory:
adding and adjusting free nothing, `del_timer` frees its timer and `tick` those it has called.
`delete` of a timer that is not in memory has no meaning, so code that returns frees no timer twice.
-/

set_option autoImplicit false

namespace CLanguageLearning.Timer

open CLanguageLearning.Foundation

/-- The addresses of the timers in memory. -/
def SortTimerLst.inMemory (s : SortTimerLst) (x : Nat) : Bool := (s.timers x).isSome

section Memory

theorem deref_keeps {β : Type} (obs : SortTimerLst → β) (p : Option Nat) :
    Keeps obs (deref p) := by
  intro s t s' h
  cases p with
  | none => cases h
  | some x =>
      cases hx : s.timers x with
      | none => simp [deref, hx] at h
      | some u =>
          simp [deref, hx] at h
          rw [h.2]

/-- Writing to a timer keeps what every update of a timer keeps. -/
theorem writeTimer_keeps_of {β : Type} {obs : SortTimerLst → β} {f : UtilTimer → UtilTimer}
    (h : ∀ s x, obs (s.mapTimer x f) = obs s) (p : Option Nat) : Keeps obs (writeTimer p f) := by
  refine (deref_keeps _ p).bind fun _ => ?_
  intro s a s' hrun
  cases p with
  | none => cases hrun
  | some x =>
      cases hrun
      exact h s x

/-- Writing to a timer frees none. -/
theorem writeTimer_keeps (p : Option Nat) (f : UtilTimer → UtilTimer) :
    Keeps SortTimerLst.inMemory (writeTimer p f) := by
  refine writeTimer_keeps_of (fun s x => ?_) p
  funext y
  simp only [SortTimerLst.inMemory, SortTimerLst.mapTimer]
  split
  · next hy => rw [hy, Option.isSome_map]
  · rfl

theorem newTimer_inMemory {x : Nat} {expire : Int} {cb_func user_data : Nat} {s t : SortTimerLst}
    (hrun : (newTimer x expire cb_func user_data).run s = .ok ((), t)) :
    t.inMemory = Function.update s.inMemory x true := by
  cases hrun
  funext y
  by_cases hy : y = x
  · simp [SortTimerLst.inMemory, hy]
  · simp [SortTimerLst.inMemory, hy]

theorem setHead_keeps (p : Option Nat) : Keeps SortTimerLst.inMemory (setHead p) := by
  intro s a s' h
  cases h
  rfl

theorem setTail_keeps (p : Option Nat) : Keeps SortTimerLst.inMemory (setTail p) := by
  intro s a s' h
  cases h
  rfl

theorem insertLoop_keeps (timer : Option Nat) (fuel : Nat) (prev tmp : Option Nat) :
    Keeps SortTimerLst.inMemory (insertLoop timer fuel prev tmp) := by
  induction fuel generalizing prev tmp with
  | zero => exact .throw _
  | succ fuel ih =>
      refine .ite ?_ ?_
      · exact (writeTimer_keeps _ _).bind fun _ => (writeTimer_keeps _ _).bind fun _ =>
          (writeTimer_keeps _ _).bind fun _ => setTail_keeps _
      · refine (deref_keeps _ _).bind fun t => (deref_keeps _ _).bind fun n => .ite ?_ (ih tmp n.next)
        exact (writeTimer_keeps _ _).bind fun _ => (writeTimer_keeps _ _).bind fun _ =>
          (writeTimer_keeps _ _).bind fun _ => writeTimer_keeps _ _

theorem add_timer_from_keeps (fuel : Nat) (timer lst_head : Option Nat) :
    Keeps SortTimerLst.inMemory (add_timer_from fuel timer lst_head) :=
  (deref_keeps _ _).bind fun h => insertLoop_keeps timer fuel lst_head h.next

theorem add_timer_keeps (fuel : Nat) (timer : Option Nat) :
    Keeps SortTimerLst.inMemory (add_timer fuel timer) := by
  refine .ite (.pure _) (Keeps.get.bind fun s => .ite ?_ ?_)
  · exact (setHead_keeps _).bind fun _ => setTail_keeps _
  · refine (deref_keeps _ _).bind fun t => (deref_keeps _ _).bind fun h => .ite ?_ ?_
    · exact (writeTimer_keeps _ _).bind fun _ => (writeTimer_keeps _ _).bind fun _ =>
        setHead_keeps _
    · exact add_timer_from_keeps fuel timer s.head

theorem adjust_timer_keeps (fuel : Nat) (timer : Option Nat) :
    Keeps SortTimerLst.inMemory (adjust_timer fuel timer) := by
  refine .ite (.pure _) ((deref_keeps _ _).bind fun t => .ite (.pure _) ?_)
  refine (deref_keeps _ _).bind fun n => .ite (.pure _) (Keeps.get.bind fun s => .ite ?_ ?_)
  · exact (deref_keeps _ _).bind fun h => (setHead_keeps _).bind fun _ =>
      (writeTimer_keeps _ _).bind fun _ => (writeTimer_keeps _ _).bind fun _ =>
        add_timer_from_keeps fuel timer h.next
  · exact (deref_keeps _ _).bind fun _ => (writeTimer_keeps _ _).bind fun _ =>
      (deref_keeps _ _).bind fun _ => (writeTimer_keeps _ _).bind fun _ =>
        (deref_keeps _ _).bind fun t => add_timer_from_keeps fuel timer t.next

/-- Whenever the code returns, it has freed the timer `x` and no other. -/
def Frees (x : Nat) (prog : Exec SortTimerLst Unit) : Prop :=
  ∀ s a t, prog.run s = .ok (a, t) → t.inMemory = Function.update s.inMemory x false

namespace Frees

variable {x : Nat} {prog rest : Exec SortTimerLst Unit}

theorem after {α : Type} {first : Exec SortTimerLst α} {f : α → Exec SortTimerLst Unit}
    (hfirst : Keeps SortTimerLst.inMemory first) (h : ∀ a, Frees x (f a)) :
    Frees x (first >>= f) := by
  intro s a t hrun
  obtain ⟨b, u, hu, hrest⟩ := run_bind_eq_ok hrun
  rw [h b u a t hrest, hfirst s b u hu]

theorem andThen (h : Frees x prog) (hrest : Keeps SortTimerLst.inMemory rest) :
    Frees x (prog >>= fun _ => rest) := by
  intro s a t hrun
  obtain ⟨b, u, hu, hlast⟩ := run_bind_eq_ok hrun
  rw [hrest u a t hlast, h s b u hu]

theorem ite {c : Prop} [Decidable c] (h : Frees x prog) (h' : Frees x rest) :
    Frees x (if c then prog else rest) := by
  split
  · exact h
  · exact h'

end Frees

theorem deleteTimer_frees (x : Nat) : Frees x (deleteTimer (some x)) := by
  refine .after (deref_keeps _ _) fun t s a s' h => ?_
  cases h
  funext y
  by_cases hy : y = x
  · subst hy
    simp [SortTimerLst.inMemory]
  · simp [SortTimerLst.inMemory, hy]

theorem deleteTimer_keeps_calls (p : Option Nat) :
    Keeps SortTimerLst.calls (deleteTimer p) := by
  refine (deref_keeps _ p).bind fun _ s a s' h => ?_
  cases h
  rfl

theorem del_timer_frees (x : Nat) : Frees x (del_timer (some x)) := by
  rw [del_timer, if_neg (Option.some_ne_none x)]
  refine .after .get fun s => .ite ?_ (.ite ?_ (.ite ?_ ?_))
  · exact (deleteTimer_frees x).andThen ((setHead_keeps _).bind fun _ => setTail_keeps _)
  · exact .after (deref_keeps _ _) fun _ => .after (setHead_keeps _) fun _ =>
      .after (writeTimer_keeps _ _) fun _ => deleteTimer_frees x
  · exact .after (deref_keeps _ _) fun _ => .after (setTail_keeps _) fun _ =>
      .after (writeTimer_keeps _ _) fun _ => deleteTimer_frees x
  · exact .after (deref_keeps _ _) fun _ => .after (writeTimer_keeps _ _) fun _ =>
      .after (deref_keeps _ _) fun _ => .after (writeTimer_keeps _ _) fun _ => deleteTimer_frees x

/-- A tick frees the timers whose callbacks it calls. -/
theorem tickLoop_frees (cur : Int) (fuel : Nat) (tmp : Option Nat) {s t : SortTimerLst} {a : Unit}
    (hrun : (tickLoop cur fuel tmp).run s = .ok (a, t)) :
    ∃ calls, t.calls = s.calls ++ calls ∧
      ∀ y, t.inMemory y = (s.inMemory y && decide (y ∉ calls.map Call.timer)) := by
  induction fuel generalizing tmp s with
  | zero => cases hrun
  | succ fuel ih =>
      have hstop : ∀ {u : SortTimerLst}, (pure () : Exec SortTimerLst Unit).run u = .ok (a, t) →
          ∃ calls, t.calls = u.calls ++ calls ∧
            ∀ y, t.inMemory y = (u.inMemory y && decide (y ∉ calls.map Call.timer)) := by
        intro u hu
        cases hu
        exact ⟨[], (List.append_nil _).symm, by simp⟩
      cases tmp with
      | none => exact hstop hrun
      | some x =>
          obtain ⟨timer, u, hu, hrest⟩ := run_bind_eq_ok hrun
          have hu' : u = s := deref_keeps id (some x) s timer u hu
          subst hu'
          rw [run_ite] at hrest
          split at hrest
          · exact hstop hrest
          · -- the call is made, the timer is unlinked and freed, and the loop goes on
            obtain ⟨_, u₁, hu₁, hrest⟩ := run_bind_eq_ok hrest
            cases hu₁
            obtain ⟨_, u₂, hu₂, hrest⟩ := run_bind_eq_ok hrest
            cases hu₂
            have hone : ∃ u₃, u₃.calls = u.calls ++ [⟨x, timer.cb_func, timer.user_data⟩] ∧
                u₃.inMemory = Function.update u.inMemory x false ∧
                (tickLoop cur fuel timer.next).run u₃ = .ok (a, t) := by
              rw [run_ite] at hrest
              split at hrest
              · obtain ⟨_, u₃, hu₃, hlast⟩ := run_bind_eq_ok hrest
                exact ⟨u₃, deleteTimer_keeps_calls _ _ _ _ hu₃,
                  (deleteTimer_frees x _ _ _ hu₃).trans rfl, hlast⟩
              · obtain ⟨_, u₃, hu₃, hrest⟩ := run_bind_eq_ok hrest
                obtain ⟨_, u₄, hu₄, hlast⟩ := run_bind_eq_ok hrest
                refine ⟨u₄, ?_, ?_, hlast⟩
                · rw [deleteTimer_keeps_calls _ _ _ _ hu₄]
                  exact writeTimer_keeps_of (fun _ _ => rfl) _ _ _ _ hu₃
                · rw [deleteTimer_frees x _ _ _ hu₄, writeTimer_keeps _ _ _ _ _ hu₃]
                  rfl
            obtain ⟨u₃, hcalls, hmem, hlast⟩ := hone
            obtain ⟨calls, hcalls', hmem'⟩ := ih timer.next hlast
            refine ⟨⟨x, timer.cb_func, timer.user_data⟩ :: calls, ?_, ?_⟩
            · rw [hcalls', hcalls, List.append_assoc]
              rfl
            · intro y
              rw [hmem', hmem]
              by_cases hy : y = x
              · simp [hy]
              · simp [hy]

theorem tick_frees {cur : Int} {fuel : Nat} {s t : SortTimerLst} {a : Unit}
    (hrun : (tick cur fuel).run s = .ok (a, t)) :
    ∃ calls, t.calls = s.calls ++ calls ∧
      ∀ y, t.inMemory y = (s.inMemory y && decide (y ∉ calls.map Call.timer)) := by
  obtain ⟨_, u, hu, hrest⟩ := run_bind_eq_ok hrun
  cases hu
  rw [run_ite] at hrest
  split at hrest
  · cases hrest
    exact ⟨[], (List.append_nil _).symm, by simp⟩
  · exact tickLoop_frees cur fuel _ hrest

end Memory

/-! ## One step -/

namespace Op

/-- A user of a list that need not be in order adjusts and deletes members. -/
def OfMember (L : List Entry) : Op → Prop
  | adjust x _ => ∃ e ∈ L, e.id = x
  | del x => ∃ e ∈ L, e.id = x
  | _ => True

/-- The entries that an operation leaves in such a list. -/
def kept (L : List Entry) : Op → List Entry
  | tick cur => pending cur L
  | op => op.live L

/-- A new expiry time changes no callback. -/
theorem map_call_retime (x : Nat) (expire : Int) (L : List Entry) :
    (L.map (retime x expire)).map Entry.call = L.map Entry.call := by
  rw [List.map_map]
  refine List.map_congr_left fun e _ => ?_
  rw [Function.comp_apply, retime]
  split <;> rfl

end Op

/-- The list holds the entries `L`, and memory holds no other timers. -/
structure Holds (s : SortTimerLst) (L : List Entry) : Prop extends Linked Tidy s L where
  memory : ∀ x, s.inMemory x = true ↔ x ∈ ids L

section Step

variable {s : SortTimerLst} {L : List Entry}

theorem ids_perm {L' : List Entry} (h : L.Perm L') : (ids L).Perm (ids L') := h.map _

theorem holds_empty : Holds .empty [] where
  toLinked := .empty Tidy rfl
  memory := fun x => iff_of_false (by simp [SortTimerLst.inMemory, SortTimerLst.empty]) (by simp)

/-- The operation returns with some number of turns, and the list then holds what it leaves. -/
def Op.Succeeds (op : Op) (s : SortTimerLst) (L : List Entry) : Prop :=
  ∃ fuel s' L', (op.exec add_timer fuel).run s = .ok ((), s') ∧ Holds s' L' ∧
    L'.Perm (op.kept L) ∧ s'.calls = s.calls ++ op.fired L

theorem tidy_none : ∀ x, Tidy x none := fun _ => rfl

theorem Holds.add {e : Entry} (h : Holds s L) (hnew : s.timers e.id = none) :
    (Op.add e).Succeeds s L := by
  obtain ⟨s₁, s', hnew', hrun, h', hcalls⟩ := add_timer_linked h.toLinked hnew (Nat.lt_succ_self _)
  refine ⟨_, s', _, (run_bind_of_ok hnew' _).trans hrun, ⟨h', ?_⟩, perm_insertEntry e L, ?_⟩
  · intro x
    rw [add_timer_keeps _ _ _ _ _ hrun, newTimer_inMemory hnew',
      (ids_perm (perm_insertEntry e L)).mem_iff, ids_cons, List.mem_cons]
    by_cases hx : x = e.id
    · simp [hx]
    · rw [Function.update_of_ne hx, h.memory]
      simp [hx]
  · rw [hcalls]
    exact (List.append_nil _).symm

theorem Holds.adjust {x : Nat} (h : Holds s L) (expire : Int) (hx : ∃ e ∈ L, e.id = x) :
    (Op.adjust x expire).Succeeds s L := by
  obtain ⟨e, he, rfl⟩ := hx
  obtain ⟨A, B, rfl⟩ := List.append_of_mem he
  obtain ⟨s₁, s', hwrite, hrun, h', hcalls⟩ :=
    adjust_timer_linked tidy_none h.toLinked expire (Nat.lt_succ_self _)
  have hperm : (A ++ insertEntry { e with expire := expire } B).Perm
      (A ++ { e with expire := expire } :: B) := (perm_insertEntry _ B).append_left A
  have hkept : Op.kept (A ++ e :: B) (.adjust e.id expire) =
      A ++ { e with expire := expire } :: B := retime_mid h.nodup expire
  refine ⟨_, s', _, (run_bind_of_ok hwrite _).trans hrun, ⟨h', ?_⟩, hkept.symm ▸ hperm, ?_⟩
  · intro x
    have hmem : s'.inMemory = s.inMemory := by
      rw [adjust_timer_keeps _ _ _ _ _ hrun, writeTimer_keeps _ _ _ _ _ hwrite]
    rw [hmem, h.memory, (ids_perm hperm).mem_iff]
    simp
  · rw [hcalls]
    exact (List.append_nil _).symm

theorem Holds.del {x : Nat} (h : Holds s L) (hx : ∃ e ∈ L, e.id = x) : (Op.del x).Succeeds s L := by
  obtain ⟨e, he, rfl⟩ := hx
  obtain ⟨A, B, rfl⟩ := List.append_of_mem he
  obtain ⟨s', hrun, h', hcalls⟩ := del_timer_linked tidy_none h.toLinked
  have hkept : Op.kept (A ++ e :: B) (.del e.id) = A ++ B := filter_mid h.nodup
  refine ⟨0, s', _, hrun, ⟨h', ?_⟩, .of_eq hkept.symm, ?_⟩
  · intro x
    rw [del_timer_frees _ _ _ _ hrun]
    obtain ⟨hA, hB, -, -⟩ := ne_of_nodup_mid h.nodup
    by_cases hx : x = e.id
    · subst hx
      rw [Function.update_self, ids_append, List.mem_append]
      refine iff_of_false (by simp) ?_
      rintro (hmem | hmem)
      · exact hA _ hmem rfl
      · exact hB _ hmem rfl
    · rw [Function.update_of_ne hx, h.memory]
      simp [ids, hx]
  · rw [hcalls]
    exact (List.append_nil _).symm

theorem Holds.tick (h : Holds s L) (cur : Int) : (Op.tick cur).Succeeds s L := by
  obtain ⟨s', hrun, h', hcalls⟩ : ∃ s', (Timer.tick cur (L.length + 1)).run s = .ok ((), s') ∧
      Linked Tidy s' (pending cur L) ∧ s'.calls = s.calls ++ (due cur L).map Entry.call :=
    tick_linked tidy_none h.toLinked (Nat.lt_succ_self _)
  refine ⟨_, s', _, hrun, ⟨h', ?_⟩, .refl _, hcalls⟩
  -- the timers that are freed are those whose callbacks are called
  obtain ⟨calls, hcalls', hmem⟩ := tick_frees hrun
  rw [hcalls] at hcalls'
  have hdue := List.append_cancel_left hcalls'
  have hsplit : ids L = ids (due cur L) ++ ids (pending cur L) := by
    rw [← ids_append]
    exact congrArg ids List.takeWhile_append_dropWhile.symm
  have hnodup := h.nodup
  rw [hsplit] at hnodup
  obtain ⟨-, -, hdisj⟩ := List.nodup_append.mp hnodup
  intro x
  rw [hmem, ← hdue, Bool.and_eq_true, h.memory, decide_eq_true_iff, List.map_map, hsplit,
    List.mem_append]
  constructor
  · rintro ⟨hx | hx, hnot⟩
    · exact absurd hx hnot
    · exact hx
  · exact fun hx => ⟨.inr hx, fun hdue => hdisj x hdue x hx rfl⟩

/-- Every operation on members returns. -/
theorem Op.exec_holds (h : Holds s L) (op : Op) (hop : op.OfMember L) (hnew : op.Fresh s) :
    ∃ s' L', Returns (op.exec add_timer) s ((), s') ∧ Holds s' L' ∧ L'.Perm (op.kept L) ∧
      s'.calls = s.calls ++ op.fired L := by
  have hsucceeds : op.Succeeds s L := by
    cases op with
    | add e => exact h.add hnew
    | adjust x expire => exact h.adjust expire hop
    | del x => exact h.del hop
    | tick cur => exact h.tick cur
  obtain ⟨fuel, s', L', hrun, hrest⟩ := hsucceeds
  exact ⟨s', L', (Op.exec_steady add_timer_steady op).returns hrun, hrest⟩

end Step

end CLanguageLearning.Timer
