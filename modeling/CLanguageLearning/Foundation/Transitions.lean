import Mathlib.Algebra.BigOperators.Group.Finset.Basic
import Mathlib.Data.Fintype.Card
import Mathlib.Logic.Function.Basic
import Mathlib.Tactic

/-!
# Systems that move by events

A system is a function `step` on states and events, `none` where the event cannot happen. An event
names everything that the system itself does not decide: which thread moves, what an external call
answers. A run is a list of events, so a statement about all runs ranges over every interleaving and
every behaviour of the environment.

The rules below lead from what one step keeps to what a run keeps. The last part counts the threads
at a point of their program.
-/

set_option autoImplicit false

namespace CLanguageLearning.Foundation

section Runs

variable {σ ε : Type} (step : σ → ε → Option σ)

/-- The state after the events `l`, if they can happen in this order. -/
def runEvents : σ → List ε → Option σ
  | s, [] => some s
  | s, e :: l => (step s e).bind fun t => runEvents t l

/-- Every event of a run happens in a state in which `C` admits it. -/
def Along (C : σ → ε → Prop) : σ → List ε → Prop
  | _, [] => True
  | s, e :: l => C s e ∧ (step s e).elim True fun t => Along C t l

instance (C : σ → ε → Prop) [∀ s e, Decidable (C s e)] (s : σ) (l : List ε) :
    Decidable (Along step C s l) := by
  induction l generalizing s with
  | nil => exact isTrue trivial
  | cons e l ih =>
      unfold Along
      cases step s e with
      | none => exact inferInstanceAs (Decidable (C s e ∧ True))
      | some t =>
          have : Decidable (Along step C t l) := ih t
          exact inferInstanceAs (Decidable (C s e ∧ Along step C t l))

variable {step} {C : σ → ε → Prop} {I : σ → Prop} {s t u : σ} {e : ε} {l : List ε}

/-- A run starts with its first event. -/
theorem runEvents_cons_eq_some :
    runEvents step s (e :: l) = some t ↔ ∃ u, step s e = some u ∧ runEvents step u l = some t :=
  Option.bind_eq_some_iff

/-- A run in two parts. -/
theorem runEvents_append {l' : List ε} :
    runEvents step s (l ++ l') = some t ↔
      ∃ u, runEvents step s l = some u ∧ runEvents step u l' = some t := by
  induction l generalizing s with
  | nil => simp [runEvents]
  | cons e l ih =>
      simp only [List.cons_append, runEvents_cons_eq_some, ih]
      constructor
      · rintro ⟨v, hv, u, hu, ht⟩
        exact ⟨u, ⟨v, hv, hu⟩, ht⟩
      · rintro ⟨u, ⟨v, hv, hu⟩, ht⟩
        exact ⟨v, hv, u, hu, ht⟩

/-- A loop that goes on with the same event: the run takes it from turn to turn. -/
theorem runEvents_replicate {J : Nat → σ → Prop} {N : Nat}
    (hstep : ∀ p s, p < N → J p s → ∃ t, step s e = some t ∧ J (p + 1) t) (n : Nat) :
    ∀ {p : Nat} {s : σ}, J p s → p + n ≤ N →
      ∃ t, runEvents step s (List.replicate n e) = some t ∧ J (p + n) t := by
  induction n with
  | zero => exact fun {p s} hs _ => ⟨s, rfl, hs⟩
  | succ n ih =>
      intro p s hs hn
      obtain ⟨u, hu, hJ⟩ := hstep p s (by omega) hs
      obtain ⟨t, hrun, ht⟩ := ih hJ (by omega)
      refine ⟨t, runEvents_cons_eq_some.mpr ⟨u, hu, hrun⟩, ?_⟩
      rw [Nat.add_right_comm] at ht
      exact ht

theorem Along.head (h : Along step C s (e :: l)) : C s e := h.1

theorem Along.tail (h : Along step C s (e :: l)) (hstep : step s e = some t) :
    Along step C t l := by
  have htail := h.2
  rw [hstep] at htail
  exact htail

theorem along_cons_iff (hstep : step s e = some t) :
    Along step C s (e :: l) ↔ C s e ∧ Along step C t l := by
  rw [Along, hstep]
  rfl

/-- Two conditions that hold along a run hold together. -/
theorem Along.and {D : σ → ε → Prop} (hC : Along step C s l) (hD : Along step D s l) :
    Along step (fun s e => C s e ∧ D s e) s l := by
  induction l generalizing s with
  | nil => trivial
  | cons e l ih =>
      refine ⟨⟨hC.head, hD.head⟩, ?_⟩
      cases hstep : step s e with
      | none => trivial
      | some t => exact ih (hC.tail hstep) (hD.tail hstep)

/-- What every admitted step keeps, a run of admitted steps keeps. -/
theorem invariant_along (hinv : ∀ s e t, I s → C s e → step s e = some t → I t) (hs : I s)
    (hC : Along step C s l) (h : runEvents step s l = some t) : I t := by
  induction l generalizing s with
  | nil =>
      cases h
      exact hs
  | cons e l ih =>
      obtain ⟨u, hu, hrest⟩ := runEvents_cons_eq_some.mp h
      exact ih (hinv s e u hs hC.head hu) (hC.tail hu) hrest

/-- What every step keeps, every run keeps. -/
theorem invariant (hinv : ∀ s e t, I s → step s e = some t → I t) (hs : I s)
    (h : runEvents step s l = some t) : I t := by
  induction l generalizing s with
  | nil =>
      cases h
      exact hs
  | cons e l ih =>
      obtain ⟨u, hu, hrest⟩ := runEvents_cons_eq_some.mp h
      exact ih (hinv s e u hs hu) hrest

theorem along_of_mem (h : ∀ s, ∀ e ∈ l, C s e) (s : σ) : Along step C s l := by
  induction l generalizing s with
  | nil => trivial
  | cons e l ih =>
      refine ⟨h s e (List.mem_cons_self ..), ?_⟩
      cases step s e with
      | none => trivial
      | some t => exact ih (fun s e he => h s e (List.mem_cons_of_mem _ he)) t

theorem along_of_forall (h : ∀ s e, C s e) (s : σ) (l : List ε) : Along step C s l :=
  along_of_mem (fun s e _ => h s e) s

theorem Along.imp {D : σ → ε → Prop} (himp : ∀ s e, C s e → D s e) (hC : Along step C s l) :
    Along step D s l := by
  induction l generalizing s with
  | nil => trivial
  | cons e l ih =>
      refine ⟨himp s e hC.head, ?_⟩
      cases hstep : step s e with
      | none => trivial
      | some t => exact ih (hC.tail hstep)

/-- What holds at the end of a run held all along if a step never brings it back. -/
theorem along_of_end {P : σ → Prop} (hback : ∀ s e t, step s e = some t → P t → P s)
    (h : runEvents step s l = some t) (ht : P t) : P s ∧ Along step (fun s _ => P s) s l := by
  induction l generalizing s with
  | nil =>
      cases h
      exact ⟨ht, trivial⟩
  | cons e l ih =>
      obtain ⟨u, hu, hrest⟩ := runEvents_cons_eq_some.mp h
      obtain ⟨hPu, hl⟩ := ih hrest
      have hPs := hback s e u hu hPu
      exact ⟨hPs, (along_cons_iff hu).mpr ⟨hPs, hl⟩⟩

/-- A run of `D`-steps keeps `I` as long as its steps are admitted, or ends in `B`, when the first
step that is not leads into `B` and no `D`-step leaves `B`. -/
theorem along_or_lasting {D : σ → ε → Prop} {B : σ → Prop}
    (hstep : ∀ s e t, I s → D s e → step s e = some t → (C s e ∧ I t) ∨ (¬ C s e ∧ B t))
    (hlast : ∀ s e t, B s → D s e → step s e = some t → B t) (hs : I s) (hD : Along step D s l)
    (h : runEvents step s l = some t) :
    (Along step C s l ∧ I t) ∨ (¬ Along step C s l ∧ B t) := by
  induction l generalizing s with
  | nil =>
      cases h
      exact Or.inl ⟨trivial, hs⟩
  | cons e l ih =>
      obtain ⟨u, hu, hrest⟩ := runEvents_cons_eq_some.mp h
      rw [along_cons_iff hu]
      rcases hstep s e u hs hD.head hu with ⟨hC, hI⟩ | ⟨hC, hB⟩
      · rcases ih hI (hD.tail hu) hrest with ⟨hl, ht⟩ | ⟨hl, ht⟩
        · exact Or.inl ⟨⟨hC, hl⟩, ht⟩
        · exact Or.inr ⟨fun hall => hl hall.2, ht⟩
      · exact Or.inr ⟨fun hall => hC hall.1, invariant_along hlast hB (hD.tail hu) hrest⟩

/-- A property holds in every state of a run exactly when every step is admitted, if on the states
with the property admission is what keeps it. The invariant may rest on the property. -/
theorem always_iff_along_of {P : σ → Prop}
    (hinv : ∀ s e t, I s → P s → step s e = some t → P t → I t)
    (hkeep : ∀ s e t, I s → P s → step s e = some t → (P t ↔ C s e)) (hs : I s) (hP : P s)
    (h : runEvents step s l = some t) :
    (Along step (fun s _ => P s) s l ∧ P t) ↔ Along step C s l := by
  induction l generalizing s with
  | nil =>
      cases h
      exact ⟨fun _ => trivial, fun _ => ⟨trivial, hP⟩⟩
  | cons e l ih =>
      obtain ⟨u, hu, hrest⟩ := runEvents_cons_eq_some.mp h
      have hkeep_u := hkeep s e u hs hP hu
      rw [along_cons_iff hu, along_cons_iff hu]
      constructor
      · rintro ⟨⟨-, hl⟩, ht⟩
        have hPu : P u := by
          cases l with
          | nil =>
              cases hrest
              exact ht
          | cons e' l => exact hl.head
        exact ⟨hkeep_u.mp hPu, (ih (hinv s e u hs hP hu hPu) hPu hrest).mp ⟨hl, ht⟩⟩
      · rintro ⟨hC, hl⟩
        have hPu := hkeep_u.mpr hC
        obtain ⟨hl', ht⟩ := (ih (hinv s e u hs hP hu hPu) hPu hrest).mpr hl
        exact ⟨⟨hP, hl'⟩, ht⟩

/-- The same with an invariant that holds whether or not the property does. -/
theorem always_iff_along {P : σ → Prop} (hinv : ∀ s e t, I s → step s e = some t → I t)
    (hkeep : ∀ s e t, I s → P s → step s e = some t → (P t ↔ C s e)) (hs : I s) (hP : P s)
    (h : runEvents step s l = some t) :
    (Along step (fun s _ => P s) s l ∧ P t) ↔ Along step C s l :=
  always_iff_along_of (fun s e t hI _ hstep _ => hinv s e t hI hstep) hkeep hs hP h

end Runs

/-! ## Threads at a point -/

section Threads

variable {ι α : Type} [Fintype ι] [DecidableEq ι]

/-- When one thread moves, a sum over the threads loses its old part and gains its new one. -/
theorem sum_update_add {M : Type} [AddCommMonoid M] (g : α → M) (pc : ι → α) (i : ι) (a : α) :
    (∑ j, g (Function.update pc i a j)) + g (pc i) = (∑ j, g (pc j)) + g a := by
  have hrest : ∑ j ∈ Finset.univ.erase i, g (Function.update pc i a j) =
      ∑ j ∈ Finset.univ.erase i, g (pc j) := by
    apply Finset.sum_congr rfl
    intro j hj
    rw [Function.update_of_ne (Finset.ne_of_mem_erase hj)]
  rw [← Finset.add_sum_erase _ _ (Finset.mem_univ i),
    ← Finset.add_sum_erase _ (fun j => g (pc j)) (Finset.mem_univ i), hrest, Function.update_self]
  ac_rfl

/-- The number of threads at a point that satisfies `p`. -/
def countAt (p : α → Prop) [DecidablePred p] (pc : ι → α) : Nat :=
  (Finset.univ.filter fun i => p (pc i)).card

variable {p : α → Prop} [DecidablePred p] {pc : ι → α} {i : ι} {a : α}

/-- When one thread moves, it is counted at its new point and no longer at its old one. -/
theorem countAt_update (p : α → Prop) [DecidablePred p] (pc : ι → α) (i : ι) (a : α) :
    countAt p (Function.update pc i a) + (if p (pc i) then 1 else 0) =
      countAt p pc + if p a then 1 else 0 := by
  rw [countAt, countAt, Finset.card_filter, Finset.card_filter]
  exact sum_update_add (fun b => if p b then 1 else 0) pc i a

/-- A thread that moves between points that are not counted. -/
theorem countAt_update_of_iff (h : p (pc i) ↔ p a) :
    countAt p (Function.update pc i a) = countAt p pc := by
  have hcount := countAt_update p pc i a
  by_cases ha : p a
  · rw [if_pos ha, if_pos (h.mpr ha)] at hcount
    omega
  · rw [if_neg ha, if_neg fun hpc => ha (h.mp hpc)] at hcount
    omega

/-- A thread that comes to a counted point. -/
theorem countAt_update_enter (h : ¬ p (pc i)) (ha : p a) :
    countAt p (Function.update pc i a) = countAt p pc + 1 := by
  have hcount := countAt_update p pc i a
  rw [if_neg h, if_pos ha] at hcount
  omega

/-- A thread that leaves a counted point. -/
theorem countAt_update_leave (h : p (pc i)) (ha : ¬ p a) :
    countAt p (Function.update pc i a) + 1 = countAt p pc := by
  have hcount := countAt_update p pc i a
  rw [if_pos h, if_neg ha] at hcount
  omega

end Threads

end CLanguageLearning.Foundation
