import Mathlib.Data.List.Basic
import Mathlib.Tactic

/-!
# Sources with edge-triggered events

What arrives at a source waits there until it is taken, and raises an event. The event is delivered
once: what was there already raises no other. So a consumer that leaves something behind does not
hear of it before the next arrival.

Two kinds of consumers are described. One takes until nothing waits; what is due is then covered by an
event or by the consumer at work (`Covered`). The other takes one thing for each event; as many things
are left waiting as arrived while an event was still to be delivered (`OneEach`).
-/

set_option autoImplicit false

namespace CLanguageLearning.Foundation

/-- `arrived` and `taken` are all that has come and gone, `merged` counts the arrivals that found an
event still to be delivered. -/
structure EdgeSource (α : Type) where
  waiting : List α
  event : Bool
  arrived : List α
  taken : List α
  merged : Nat
  deriving DecidableEq, Repr

namespace EdgeSource

variable {α : Type}

def empty : EdgeSource α := ⟨[], false, [], [], 0⟩

def arrive (s : EdgeSource α) (l : List α) : EdgeSource α :=
  { s with waiting := s.waiting ++ l, event := true, arrived := s.arrived ++ l,
           merged := s.merged + s.event.toNat }

/-- The event is delivered. -/
def deliver (s : EdgeSource α) : EdgeSource α := { s with event := false }

/-- A new listener is told whether there is something to take. -/
def arm (s : EdgeSource α) (readable : Bool) : EdgeSource α := { s with event := readable }

/-- At most `n` of what waits are taken. -/
def take (s : EdgeSource α) (n : Nat) : EdgeSource α :=
  { s with waiting := s.waiting.drop n, taken := s.taken ++ s.waiting.take n }

/-- Nothing is lost, and the order is kept. -/
def Conserved (s : EdgeSource α) : Prop := s.taken ++ s.waiting = s.arrived

/-- What is due has an event to come, or a consumer that will look. -/
def Covered (s : EdgeSource α) (due watched : Prop) : Prop := due → s.event = true ∨ watched

/-- A consumer that takes one thing for each event, with `inHand` events delivered to it that it has
not served yet. -/
def OneEach (s : EdgeSource α) (inHand : Nat) : Prop :=
  s.waiting.length = s.merged + s.event.toNat + inHand

section Rules

variable {s : EdgeSource α} {n inHand : Nat} {due watched : Prop}

theorem conserved_empty : (empty : EdgeSource α).Conserved := rfl

theorem Conserved.arrive (h : s.Conserved) (l : List α) : (s.arrive l).Conserved := by
  rw [Conserved, EdgeSource.arrive]
  dsimp only
  rw [← List.append_assoc, h]

theorem Conserved.deliver (h : s.Conserved) : s.deliver.Conserved := h

theorem Conserved.arm (h : s.Conserved) (readable : Bool) : (s.arm readable).Conserved := h

theorem Conserved.take (h : s.Conserved) (n : Nat) : (s.take n).Conserved := by
  rw [Conserved, EdgeSource.take]
  dsimp only
  rw [List.append_assoc, List.take_append_drop, h]

theorem covered_arrive (s : EdgeSource α) (l : List α) : (s.arrive l).Covered due watched :=
  fun _ => Or.inl rfl

theorem covered_arm (s : EdgeSource α) (readable : Bool) :
    (s.arm readable).Covered (readable = true) watched := fun h => Or.inl h

theorem covered_of_watched (h : watched) (s : EdgeSource α) : s.Covered due watched :=
  fun _ => Or.inr h

theorem Covered.imp {watched' : Prop} (h : s.Covered due watched) (himp : watched → watched') :
    s.Covered due watched' := fun hdue => (h hdue).imp_right himp

/-- Where nobody looks and no event is to come, nothing is due. -/
theorem Covered.quiet (h : s.Covered due watched) (hevent : s.event = false) (hnot : ¬ watched) :
    ¬ due := by
  intro hdue
  rcases h hdue with hev | hw
  · rw [hevent] at hev
    cases hev
  · exact hnot hw

theorem oneEach_empty : (empty : EdgeSource α).OneEach 0 := rfl

theorem OneEach.arrive (h : s.OneEach inHand) (x : α) : (s.arrive [x]).OneEach inHand := by
  rw [OneEach, EdgeSource.arrive]
  dsimp only
  rw [List.length_append, h, List.length_singleton, Bool.toNat_true]
  omega

/-- An event that is delivered is one more to serve. -/
theorem OneEach.deliver (h : s.OneEach inHand) (hevent : s.event = true) :
    s.deliver.OneEach (inHand + 1) := by
  rw [OneEach, hevent, Bool.toNat_true] at h
  rw [OneEach, EdgeSource.deliver]
  dsimp only
  rw [h, Bool.toNat_false]
  omega

/-- Serving an event takes one thing, and there is one to take. -/
theorem OneEach.take (h : s.OneEach (inHand + 1)) : s.waiting ≠ [] ∧ (s.take 1).OneEach inHand := by
  rw [OneEach] at h
  constructor
  · intro hnil
    rw [hnil, List.length_nil] at h
    omega
  · rw [OneEach, EdgeSource.take]
    dsimp only
    rw [List.length_drop, h]
    omega

theorem OneEach.waiting_ne_nil (h : s.OneEach inHand) (hevent : s.event = true) :
    s.waiting ≠ [] := by
  intro hnil
  rw [OneEach, hnil, hevent, List.length_nil, Bool.toNat_true] at h
  omega

end Rules

end EdgeSource

end CLanguageLearning.Foundation
