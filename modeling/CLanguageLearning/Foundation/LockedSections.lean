import CLanguageLearning.Foundation.Transitions

/-!
# Sections of code under a lock

Threads run sections of code under one lock, a step at a time, while other threads take steps outside
of their sections. The atomic system takes a whole section as one event. Every run of the first is
explained by a run of the second, in which a section happens where its thread gives the lock up
(`runEvents_serial`), as long as a step outside can be taken before the steps that another thread has
made in its section so far (`Commutes`).
-/

set_option autoImplicit false

namespace CLanguageLearning.Foundation

/-- Code around a lock. The state `σ` has all that the threads share and where they are outside of
their sections, `ρ` is where a thread is in its section, with its registers there. -/
structure LockedCode (σ ο κ ρ : Type) where
  /-- A step that is not in a section. -/
  outside : σ → ο → Option σ
  /-- Where the section of a thread begins, if the thread is about to ask for the lock. -/
  enter : κ → σ → Option ρ
  /-- The next step in a section. -/
  micro : κ → ρ → σ → Option (ρ × σ)
  /-- The end of a section, where the lock is given up. -/
  leave : κ → ρ → σ → Option σ

/-- The shared state, and the thread that has the lock. -/
structure Locked (σ κ ρ : Type) where
  shared : σ
  inside : Option (κ × ρ)
  deriving DecidableEq, Repr

/-- What can happen next when sections are run step by step. -/
inductive LockedEvent (ο κ : Type) where
  | outside (e : ο)
  | enter (k : κ)
  | micro
  | leave
  deriving DecidableEq, Repr

/-- What can happen next when a section is one event, of `n` steps. -/
inductive SerialEvent (ο κ : Type) where
  | outside (e : ο)
  | whole (k : κ) (n : Nat)
  deriving DecidableEq, Repr

namespace LockedCode

variable {σ ο κ ρ : Type} (code : LockedCode σ ο κ ρ)

def step (s : Locked σ κ ρ) : LockedEvent ο κ → Option (Locked σ κ ρ)
  | .outside e => (code.outside s.shared e).map fun t => ⟨t, s.inside⟩
  | .enter k =>
      match s.inside with
      | none => (code.enter k s.shared).map fun r => ⟨s.shared, some (k, r)⟩
      | some _ => none
  | .micro =>
      match s.inside with
      | none => none
      | some (k, r) => (code.micro k r s.shared).map fun p => ⟨p.2, some (k, p.1)⟩
  | .leave =>
      match s.inside with
      | none => none
      | some (k, r) => (code.leave k r s.shared).map fun t => ⟨t, none⟩

/-- The first `n` steps of a section. -/
def part (k : κ) : Nat → σ → Option (ρ × σ)
  | 0, s => (code.enter k s).map fun r => (r, s)
  | n + 1, s => (part k n s).bind fun p => code.micro k p.1 p.2

def serialStep (s : σ) : SerialEvent ο κ → Option σ
  | .outside e => code.outside s e
  | .whole k n => (code.part k n s).bind fun p => code.leave k p.1 p.2

/-- The run of the atomic system: the open section, with the number of its steps so far, is an event
where it ends. -/
def serial : Option (κ × Nat) → List (LockedEvent ο κ) → List (SerialEvent ο κ)
  | _, [] => []
  | p, .outside e :: l => .outside e :: serial p l
  | _, .enter k :: l => serial (some (k, 0)) l
  | some (k, n), .micro :: l => serial (some (k, n + 1)) l
  | some (k, n), .leave :: l => .whole k n :: serial none l
  | none, .micro :: l => serial none l
  | none, .leave :: l => serial none l

/-- The section that is open at the end of a run. -/
def pending : Option (κ × Nat) → List (LockedEvent ο κ) → Option (κ × Nat)
  | p, [] => p
  | p, .outside _ :: l => pending p l
  | _, .enter k :: l => pending (some (k, 0)) l
  | some (k, n), .micro :: l => pending (some (k, n + 1)) l
  | some _, .leave :: l => pending none l
  | none, .micro :: l => pending none l
  | none, .leave :: l => pending none l

/-- The state of the atomic system with the first steps of the open section. -/
def Ahead (c : σ) (s : Locked σ κ ρ) : Option (κ × Nat) → Prop
  | none => s = ⟨c, none⟩
  | some (k, n) => ∃ r, code.part k n c = some (r, s.shared) ∧ s.inside = some (k, r)

/-- A step outside that can be taken after the first steps of a section can be taken before them. -/
def Commutes (I : σ → Prop) : Prop :=
  ∀ c k n r s e t, I c → code.part k n c = some (r, s) → code.outside s e = some t →
    ∃ d, code.outside c e = some d ∧ code.part k n d = some (r, t)

variable {code} {I : σ → Prop} {c d : σ} {s t : Locked σ κ ρ} {e : LockedEvent ο κ}
  {p : Option (κ × Nat)} {l : List (LockedEvent ο κ)}

theorem Ahead.inside_none (h : code.Ahead c s none) : s.inside = none := by
  rw [h]

/-- A step of a section, or one that opens it, changes nothing for the atomic system, and every other
step is one of its own. -/
theorem Ahead.step (hcommutes : code.Commutes I) (hc : I c) (h : code.Ahead c s p)
    (hstep : code.step s e = some t) :
    ∃ d, runEvents code.serialStep c (serial p [e]) = some d ∧ code.Ahead d t (pending p [e]) := by
  cases e with
  | outside e =>
      obtain ⟨u, hu, rfl⟩ := Option.map_eq_some_iff.mp hstep
      cases p with
      | none =>
          rw [h] at hu
          exact ⟨u, runEvents_cons_eq_some.mpr ⟨u, hu, rfl⟩, by rw [h]; rfl⟩
      | some q =>
          obtain ⟨k, n⟩ := q
          obtain ⟨r, hpart, hinside⟩ := h
          obtain ⟨d, hd, hpart'⟩ := hcommutes c k n r s.shared e u hc hpart hu
          exact ⟨d, runEvents_cons_eq_some.mpr ⟨d, hd, rfl⟩, r, hpart', hinside⟩
  | enter k =>
      cases p with
      | none =>
          cases h
          obtain ⟨r, hr, rfl⟩ := Option.map_eq_some_iff.mp hstep
          exact ⟨c, rfl, r, by rw [part, hr]; rfl, rfl⟩
      | some q =>
          -- another thread has the lock
          obtain ⟨r, -, hinside⟩ := h
          rw [LockedCode.step, hinside] at hstep
          cases hstep
  | micro =>
      cases p with
      | none =>
          cases h
          cases hstep
      | some q =>
          obtain ⟨k, n⟩ := q
          obtain ⟨r, hpart, hinside⟩ := h
          rw [LockedCode.step, hinside] at hstep
          obtain ⟨⟨r', u⟩, hmicro, rfl⟩ := Option.map_eq_some_iff.mp hstep
          exact ⟨c, rfl, r', by rw [part, hpart]; exact hmicro, rfl⟩
  | leave =>
      cases p with
      | none =>
          cases h
          cases hstep
      | some q =>
          obtain ⟨k, n⟩ := q
          obtain ⟨r, hpart, hinside⟩ := h
          rw [LockedCode.step, hinside] at hstep
          obtain ⟨u, hleave, rfl⟩ := Option.map_eq_some_iff.mp hstep
          have hwhole : code.serialStep c (.whole k n) = some u := by
            rw [serialStep, hpart]
            exact hleave
          exact ⟨u, runEvents_cons_eq_some.mpr ⟨u, hwhole, rfl⟩, rfl⟩

theorem serial_cons (p : Option (κ × Nat)) (e : LockedEvent ο κ) (l : List (LockedEvent ο κ)) :
    serial p (e :: l) = serial p [e] ++ serial (pending p [e]) l := by
  rcases p with - | ⟨k, n⟩ <;> cases e <;> rfl

theorem pending_cons (p : Option (κ × Nat)) (e : LockedEvent ο κ) (l : List (LockedEvent ο κ)) :
    pending p (e :: l) = pending (pending p [e]) l := by
  rcases p with - | ⟨k, n⟩ <;> cases e <;> rfl

/-- A run with sections step by step is a run with whole sections, and the first steps of the section
that is still open. -/
theorem runEvents_serial (hcommutes : code.Commutes I)
    (hinv : ∀ s e t, I s → code.serialStep s e = some t → I t) (hc : I c) (h : code.Ahead c s p)
    (hrun : runEvents code.step s l = some t) :
    ∃ d, runEvents code.serialStep c (serial p l) = some d ∧ I d ∧
      code.Ahead d t (pending p l) := by
  induction l generalizing c s p with
  | nil =>
      cases hrun
      exact ⟨c, rfl, hc, h⟩
  | cons e l ih =>
      obtain ⟨u, hu, hrest⟩ := runEvents_cons_eq_some.mp hrun
      obtain ⟨d, hd, hahead⟩ := h.step hcommutes hc hu
      obtain ⟨d', hd', hI, hahead'⟩ := ih (invariant hinv hc hd) hahead hrest
      rw [serial_cons p e l, pending_cons p e l]
      exact ⟨d', runEvents_append.mpr ⟨d, hd, hd'⟩, hI, hahead'⟩

/-- With the lock free there is no open section. -/
theorem Ahead.eq_of_free (h : code.Ahead c s p) (hfree : s.inside = none) : c = s.shared := by
  cases p with
  | none => rw [h]
  | some q =>
      obtain ⟨r, -, hinside⟩ := h
      rw [hfree] at hinside
      cases hinside

/-- Without steps outside there is nothing to commute with. -/
theorem commutes_of_isEmpty [IsEmpty ο] : code.Commutes I :=
  fun _ _ _ _ _ e _ _ _ _ => isEmptyElim e

end LockedCode

end CLanguageLearning.Foundation
