import Mathlib.Tactic

/-!
# Runs of imperative code

A run over a state `σ` either ends with a value and a new state or stops for one of the reasons
in `Halt`. The monad is `StateT` over `Except`, so the state of a stopped run is not observable,
as in C: after an access without meaning nothing can be said about memory.

The lemmas below let `simp` execute a `do` block symbolically from the results of its parts.
-/

set_option autoImplicit false

namespace CLanguageLearning.Foundation

/-- Reasons for which a run stops without a result. -/
inductive Halt where
  /-- A failed assertion. -/
  | abort
  /-- An operation the language gives no meaning to, such as an access outside a live object. -/
  | undefined
  /-- A loop that has used up the iterations it was given. -/
  | diverged
  /-- A request for memory that was refused, in code that does not go on after a refusal. -/
  | outOfMemory
  /-- A result outside the range of a signed type. -/
  | overflow
  /-- An exception the code throws. -/
  | exception
  deriving DecidableEq, Repr

/-- Computations over the state `σ` that may stop. -/
abbrev Exec (σ α : Type) := StateT σ (Except Halt) α

/-- The value a run ends with, its final state forgotten. -/
def outcome {σ α : Type} (r : Except Halt (α × σ)) : Except Halt α :=
  r.map Prod.fst

section Run

variable {σ α β : Type}

@[simp] theorem except_pure (a : α) : (pure a : Except Halt α) = .ok a := rfl

@[simp] theorem except_throw (e : Halt) : (throw e : Except Halt α) = .error e := rfl

@[simp] theorem ok_bind (a : α) (f : α → Except Halt β) : (Except.ok a >>= f) = f a := rfl

@[simp] theorem error_bind (e : Halt) (f : α → Except Halt β) :
    (Except.error e >>= f) = .error e := rfl

theorem run_get (s : σ) : (get : Exec σ σ).run s = .ok (s, s) := rfl

@[simp] theorem run_throw (e : Halt) (s : σ) : (throw e : Exec σ α).run s = .error e := rfl

@[simp] theorem run_ite (c : Prop) [Decidable c] (x y : Exec σ α) (s : σ) :
    (if c then x else y).run s = if c then x.run s else y.run s := by
  split <;> rfl

@[simp] theorem outcome_ok (a : α) (s : σ) : outcome (.ok (a, s)) = .ok a := rfl

/-- A sequence whose first part returns goes on from the state that part left. -/
theorem run_bind_of_ok {x : Exec σ α} {s t : σ} {a : α} (h : x.run s = .ok (a, t))
    (f : α → Exec σ β) : (x >>= f).run s = (f a).run t := by
  rw [StateT.run_bind, h]
  rfl

/-- A sequence whose first part stops has stopped. -/
theorem run_bind_of_error {x : Exec σ α} {s : σ} {e : Halt} (h : x.run s = .error e)
    (f : α → Exec σ β) : (x >>= f).run s = .error e := by
  rw [StateT.run_bind, h]
  rfl

/-- A sequence returns only if its first part does. -/
theorem run_bind_eq_ok {x : Exec σ α} {f : α → Exec σ β} {s t : σ} {b : β}
    (h : (x >>= f).run s = .ok (b, t)) :
    ∃ a s', x.run s = .ok (a, s') ∧ (f a).run s' = .ok (b, t) := by
  rw [StateT.run_bind] at h
  cases hx : x.run s with
  | error e => rw [hx] at h; cases h
  | ok p => exact ⟨p.1, p.2, rfl, by rw [hx] at h; exact h⟩

end Run

/-- The largest `int`. -/
def INT_MAX : Nat := 2 ^ 31 - 1

/-- A value computed in `int`. -/
def intValue {σ : Type} (n : Nat) : Exec σ Nat := if n ≤ INT_MAX then return n else throw .overflow

theorem intValue_run {σ : Type} {n : Nat} (h : n ≤ INT_MAX) (s : σ) :
    (intValue n : Exec σ Nat).run s = .ok (n, s) := by
  rw [intValue, if_pos h]
  rfl

theorem intValue_run_overflow {σ : Type} {n : Nat} (h : INT_MAX < n) (s : σ) :
    (intValue n : Exec σ Nat).run s = .error .overflow := by
  rw [intValue, if_neg (Nat.not_le.mpr h)]
  rfl

/-! ## Postconditions -/

/-- A run returns with `Q`, or it stops for a reason that `stops` admits. -/
def Ends {σ α : Type} (stops : Halt → Prop) (r : Except Halt (α × σ)) (Q : α → σ → Prop) : Prop :=
  match r with
  | .ok (a, s) => Q a s
  | .error e => stops e

namespace Ends

variable {σ α β : Type} {stops : Halt → Prop} {r : Except Halt (α × σ)} {Q R : α → σ → Prop} {a : α}
  {s : σ}

theorem of_ok (h : r = .ok (a, s)) (hQ : Q a s) : Ends stops r Q := by
  rw [h]
  exact hQ

theorem elim (h : Ends stops r Q) (hr : r = .ok (a, s)) : Q a s := by
  rw [hr] at h
  exact h

theorem mono (h : Ends stops r Q) (hQR : ∀ a s, Q a s → R a s) : Ends stops r R := by
  cases r with
  | ok p => exact hQR p.1 p.2 h
  | error e => exact h

/-- The rule of sequences. -/
theorem bind {x : Exec σ α} {f : α → Exec σ β} {R : β → σ → Prop} (hx : Ends stops (x.run s) Q)
    (hf : ∀ a s', Q a s' → Ends stops ((f a).run s') R) : Ends stops ((x >>= f).run s) R := by
  cases hr : x.run s with
  | ok p =>
      rw [run_bind_of_ok hr]
      exact hf p.1 p.2 (hx.elim hr)
  | error e =>
      rw [run_bind_of_error hr]
      rw [hr] at hx
      exact hx

/-- A sequence whose first part returns. -/
theorem next {x : Exec σ α} {f : α → Exec σ β} {R : β → σ → Prop} {t : σ}
    (hx : x.run s = .ok (a, t)) (hf : Ends stops ((f a).run t) R) :
    Ends stops ((x >>= f).run s) R := by
  rw [run_bind_of_ok hx]
  exact hf

/-- A value computed in `int`, when the code admits the overflow. -/
theorem intValue {n : Nat} {f : Nat → Exec σ β} {R : β → σ → Prop}
    (hstops : INT_MAX < n → stops .overflow) (hf : Ends stops ((f n).run s) R) :
    Ends stops ((Foundation.intValue n >>= f).run s) R := by
  by_cases hn : n ≤ INT_MAX
  · exact next (intValue_run hn s) hf
  · rw [run_bind_of_error (intValue_run_overflow (not_le.mp hn) s)]
    exact hstops (not_le.mp hn)

end Ends

/-! ## Loops without a bound -/

/-- Code with a loop is given a number of turns. It returns `r` when it does so with every number
large enough. -/
def Returns {σ α : Type} (x : Nat → Exec σ α) (s : σ) (r : α × σ) : Prop :=
  ∃ N, ∀ fuel, N ≤ fuel → (x fuel).run s = .ok r

/-- Code returns at most one result. -/
theorem Returns.unique {σ α : Type} {x : Nat → Exec σ α} {s : σ} {r r' : α × σ}
    (h : Returns x s r) (h' : Returns x s r') : r = r' := by
  obtain ⟨N, hN⟩ := h
  obtain ⟨N', hN'⟩ := h'
  have hr := hN (max N N') (Nat.le_max_left ..)
  rw [hN' (max N N') (Nat.le_max_right ..), Except.ok.injEq] at hr
  exact hr.symm

/-- A sequence returns what its second part returns behind the first. -/
theorem Returns.bind {σ α β : Type} {x : Nat → Exec σ α} {f : Nat → α → Exec σ β} {s t : σ} {a : α}
    {r : β × σ} (hx : Returns x s (a, t)) (hf : Returns (fun fuel => f fuel a) t r) :
    Returns (fun fuel => x fuel >>= f fuel) s r := by
  obtain ⟨N, hN⟩ := hx
  obtain ⟨M, hM⟩ := hf
  refine ⟨max N M, fun fuel hle => ?_⟩
  rw [run_bind_of_ok (hN fuel (le_trans (Nat.le_max_left N M) hle))]
  exact hM fuel (le_trans (Nat.le_max_right N M) hle)

/-- Code without a loop returns what it returns. -/
theorem Returns.of_run {σ α : Type} {x : Exec σ α} {s : σ} {r : α × σ} (h : x.run s = .ok r) :
    Returns (fun _ => x) s r :=
  ⟨0, fun _ _ => h⟩

/-- Whatever `x` returns, `y` returns as well. -/
def Extends {σ α : Type} (x y : Exec σ α) : Prop :=
  ∀ s r, x.run s = .ok r → y.run s = .ok r

namespace Extends

variable {σ α β : Type}

theorem refl (x : Exec σ α) : Extends x x :=
  fun _ _ h => h

theorem of_throw (e : Halt) (y : Exec σ α) : Extends (throw e) y := by
  intro s r h
  cases h

theorem bind {x x' : Exec σ α} {f f' : α → Exec σ β} (hx : Extends x x')
    (hf : ∀ a, Extends (f a) (f' a)) : Extends (x >>= f) (x' >>= f') := by
  intro s r h
  obtain ⟨a, t, ht, hrest⟩ := run_bind_eq_ok (b := r.1) (t := r.2) h
  rw [run_bind_of_ok (hx s (a, t) ht)]
  exact hf a t r hrest

/-- The first parts are the same. -/
theorem next {x : Exec σ α} {f f' : α → Exec σ β} (hf : ∀ a, Extends (f a) (f' a)) :
    Extends (x >>= f) (x >>= f') :=
  bind (refl x) hf

theorem ite {c : Prop} [Decidable c] {x x' y y' : Exec σ α} (hx : Extends x x')
    (hy : Extends y y') : Extends (if c then x else y) (if c then x' else y') := by
  split
  · exact hx
  · exact hy

end Extends

/-- A result with some number of turns is the result with every larger number. -/
def Steady {σ α : Type} (x : Nat → Exec σ α) : Prop :=
  ∀ fuel fuel', fuel ≤ fuel' → Extends (x fuel) (x fuel')

theorem Steady.returns {σ α : Type} {x : Nat → Exec σ α} (h : Steady x) {fuel : Nat} {s : σ}
    {r : α × σ} (hrun : (x fuel).run s = .ok r) : Returns x s r :=
  ⟨fuel, fun fuel' hle => h fuel fuel' hle s r hrun⟩

/-- A loop is steady when one more turn only extends it. -/
theorem Steady.of_succ {σ α : Type} {x : Nat → Exec σ α} (h : ∀ n, Extends (x n) (x (n + 1))) :
    Steady x := by
  intro fuel fuel' hle
  induction fuel', hle using Nat.le_induction with
  | base => exact .refl _
  | succ n _ ih => exact fun s r hrun => h n s r (ih s r hrun)

/-! ## Observations that code keeps -/

/-- Whenever the code returns, the observation `obs` of the state is as it was. -/
def Keeps {σ α β : Type} (obs : σ → β) (x : Exec σ α) : Prop :=
  ∀ s a s', x.run s = .ok (a, s') → obs s' = obs s

namespace Keeps

variable {σ α α' β : Type} {obs : σ → β}

theorem pure (a : α) : Keeps obs (Pure.pure a : Exec σ α) := by
  intro s b s' h
  cases h
  rfl

theorem get : Keeps obs (MonadState.get : Exec σ σ) := by
  intro s a s' h
  cases h
  rfl

theorem throw (e : Halt) : Keeps obs (MonadExcept.throw e : Exec σ α) := by
  intro s b s' h
  cases h

theorem bind {x : Exec σ α} {f : α → Exec σ α'} (hx : Keeps obs x) (hf : ∀ a, Keeps obs (f a)) :
    Keeps obs (x >>= f) := by
  intro s b s' h
  obtain ⟨a, t, ht, hrest⟩ := run_bind_eq_ok h
  rw [hf a t b s' hrest, hx s a t ht]

theorem ite {c : Prop} [Decidable c] {x y : Exec σ α} (hx : Keeps obs x) (hy : Keeps obs y) :
    Keeps obs (if c then x else y) := by
  split
  · exact hx
  · exact hy

end Keeps

end CLanguageLearning.Foundation
