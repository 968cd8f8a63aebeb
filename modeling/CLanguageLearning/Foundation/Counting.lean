import CLanguageLearning.Foundation.ByteMemory

/-!
# Counting what code uses

`Raises obs k x` says that code `x`, whenever it returns, has raised the number `obs` of the state by
`k` at most: requests made, blocks named, turns taken. The rules follow the shape of the code, and the
bounds of its parts add up.
-/

set_option autoImplicit false

namespace CLanguageLearning.Foundation

/-- Whenever the code returns, the number `obs` of the state has grown by `k` at most. -/
def Raises {σ α : Type} (obs : σ → Nat) (k : Nat) (x : Exec σ α) : Prop :=
  ∀ s a s', x.run s = .ok (a, s') → obs s' ≤ obs s + k

namespace Raises

variable {σ α β : Type} {obs : σ → Nat} {k l : Nat}

theorem of_keeps {x : Exec σ α} (h : Keeps obs x) : Raises obs 0 x :=
  fun s a s' hx => (h s a s' hx).le

theorem mono {x : Exec σ α} (h : Raises obs k x) (hkl : k ≤ l) : Raises obs l x :=
  fun s a s' hx => (h s a s' hx).trans (Nat.add_le_add_left hkl _)

/-- The rule of sequences. -/
theorem bind {x : Exec σ α} {f : α → Exec σ β} (hx : Raises obs k x)
    (hf : ∀ a, Raises obs l (f a)) : Raises obs (k + l) (x >>= f) := by
  intro s b s' h
  obtain ⟨a, t, ht, hrest⟩ := run_bind_eq_ok h
  have h₁ := hx s a t ht
  have h₂ := hf a t b s' hrest
  omega

/-- A first part that keeps the number. -/
theorem after {x : Exec σ α} {f : α → Exec σ β} (hx : Keeps obs x)
    (hf : ∀ a, Raises obs k (f a)) : Raises obs k (x >>= f) := by
  have h := (of_keeps hx).bind hf
  rwa [Nat.zero_add] at h

/-- A second part that keeps it. -/
theorem andThen {x : Exec σ α} {f : α → Exec σ β} (hx : Raises obs k x)
    (hf : ∀ a, Keeps obs (f a)) : Raises obs k (x >>= f) :=
  hx.bind fun a => of_keeps (hf a)

theorem ite {c : Prop} [Decidable c] {x y : Exec σ α} (hx : Raises obs k x)
    (hy : Raises obs k y) : Raises obs k (if c then x else y) := by
  split
  · exact hx
  · exact hy

end Raises

/-! ## Blocks -/

theorem writeAt_keeps_next (p : Ptr) (n : Nat) (f : Nat → UInt8) : Keeps Mem.next (writeAt p n f) :=
  writeAt_keeps (fun _ _ _ _ _ => rfl) p n f

theorem memcpy_keeps_next (dst : Ptr) (src : Source) (n : Nat) :
    Keeps Mem.next (memcpy dst src n) :=
  memcpy_keeps (fun _ _ _ _ _ => rfl) dst src n

theorem free_keeps_next (p : Ptr) : Keeps Mem.next (free p) := by
  apply Keeps.ite (Keeps.pure _)
  obtain ⟨_ | i, o⟩ := p
  · exact Keeps.throw _
  · refine (access_keeps Mem.next _ _).bind fun _ => Keeps.ite ?_ (Keeps.throw _)
    intro m a m' hm
    cases hm
    rfl

theorem malloc_raises_next (al : Allocator) (n : Nat) : Raises Mem.next 1 (malloc al n) := by
  intro m p m' h
  cases hal : al m.requests.length with
  | none =>
      rw [malloc_run_refused hal] at h
      cases h
      exact Nat.le_succ _
  | some junk =>
      rw [malloc_run_granted hal] at h
      cases h
      exact Nat.le_refl _

theorem realloc_raises_next (al : Allocator) (p : Ptr) (n : Nat) :
    Raises Mem.next 1 (realloc al p n) := by
  refine .after (access_keeps _ p 0) ?_
  rintro ⟨i, b⟩
  refine .ite (fun m a m' h => by cases h) fun m a m' h => ?_
  cases hal : al m.requests.length with
  | none =>
      simp [hal] at h
      obtain ⟨-, rfl⟩ := h
      exact Nat.le_succ _
  | some junk =>
      simp [hal] at h
      obtain ⟨-, rfl⟩ := h
      exact Nat.le_refl _

end CLanguageLearning.Foundation
