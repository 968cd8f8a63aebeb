import CLanguageLearning.Foundation.Exec
import CLanguageLearning.Foundation.TailPointer

/-!
# Draining a chain

The loop that frees a chain cell by cell: it reads the next pointer of the first cell, frees the cell
and goes on from where it pointed. The memory is seen through `cells`, the live cells by their address;
what else the code does to the state is left to a relation that it keeps. Every cell that is met is
freed once, and no other (`drain_run`). A run that met a freed cell again would not return.
-/

set_option autoImplicit false

namespace CLanguageLearning.Foundation

variable {σ α κ : Type}

/-- `while (p) { … }`, in at most the given number of turns; `body x` frees the cell at `x` and
returns the pointer that the loop goes on with. -/
def drainLoop (body : α → Exec σ (Option α)) : Nat → Option α → Exec σ Unit
  | 0, _ => throw .diverged
  | _ + 1, none => return ()
  | fuel + 1, some x => do
      let p ← body x
      drainLoop body fuel p

/-- The body frees the cell at a live address, returns its next pointer and keeps `kept`. -/
def FreesCell [DecidableEq α] (cells : σ → α → Option κ) (next : κ → Option α) (kept : σ → σ → Prop)
    (body : α → Exec σ (Option α)) : Prop :=
  ∀ s x c, cells s x = some c → ∃ s', (body x).run s = .ok (next c, s') ∧
    cells s' = Function.update (cells s) x none ∧ kept s s'

section Drain

variable [DecidableEq α] {cells : σ → α → Option κ} {next : κ → Option α} {kept : σ → σ → Prop}
  {body : α → Exec σ (Option α)}

/-- The cells that the loop meets are freed, each of them once, and the others stay. -/
theorem drain_run (hbody : FreesCell cells next kept body) (hrefl : ∀ s, kept s s)
    (htrans : ∀ s t u, kept s t → kept t u → kept s u) (l : List α) :
    ∀ {s : σ} {p : Option α}, Follows (fun x => (cells s x).bind next) p l → l.Nodup →
      (∀ x ∈ l, (cells s x).isSome) →
      ∃ s', Returns (fun fuel => drainLoop body fuel p) s ((), s') ∧
        (∀ x, cells s' x = if x ∈ l then none else cells s x) ∧ kept s s' := by
  induction l with
  | nil =>
      intro s p hp _ _
      obtain rfl : p = none := hp
      refine ⟨s, ⟨1, fun fuel hfuel => ?_⟩, fun x => (if_neg (List.not_mem_nil)).symm, hrefl s⟩
      obtain ⟨n, rfl⟩ := Nat.exists_eq_add_of_le' hfuel
      rfl
  | cons x l ih =>
      intro s p hp hnodup hlive
      obtain ⟨rfl, hrest⟩ := hp
      obtain ⟨hx, hl⟩ := List.nodup_cons.mp hnodup
      obtain ⟨c, hc⟩ := Option.isSome_iff_exists.mp (hlive x (List.mem_cons_self ..))
      obtain ⟨t, hfree, hcells, hkept⟩ := hbody s x c hc
      have hsame : ∀ y ∈ l, cells t y = cells s y := by
        intro y hy
        rw [hcells]
        refine Function.update_of_ne ?_ _ _
        rintro rfl
        exact hx hy
      dsimp only at hrest
      rw [hc, Option.bind_some] at hrest
      obtain ⟨s', ⟨N, hN⟩, hfreed, hkept'⟩ := ih (s := t) (p := next c)
        (hrest.congr fun y hy => by rw [hsame y hy]) hl
        (fun y hy => by rw [hsame y hy]; exact hlive y (List.mem_cons_of_mem _ hy))
      refine ⟨s', ⟨N + 1, fun fuel hfuel => ?_⟩, fun y => ?_, htrans s t s' hkept hkept'⟩
      · obtain ⟨n, rfl⟩ := Nat.exists_eq_add_of_le' hfuel
        exact (run_bind_of_ok hfree _).trans (hN _ (Nat.le_add_left N n))
      · rw [hfreed y, hcells]
        by_cases hyx : y = x
        · rw [hyx, Function.update_self, if_pos (List.mem_cons_self ..), ite_self]
        · rw [Function.update_of_ne hyx]
          simp only [List.mem_cons, hyx, false_or]

end Drain

end CLanguageLearning.Foundation
