import Mathlib.Data.List.Basic
import Mathlib.Tactic

/-!
# Windows of a ring

A ring is a list of cells read with indices modulo its length. A window is a sequence of items laid
out in the ring from a start on. The start is a counter that is never reduced: a window moves on
when its first item is removed, and grows at its end when an item is added.
-/

set_option autoImplicit false

namespace CLanguageLearning.Foundation

variable {α : Type} {cells items : List α} {start : Nat} {x : α}

/-- The ring `cells` holds `items` from the index `start` on. -/
structure Window (cells : List α) (start : Nat) (items : List α) : Prop where
  fits : items.length ≤ cells.length
  cell : ∀ k, k < items.length → cells[(start + k) % cells.length]? = items[k]?

/-- Two offsets within one turn name different cells. -/
theorem ring_index_ne {n j k : Nat} (start : Nat) (hj : j < k) (hk : k < n) :
    (start + j) % n ≠ (start + k) % n := by
  intro he
  have hmod : j ≡ k [MOD n] := Nat.ModEq.add_left_cancel' start he
  have hjk := Nat.ModEq.eq_of_lt_of_lt hmod (by omega) hk
  omega

/-- The cell before the start is the last one of a turn. -/
theorem ring_index_before {n k : Nat} (hk : k < n) (hstart : (k + 1) % n = start % n) :
    k = (start + (n - 1)) % n := by
  have hturn : (start + (n - 1)) % n = (k + 1 + (n - 1)) % n := by
    rw [Nat.add_mod, ← hstart, ← Nat.add_mod]
  rw [hturn, show k + 1 + (n - 1) = k + n by omega, Nat.add_mod_right, Nat.mod_eq_of_lt hk]

namespace Window

theorem nil (cells : List α) (start : Nat) : Window cells start [] :=
  ⟨Nat.zero_le _, fun k hk => absurd hk (Nat.not_lt_zero k)⟩

/-- The first item is in the first cell. -/
theorem first (h : Window cells start (x :: items)) : cells[start % cells.length]? = some x := by
  have hcell := h.cell 0 (Nat.succ_pos _)
  rwa [Nat.add_zero, List.getElem?_cons_zero] at hcell

/-- The last item is in the last cell. -/
theorem last (h : Window cells start (items ++ [x])) :
    cells[(start + items.length) % cells.length]? = some x := by
  have hcell := h.cell items.length (by simp)
  rwa [List.getElem?_concat_length] at hcell

/-- The last item of a full window is in the cell before the first. -/
theorem last_of_full (h : Window cells start items) (hfull : items.length = cells.length)
    (hpos : 0 < cells.length) :
    cells[(start + (cells.length - 1)) % cells.length]? = items.getLast? := by
  rw [h.cell _ (by omega), List.getLast?_eq_getElem?, hfull]

/-- Removing the first item moves the start. -/
theorem pop (h : Window cells start (x :: items)) : Window cells (start + 1) items where
  fits := by
    have hfits := h.fits
    rw [List.length_cons] at hfits
    omega
  cell := by
    intro k hk
    have hcell := h.cell (k + 1) (by simpa using hk)
    rw [List.getElem?_cons_succ] at hcell
    rw [← hcell, Nat.add_right_comm, Nat.add_assoc]

/-- A ring with a free cell takes one more item at the end. -/
theorem push (h : Window cells start items) (hroom : items.length < cells.length) (x : α) :
    Window (cells.set ((start + items.length) % cells.length) x) start (items ++ [x]) where
  fits := by
    rw [List.length_set, List.length_append, List.length_singleton]
    exact hroom
  cell := by
    intro k hk
    rw [List.length_set]
    rw [List.length_append, List.length_singleton] at hk
    rcases Nat.lt_or_eq_of_le (Nat.le_of_lt_succ hk) with hlt | rfl
    · rw [List.getElem?_set_ne (ring_index_ne start hlt hroom).symm, h.cell k hlt,
        List.getElem?_append_left hlt]
    · have hmod : (start + items.length) % cells.length < cells.length :=
        Nat.mod_lt _ (Nat.zero_lt_of_lt hroom)
      rw [List.getElem?_set_self hmod, List.getElem?_concat_length]

end Window

end CLanguageLearning.Foundation
