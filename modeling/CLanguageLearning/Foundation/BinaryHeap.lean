import Mathlib.Data.List.Nodup
import Mathlib.Data.List.Perm.Basic
import Mathlib.Data.List.Range
import Mathlib.Logic.Equiv.Basic
import Mathlib.Order.Basic
import Mathlib.Tactic.Linarith

/-!
# Binary heaps in slots

A binary tree in slots: the children of slot `p` are the slots `2 * p + 1` and `2 * p + 2`. What is
in the slots is given by a function, of which the first `n` values count. The order is one of keys;
`HeapFrom k n f` says that no parent from slot `k` on has a larger key than a child.

Sifting moves a hole and writes the element at its end. Here the element is in the hole all the
time, so each move exchanges two slots. `Sinking` and `Rising` say which pairs may still be out of
order while it moves down or up, with one rule each for the start, a move and the end.
-/

set_option autoImplicit false

namespace CLanguageLearning.Foundation

/-- Slot `c` is a child of slot `p`. -/
def Child (p c : Nat) : Prop := c = 2 * p + 1 ∨ c = 2 * p + 2

theorem Child.lt {p c : Nat} (h : Child p c) : p < c := by
  unfold Child at h
  omega

theorem Child.parent_unique {p q c : Nat} (h : Child p c) (h' : Child q c) : p = q := by
  unfold Child at h h'
  omega

theorem child_parent {c : Nat} (h : 0 < c) : Child ((c - 1) / 2) c := by
  unfold Child
  omega

/-! ## Contents -/

section Contents

variable {α : Type} {n i j : Nat} {b b' : Nat → α}

/-- What is in the first `n` slots. -/
def slots (n : Nat) (b : Nat → α) : List α := (List.range n).map b

/-- The contents with two slots exchanged. -/
def exchange (i j : Nat) (b : Nat → α) : Nat → α := fun k => b (Equiv.swap i j k)

@[simp] theorem exchange_left : exchange i j b i = b j := by simp [exchange]

@[simp] theorem exchange_right : exchange i j b j = b i := by simp [exchange]

theorem exchange_of_ne {k : Nat} (hi : k ≠ i) (hj : k ≠ j) : exchange i j b k = b k := by
  rw [exchange, Equiv.swap_apply_of_ne_of_ne hi hj]

@[simp] theorem slots_length (n : Nat) (b : Nat → α) : (slots n b).length = n := by simp [slots]

theorem mem_slots {x : α} : x ∈ slots n b ↔ ∃ i, i < n ∧ b i = x := by simp [slots]

theorem slots_succ (n : Nat) (b : Nat → α) : slots (n + 1) b = slots n b ++ [b n] := by
  simp [slots, List.range_succ]

theorem slots_congr (h : ∀ i, i < n → b i = b' i) : slots n b = slots n b' :=
  List.map_congr_left fun i hi => h i (List.mem_range.mp hi)

theorem swap_lt {k : Nat} (hi : i < n) (hj : j < n) (hk : k < n) : Equiv.swap i j k < n := by
  rw [Equiv.swap_apply_def]
  split
  · exact hj
  · split
    · exact hi
    · exact hk

/-- Exchanging two slots keeps the contents. -/
theorem slots_exchange (hi : i < n) (hj : j < n) : (slots n (exchange i j b)).Perm (slots n b) := by
  have hmap : slots n (exchange i j b) = ((List.range n).map (Equiv.swap i j)).map b := by
    rw [List.map_map]
    rfl
  rw [hmap]
  refine List.Perm.map b ((List.perm_ext_iff_of_nodup ?_ List.nodup_range).mpr ?_)
  · exact List.Nodup.map (Equiv.swap i j).injective List.nodup_range
  · intro k
    rw [List.mem_map, List.mem_range]
    constructor
    · rintro ⟨l, hl, rfl⟩
      exact swap_lt hi hj (List.mem_range.mp hl)
    · intro hk
      exact ⟨Equiv.swap i j k, List.mem_range.mpr (swap_lt hi hj hk), Equiv.swap_apply_self i j k⟩

/-- A new element behind the others. -/
theorem slots_push (n : Nat) (b : Nat → α) (x : α) :
    (slots (n + 1) (Function.update b n x)).Perm (x :: slots n b) := by
  rw [slots_succ, Function.update_self,
    slots_congr fun i hi => Function.update_of_ne (Nat.ne_of_lt hi) x b]
  exact List.perm_append_singleton x _

/-- The first element taken out, and the last put in its place. -/
theorem slots_pop (n : Nat) (b : Nat → α) :
    (slots (n + 1) b).Perm (b 0 :: slots n (Function.update b 0 (b n))) := by
  have hswap := slots_exchange (b := b) (Nat.zero_lt_succ n) (Nat.lt_succ_self n)
  rw [slots_succ, exchange_right] at hswap
  have hrest : slots n (exchange 0 n b) = slots n (Function.update b 0 (b n)) := by
    refine slots_congr fun i hi => ?_
    by_cases h0 : i = 0
    · rw [h0, exchange_left, Function.update_self]
    · rw [exchange_of_ne h0 (Nat.ne_of_lt hi), Function.update_of_ne h0]
  rw [hrest] at hswap
  exact hswap.symm.trans (List.perm_append_singleton _ _)

end Contents

/-! ## Order -/

section Order

variable {κ : Type} [LinearOrder κ] {n k h : Nat} {f g : Nat → κ}

/-- Parents from slot `k` on come no later than their children. -/
def HeapFrom (k n : Nat) (f : Nat → κ) : Prop :=
  ∀ p c, k ≤ p → c < n → Child p c → f p ≤ f c

theorem HeapFrom.congr (hf : HeapFrom k n f) (hfg : ∀ i, i < n → g i = f i) : HeapFrom k n g := by
  intro p c hp hc hpc
  rw [hfg p (hpc.lt.trans hc), hfg c hc]
  exact hf p c hp hc hpc

/-- The slots of the second half have no children. -/
theorem HeapFrom.of_half (hk : n ≤ 2 * k + 1) : HeapFrom k n f := by
  intro p c hp hc hpc
  unfold Child at hpc
  omega

/-- The first slot holds a least key. The induction follows the parents. -/
theorem HeapFrom.root_le (hf : HeapFrom 0 n f) (i : Nat) (hi : i < n) : f 0 ≤ f i := by
  induction i using Nat.strong_induction_on with
  | _ i ih =>
      rcases Nat.eq_zero_or_pos i with rfl | hpos
      · exact le_refl _
      · have hchild := child_parent hpos
        have hparent := ih ((i - 1) / 2) hchild.lt (hchild.lt.trans hi)
        exact hparent.trans (hf _ i (Nat.zero_le _) hi hchild)

/-- Taking the first element out leaves the other parents in order. -/
theorem HeapFrom.pop {α : Type} {key : α → κ} {b : Nat → α}
    (hf : HeapFrom 0 (n + 1) fun i => key (b i)) :
    HeapFrom 1 n fun i => key (Function.update b 0 (b n) i) := by
  intro p c hp hc hpc
  have hlt := hpc.lt
  dsimp only
  rw [Function.update_of_ne (by omega : p ≠ 0), Function.update_of_ne (by omega : c ≠ 0)]
  exact hf p c (Nat.zero_le _) (by omega) hpc

/-- All parents from `k` on are in order, besides the one in the hole; its parent comes before its
children. -/
structure Sinking (k n h : Nat) (f : Nat → κ) : Prop where
  edges : ∀ p c, k ≤ p → p ≠ h → c < n → Child p c → f p ≤ f c
  across : ∀ p c, k ≤ p → Child p h → c < n → Child h c → f p ≤ f c

namespace Sinking

theorem start (hf : HeapFrom (k + 1) n f) : Sinking k n k f where
  edges p c hp hne hc hpc := hf p c (by omega) hc hpc
  across p c hp hpk _ _ := by
    have := hpk.lt
    omega

/-- The element changes places with its smaller child, which comes before it. -/
theorem move {c : Nat} (hs : Sinking k n h f) (hk : k ≤ h) (hhc : Child h c) (hc : c < n)
    (hlt : f c < f h) (hmin : ∀ d, d < n → Child h d → f c ≤ f d) :
    Sinking k n c (exchange h c f) where
  edges p d hp hne hd hpd := by
    have hcd := hhc.lt
    -- the parent is the old place, is elsewhere, or its child is the old place
    by_cases hph : p = h
    · subst hph
      rw [exchange_left]
      by_cases hdc : d = c
      · rw [hdc, exchange_right]
        exact hlt.le
      · rw [exchange_of_ne (Nat.ne_of_gt hpd.lt) hdc]
        exact hmin d hd hpd
    · rw [exchange_of_ne hph hne]
      by_cases hdh : d = h
      · rw [hdh, exchange_left]
        exact hs.across p c hp (hdh ▸ hpd) hc hhc
      · have hdc : d ≠ c := by
          rintro rfl
          exact hph (hpd.parent_unique hhc)
        rw [exchange_of_ne hdh hdc]
        exact hs.edges p d hp hph hd hpd
  across p d hp hpc hd hcd := by
    have hph := hpc.parent_unique hhc
    subst hph
    have hlt' := hpc.lt
    have hlt'' := hcd.lt
    rw [exchange_left, exchange_of_ne (by omega) (by omega)]
    exact hs.edges c d (by omega) (by omega) hd hcd

theorem stop (hs : Sinking k n h f) (hmin : ∀ d, d < n → Child h d → f h ≤ f d) :
    HeapFrom k n f := by
  intro p c hp hc hpc
  by_cases hph : p = h
  · subst hph
    exact hmin c hc hpc
  · exact hs.edges p c hp hph hc hpc

end Sinking

/-- All parents are in order, besides that of the hole; it comes before the children of the hole. -/
structure Rising (n h : Nat) (f : Nat → κ) : Prop where
  edges : ∀ p c, c ≠ h → c < n → Child p c → f p ≤ f c
  across : ∀ p c, Child p h → c < n → Child h c → f p ≤ f c

namespace Rising

/-- A new element behind the others. -/
theorem start (hf : HeapFrom 0 n f) (hfg : ∀ i, i < n → g i = f i) : Rising (n + 1) n g where
  edges p c hne hc hpc := hf.congr hfg p c (Nat.zero_le _) (by omega) hpc
  across p c _ hc hnc := by
    have := hnc.lt
    omega

/-- The element changes places with its parent, which comes after it. -/
theorem move {p : Nat} (hr : Rising n h f) (hph : Child p h) (hh : h < n) (hlt : f h < f p) :
    Rising n p (exchange h p f) where
  edges q c hne hc hqc := by
    have hlt' := hph.lt
    -- the child is the old place, or its parent is the old place or the new one
    by_cases hch : c = h
    · subst hch
      rw [hqc.parent_unique hph, exchange_left, exchange_right]
      exact hlt.le
    · rw [exchange_of_ne hch hne]
      by_cases hqh : q = h
      · subst hqh
        rw [exchange_left]
        exact hr.across p c hph hc hqc
      · by_cases hqp : q = p
        · subst hqp
          rw [exchange_right]
          exact hlt.le.trans (hr.edges q c hch hc hqc)
        · rw [exchange_of_ne hqh hqp]
          exact hr.edges q c hch hc hqc
  across q c hqp hc hpc := by
    have hlt' := hqp.lt
    have hlt'' := hph.lt
    have hqp' := hr.edges q p (by omega) (by omega) hqp
    rw [exchange_of_ne (by omega) (by omega)]
    by_cases hch : c = h
    · rw [hch, exchange_left]
      exact hqp'
    · rw [exchange_of_ne hch (Nat.ne_of_gt hpc.lt)]
      exact hqp'.trans (hr.edges p c hch hc hpc)

theorem stop (hr : Rising n h f) (hle : ∀ p, Child p h → f p ≤ f h) : HeapFrom 0 n f := by
  intro p c _ hc hpc
  by_cases hch : c = h
  · subst hch
    exact hle p hpc
  · exact hr.edges p c hch hc hpc

end Rising

end Order

end CLanguageLearning.Foundation
