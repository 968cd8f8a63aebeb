import Mathlib.Data.List.Chain
import Mathlib.Data.List.Nodup

/-!
# Doubly linked chains

A chain over arbitrary addresses: two maps give the next and the previous address of each. The list
of addresses `l` is threaded by the maps when neighbours point at each other and nothing follows the
last; the previous address of the first is left open. Each surgery on a chain (push in front, insert
behind, remove behind, take the first off) is one rule with the pointers that have to be set and
those that have to stay.
-/

set_option autoImplicit false

namespace CLanguageLearning.Foundation

variable {α : Type} {nx pv nx' pv' : α → Option α}

/-- `b` comes next after `a`, and `a` before `b`. -/
def Linked (nx pv : α → Option α) (a b : α) : Prop := nx a = some b ∧ pv b = some a

/-- Following `nx` from `p` one meets the addresses `l`, in this order, and then the end. -/
def Follows (nx : α → Option α) : Option α → List α → Prop
  | p, [] => p = none
  | p, x :: l => p = some x ∧ Follows nx (nx x) l

/-- The addresses met from `p` are determined. -/
theorem Follows.unique {p : Option α} {l m : List α} (h : Follows nx p l) (h' : Follows nx p m) :
    l = m := by
  induction l generalizing p m with
  | nil =>
      cases m with
      | nil => rfl
      | cons y m =>
          cases h
          cases h'.1
  | cons x l ih =>
      cases m with
      | nil =>
          cases h'
          cases h.1
      | cons y m =>
          obtain ⟨rfl, hm⟩ := h'
          obtain ⟨hxy, hl⟩ := h
          cases hxy
          rw [ih hl hm]

theorem Follows.head {p : Option α} {l : List α} (h : Follows nx p l) : p = l.head? := by
  cases l with
  | nil => exact h
  | cons x l => exact h.1

/-- The addresses `l` form a chain. -/
structure Threaded (nx pv : α → Option α) (l : List α) : Prop where
  links : l.IsChain (Linked nx pv)
  last : ∀ x ∈ l.getLast?, nx x = none

namespace Threaded

variable {A B l : List α} {a x y : α}

theorem nil (nx pv : α → Option α) : Threaded nx pv [] :=
  ⟨List.isChain_nil, fun x hx => by cases hx⟩

theorem singleton (h : nx x = none) : Threaded nx pv [x] := by
  refine ⟨List.isChain_singleton x, ?_⟩
  intro y hy
  cases hy
  exact h

/-- A chain depends on the next pointers of its addresses and the previous pointers of all but the
first. -/
theorem congr (h : Threaded nx pv l) (hn : ∀ y ∈ l, nx' y = nx y)
    (hp : ∀ y ∈ l.tail, pv' y = pv y) : Threaded nx' pv' l where
  links := by
    apply h.links.imp_of_mem_tail_imp
    intro a b ha hb hab
    exact ⟨by rw [hn a ha, hab.1], by rw [hp b hb, hab.2]⟩
  last := by
    intro y hy
    rw [hn y (List.mem_of_getLast? hy), h.last y hy]

theorem tail (h : Threaded nx pv (x :: l)) : Threaded nx pv l where
  links := h.links.tail
  last := by
    intro y hy
    apply h.last y
    cases l with
    | nil => cases hy
    | cons z l => rw [List.getLast?_cons_cons]; exact hy

/-- The chain behind the first, when the previous pointer of its own first has been set. -/
theorem tail_reset [DecidableEq α] {q : Option α} (h : Threaded nx pv (x :: y :: l)) (hy : y ∉ l)
    (hn : ∀ z ∈ y :: l, nx' z = nx z) : Threaded nx' (Function.update pv y q) (y :: l) := by
  refine h.tail.congr hn ?_
  intro z hz
  refine Function.update_of_ne ?_ _ _
  rintro rfl
  exact hy hz

/-- The address after the first is the first of the rest. -/
theorem next_head (h : Threaded nx pv (x :: l)) : nx x = l.head? := by
  cases l with
  | nil => exact h.last x rfl
  | cons y l => exact (List.isChain_cons_cons.mp h.links).1.1

/-- A part of a chain that reaches to its end. -/
theorem suffix (h : Threaded nx pv (A ++ l)) : Threaded nx pv l := by
  induction A with
  | nil => exact h
  | cons b A ih => exact ih h.tail

theorem next_mid (h : Threaded nx pv (A ++ x :: B)) : nx x = B.head? :=
  h.suffix.next_head

/-- The address before one inside the chain. -/
theorem prev_mid (h : Threaded nx pv (A ++ a :: x :: B)) : pv x = some a :=
  (List.isChain_append_cons_cons.mp h.links).2.1.2

theorem follows (h : Threaded nx pv l) : Follows nx l.head? l := by
  induction l with
  | nil => rfl
  | cons x l ih =>
      refine ⟨rfl, ?_⟩
      rw [h.next_head]
      exact ih h.tail

/-- In a chain that starts with no previous address, the previous address of a member is the member
whose next address it is. -/
theorem prev_iff_next (h : Threaded nx pv l) (hfirst : ∀ z ∈ l.head?, pv z = none) (hy : y ∈ l) :
    pv y = some x ↔ x ∈ l ∧ nx x = some y := by
  constructor
  · intro hp
    obtain ⟨A, B, rfl⟩ := List.append_of_mem hy
    rcases List.eq_nil_or_concat A with rfl | ⟨A, z, rfl⟩
    · rw [hfirst y rfl] at hp
      cases hp
    · rw [List.concat_eq_append, List.append_assoc] at h
      have hz := h.prev_mid
      rw [hp, Option.some.injEq] at hz
      subst hz
      exact ⟨by simp, h.next_mid⟩
  · rintro ⟨hx, hn⟩
    obtain ⟨A, B, rfl⟩ := List.append_of_mem hx
    have hmid := h.next_mid
    rw [hn] at hmid
    cases B with
    | nil => cases hmid
    | cons z B =>
        cases hmid
        exact h.prev_mid

/-- A chain is put together from a part before an address and a chain that starts with it. -/
theorem join (hA : (A ++ [a]).IsChain (Linked nx pv)) (h : Threaded nx pv (a :: B)) :
    Threaded nx pv (A ++ a :: B) where
  links := List.isChain_split.mpr ⟨hA, h.links⟩
  last := by
    intro y hy
    apply h.last y
    rwa [List.getLast?_append_of_ne_nil _ (List.cons_ne_nil a B)] at hy

/-- The links before an address depend on neither its next pointer nor the previous pointer of the
first. -/
theorem links_congr (h : (A ++ [a]).IsChain (Linked nx pv)) (hn : ∀ y ∈ A, nx' y = nx y)
    (hp : ∀ y ∈ (A ++ [a]).tail, pv' y = pv y) : (A ++ [a]).IsChain (Linked nx' pv') := by
  rw [List.isChain_iff_forall_rel_of_append_cons_cons] at h ⊢
  intro b c l₁ l₂ he
  have hbc := h he
  have hc : c ∈ (A ++ [a]).tail := by
    rw [he]
    cases l₁ with
    | nil => exact List.mem_cons_self ..
    | cons d l₁ => exact List.mem_append_right _ (List.mem_cons_of_mem _ (List.mem_cons_self ..))
  have hb : b ∈ A := by
    have hdrop := congrArg List.dropLast he
    rw [List.dropLast_concat] at hdrop
    rw [hdrop, List.dropLast_append_cons]
    exact List.mem_append_right _ (List.mem_cons_self ..)
  exact ⟨by rw [hn b hb, hbc.1], by rw [hp c hc, hbc.2]⟩

/-- Addresses met one after another are a chain when each of them points back. -/
theorem of_follows {p : Option α} (h : Follows nx p l)
    (hback : ∀ a ∈ l, ∀ b ∈ l, nx a = some b → pv b = some a) : Threaded nx pv l := by
  induction l generalizing p with
  | nil => exact .nil nx pv
  | cons x l ih =>
      obtain ⟨-, hrest⟩ := h
      cases l with
      | nil => exact singleton hrest
      | cons y l =>
          have hxy : nx x = some y := hrest.1
          have hl := ih hrest fun a ha b hb =>
            hback a (List.mem_cons_of_mem x ha) b (List.mem_cons_of_mem x hb)
          have hback' := hback x List.mem_cons_self y (List.mem_cons_of_mem x List.mem_cons_self) hxy
          exact ⟨List.isChain_cons_cons.mpr ⟨⟨hxy, hback'⟩, hl.links⟩, fun z hz => hl.last z hz⟩

/-! ### Surgery -/

/-- Push `x` in front. -/
theorem push (h : Threaded nx pv l) (hx : nx' x = l.head?) (hfirst : ∀ y ∈ l.head?, pv' y = some x)
    (hn : ∀ y ∈ l, nx' y = nx y) (hp : ∀ y ∈ l.tail, pv' y = pv y) : Threaded nx' pv' (x :: l) := by
  cases l with
  | nil => exact singleton hx
  | cons y l =>
      have h' := h.congr hn hp
      refine ⟨List.isChain_cons_cons.mpr ⟨⟨hx, hfirst y rfl⟩, h'.links⟩, ?_⟩
      intro z hz
      rw [List.getLast?_cons_cons] at hz
      exact h'.last z hz

/-- Insert `x` behind `a`. -/
theorem insert (h : Threaded nx pv (A ++ a :: B)) (ha : nx' a = some x) (hxp : pv' x = some a)
    (hxn : nx' x = B.head?) (hB : ∀ y ∈ B.head?, pv' y = some x) (hnA : ∀ y ∈ A, nx' y = nx y)
    (hnB : ∀ y ∈ B, nx' y = nx y) (hpA : ∀ y ∈ (A ++ [a]).tail, pv' y = pv y)
    (hpB : ∀ y ∈ B.tail, pv' y = pv y) : Threaded nx' pv' (A ++ a :: x :: B) := by
  have hlinks := (List.isChain_split.mp h.links).1
  have hrest : Threaded nx' pv' (x :: B) := h.suffix.tail.push hxn hB hnB hpB
  refine join (links_congr hlinks hnA hpA) ⟨?_, ?_⟩
  · exact List.isChain_cons_cons.mpr ⟨⟨ha, hxp⟩, hrest.links⟩
  · intro y hy
    rw [List.getLast?_cons_cons] at hy
    exact hrest.last y hy

/-- Remove `x`, which comes behind `a`. -/
theorem remove (h : Threaded nx pv (A ++ a :: x :: B)) (ha : nx' a = B.head?)
    (hB : ∀ y ∈ B.head?, pv' y = some a) (hnA : ∀ y ∈ A, nx' y = nx y)
    (hnB : ∀ y ∈ B, nx' y = nx y) (hpA : ∀ y ∈ (A ++ [a]).tail, pv' y = pv y)
    (hpB : ∀ y ∈ B.tail, pv' y = pv y) : Threaded nx' pv' (A ++ a :: B) := by
  have hlinks := (List.isChain_split.mp h.links).1
  exact join (links_congr hlinks hnA hpA) (h.suffix.tail.tail.push ha hB hnB hpB)

/-- The next address is in the chain and has the way back. -/
theorem prev_of_next (h : Threaded nx pv l) (hy : y ∈ l) (hn : nx y = some x) :
    x ∈ l ∧ pv x = some y := by
  obtain ⟨A, B, rfl⟩ := List.append_of_mem hy
  have hmid := h.next_mid
  rw [hn] at hmid
  cases B with
  | nil => cases hmid
  | cons z B =>
      cases hmid
      exact ⟨by simp, h.prev_mid⟩

/-- Each address but the first has a previous one. -/
theorem exists_prev (h : Threaded nx pv (a :: l)) (hy : y ∈ l) :
    ∃ z ∈ a :: l, pv y = some z ∧ nx z = some y := by
  obtain ⟨A, B, rfl⟩ := List.append_of_mem hy
  rcases List.eq_nil_or_concat' (a :: A) with hnil | ⟨C, z, hC⟩
  · cases hnil
  · have hsplit : a :: (A ++ y :: B) = C ++ z :: y :: B := by
      rw [← List.cons_append, hC, List.append_assoc]
      rfl
    rw [hsplit] at h ⊢
    exact ⟨z, by simp, h.prev_mid, h.next_mid⟩

theorem next_of_prev (h : Threaded nx pv l) (hy : y ∈ l.tail) (hp : pv y = some x) :
    x ∈ l ∧ nx x = some y := by
  cases l with
  | nil => cases hy
  | cons a l =>
      obtain ⟨z, hz, hpz, hnz⟩ := h.exists_prev hy
      rw [hp, Option.some.injEq] at hpz
      exact hpz ▸ ⟨hz, hnz⟩

/-- Take the first out: nothing behind it points at it, but for the previous pointer of the second,
which is left open. -/
theorem bypass_head [DecidableEq α] (h : Threaded nx pv (x :: B)) (hx : x ∉ B)
    (hn : ∀ y ∈ B, nx' y = if nx y = some x then nx x else nx y)
    (hp : ∀ y ∈ B, pv' y = if pv y = some x then pv x else pv y) : Threaded nx' pv' B := by
  have hB : Threaded nx pv B := h.tail
  refine hB.congr ?_ ?_
  · intro y hy
    rw [hn y hy, if_neg]
    intro hyx
    exact hx (hB.prev_of_next hy hyx).1
  · intro y hy
    rw [hp y (List.mem_of_mem_tail hy), if_neg]
    intro hyx
    exact hx (hB.next_of_prev hy hyx).1

/-- Take out an address behind another one. -/
theorem bypass_inner [DecidableEq α] (h : Threaded nx pv (A ++ a :: x :: B))
    (hnodup : (A ++ a :: x :: B).Nodup)
    (hn : ∀ y ∈ A ++ a :: B, nx' y = if nx y = some x then nx x else nx y)
    (hp : ∀ y ∈ A ++ a :: B, pv' y = if pv y = some x then pv x else pv y) :
    Threaded nx' pv' (A ++ a :: B) := by
  have hsplit : A ++ a :: x :: B = (A ++ [a]) ++ x :: B := by simp
  obtain ⟨-, hnodup', hdisj⟩ := List.nodup_append.mp hnodup
  obtain ⟨haB, hnodupB⟩ := List.nodup_cons.mp hnodup'
  have haA : a ∉ A := fun hmem => hdisj a hmem a (List.mem_cons_self ..) rfl
  have hmid : Threaded nx pv ((A ++ [a]) ++ x :: B) := hsplit ▸ h
  have hnx : nx x = B.head? := hmid.next_mid
  have hna : nx a = some x := h.next_mid
  have hpx : pv x = some a := h.prev_mid
  -- only `a` points forward at `x`, and only the first of `B` back at it
  have honly : ∀ y ∈ A ++ a :: x :: B, y ≠ a → nx y ≠ some x := by
    intro y hy hya hyx
    have hprev := (h.prev_of_next hy hyx).2
    rw [hpx, Option.some.injEq] at hprev
    exact hya hprev.symm
  have honly' : ∀ y ∈ (A ++ a :: x :: B).tail, pv y = some x → y ∈ B.head? := by
    intro y hy hyx
    exact hnx ▸ (h.next_of_prev hy hyx).2
  have htail : (A ++ a :: x :: B).tail = (A ++ [a]).tail ++ x :: B := by
    rw [hsplit, List.tail_append_of_ne_nil (by simp)]
  apply h.remove
  case ha => rw [hn a (by simp), if_pos hna, hnx]
  case hB =>
    intro y hy
    -- the first of `B` pointed back at `x` and now at `a`
    cases B with
    | nil => cases hy
    | cons b B =>
        cases hy
        have hpy : pv y = some x := hmid.prev_mid
        rw [hp y (by simp), if_pos hpy, hpx]
  case hnA =>
    intro y hy
    rw [hn y (by simp [hy]), if_neg (honly y (by simp [hy]) fun hya => haA (hya ▸ hy))]
  case hnB =>
    intro y hy
    rw [hn y (by simp [hy]), if_neg]
    exact honly y (by simp [hy]) fun hya => haB (hya ▸ List.mem_cons_of_mem _ hy)
  case hpA =>
    intro y hy
    have hyA : y ∈ A ++ [a] := List.mem_of_mem_tail hy
    have hyL : y ∈ A ++ a :: B := by
      rw [← List.singleton_append, ← List.append_assoc]
      exact List.mem_append_left _ hyA
    rw [hp y hyL, if_neg]
    intro hyx
    have hyB : y ∈ B := List.mem_of_head? (honly' y (by rw [htail]; simp [hy]) hyx)
    rw [hsplit] at hnodup
    exact (List.nodup_append.mp hnodup).2.2 y hyA y (List.mem_cons_of_mem _ hyB) rfl
  case hpB =>
    intro y hy
    have hyB : y ∈ B := List.mem_of_mem_tail hy
    rw [hp y (by simp [hyB]), if_neg]
    intro hyx
    have hhead : y ∈ B.head? := honly' y (by rw [htail]; simp [hyB]) hyx
    cases B with
    | nil => cases hy
    | cons b B =>
        cases hhead
        exact (List.nodup_cons.mp (List.nodup_cons.mp hnodupB).2).1 hy

/-- Take `x` out: what pointed at it points past it, on both sides. -/
theorem bypass [DecidableEq α] (h : Threaded nx pv (A ++ x :: B)) (hnodup : (A ++ x :: B).Nodup)
    (hn : ∀ y ∈ A ++ B, nx' y = if nx y = some x then nx x else nx y)
    (hp : ∀ y ∈ A ++ B, pv' y = if pv y = some x then pv x else pv y) :
    Threaded nx' pv' (A ++ B) := by
  rcases List.eq_nil_or_concat' A with rfl | ⟨A, a, rfl⟩
  · exact h.bypass_head (List.nodup_cons.mp hnodup).1 hn hp
  · rw [List.append_assoc, List.singleton_append] at h hnodup hn hp ⊢
    exact h.bypass_inner hnodup hn hp

end Threaded

end CLanguageLearning.Foundation
