import CLanguageLearning.Foundation.LinkedChain
import Mathlib.Logic.Function.Basic

/-!
# Singly linked queues with a pointer to the last link

Nodes over arbitrary addresses, each with the address of the next one. The queue has the address of
its first node and knows where the last link is stored: in the next field of the last node, or in
the head field when there is no node. `Queued` is the shape of such a queue, with a rule for each
operation.
-/

set_option autoImplicit false

namespace CLanguageLearning.Foundation

/-- A place that holds an address: the head of the queue or the next field of a node. -/
inductive Slot (α : Type) where
  | head
  | next (a : α)
  deriving DecidableEq, Repr

variable {α : Type} {nx nx' : α → Option α} {head : Option α} {tail : Slot α} {l : List α} {x : α}

theorem Follows.congr {p : Option α} (h : Follows nx p l) (hn : ∀ y ∈ l, nx' y = nx y) :
    Follows nx' p l := by
  induction l generalizing p with
  | nil => exact h
  | cons y l ih =>
      refine ⟨h.1, ih ?_ fun z hz => hn z (List.mem_cons_of_mem _ hz)⟩
      rw [hn y (List.mem_cons_self ..)]
      exact h.2

/-- The next field of an address that is not met may change. -/
theorem Follows.update [DecidableEq α] {p : Option α} (h : Follows nx p l) (hx : x ∉ l)
    (v : Option α) : Follows (Function.update nx x v) p l := by
  apply h.congr
  intro y hy
  have hne : y ≠ x := by
    rintro rfl
    exact hx hy
  exact Function.update_of_ne hne ..

/-- The addresses behind one of those that are met. -/
theorem Follows.behind {p : Option α} {m : List α} (h : Follows nx p (l ++ x :: m)) :
    Follows nx (nx x) m := by
  induction l generalizing p with
  | nil => exact h.2
  | cons y l ih => exact ih h.2

/-- One more address behind the last one. -/
theorem Follows.concat [DecidableEq α] {p : Option α} {a : α} (h : Follows nx p (l ++ [a]))
    (hnodup : (l ++ [a]).Nodup) (hx : x ∉ l ++ [a]) (hnx : nx x = none) :
    Follows (Function.update nx a (some x)) p (l ++ [a] ++ [x]) := by
  induction l generalizing p with
  | nil =>
      have hne : x ≠ a := fun he => hx (by simp [he])
      exact ⟨h.1, Function.update_self .., (Function.update_of_ne hne ..).trans hnx⟩
  | cons y l ih =>
      rw [List.cons_append, List.nodup_cons] at hnodup
      have hya : y ≠ a := fun he => hnodup.1 (by simp [he])
      refine ⟨h.1, ?_⟩
      rw [Function.update_of_ne hya]
      exact ih h.2 hnodup.2 fun hmem => hx (List.mem_cons_of_mem _ hmem)

/-- The address behind `a` is passed over. -/
theorem Follows.bypass [DecidableEq α] {p : Option α} {A B : List α} {a : α}
    (h : Follows nx p (A ++ a :: x :: B)) (hnodup : (A ++ a :: x :: B).Nodup) :
    Follows (Function.update nx a (nx x)) p (A ++ a :: B) := by
  induction A generalizing p with
  | nil =>
      obtain ⟨hp, -, hrest⟩ := h
      have haB : a ∉ B := fun hmem =>
        (List.nodup_cons.mp hnodup).1 (List.mem_cons_of_mem x hmem)
      refine ⟨hp, ?_⟩
      rw [Function.update_self]
      exact hrest.update haB _
  | cons y A ih =>
      rw [List.cons_append, List.nodup_cons] at hnodup
      have hya : y ≠ a := fun he => hnodup.1 (by simp [he])
      refine ⟨h.1, ?_⟩
      rw [Function.update_of_ne hya]
      exact ih h.2 hnodup.2

/-- The next fields of the nodes in a memory, after one node has been written. -/
theorem bind_update [DecidableEq α] {ν : Type} (next : ν → Option α) (node : α → Option ν) (x : α)
    (n : Option ν) :
    (fun y => (Function.update node x n y).bind next) =
      Function.update (fun y => (node y).bind next) x (n.bind next) :=
  Function.comp_update (fun m : Option ν => m.bind next) node x n

/-- Where the last link of a queue with the nodes `l` is stored. -/
def lastSlot (l : List α) : Slot α := l.getLast?.elim .head .next

@[simp] theorem lastSlot_nil : lastSlot ([] : List α) = .head := rfl

@[simp] theorem lastSlot_concat (l : List α) (x : α) : lastSlot (l ++ [x]) = .next x := by
  simp [lastSlot]

theorem lastSlot_cons (x : α) (h : l ≠ []) : lastSlot (x :: l) = lastSlot l := by
  rw [lastSlot, lastSlot, List.getLast?_cons, List.getLast?_eq_some_getLast h]
  rfl

/-- The slot of a node is that of a node of the queue. -/
theorem mem_of_lastSlot {a : α} (h : lastSlot l = .next a) : a ∈ l := by
  rcases List.eq_nil_or_concat' l with rfl | ⟨l, b, rfl⟩
  · cases h
  · rw [lastSlot_concat] at h
    cases h
    simp

namespace Slot

/-- The link behind the node that a pointer points to; no pointer stands for the head. -/
def behind (p : Option α) : Slot α := p.elim .head .next

theorem behind_injective : Function.Injective (behind : Option α → Slot α) := by
  intro p q h
  cases p with
  | none =>
      cases q with
      | none => rfl
      | some y => cases h
  | some x =>
      cases q with
      | none => cases h
      | some y =>
          cases h
          rfl

/-- The head after `v` has been stored in a slot. -/
def setHead (s : Slot α) (v head : Option α) : Option α :=
  match s with
  | .head => v
  | .next _ => head

/-- The next fields after `v` has been stored in a slot. -/
def setNext [DecidableEq α] (s : Slot α) (v : Option α) (nx : α → Option α) : α → Option α :=
  match s with
  | .head => nx
  | .next a => Function.update nx a v

end Slot

/-- The queue with the nodes `l`, from the first to the last. -/
structure Queued (head : Option α) (nx : α → Option α) (tail : Slot α) (l : List α) : Prop where
  follows : Follows nx head l
  nodup : l.Nodup
  tail : tail = lastSlot l

namespace Queued

theorem nil (nx : α → Option α) : Queued none nx .head [] := ⟨rfl, List.nodup_nil, rfl⟩

theorem congr (h : Queued head nx tail l) (hn : ∀ y ∈ l, nx' y = nx y) : Queued head nx' tail l :=
  ⟨h.follows.congr hn, h.nodup, h.tail⟩

theorem update [DecidableEq α] (h : Queued head nx tail l) (hx : x ∉ l) (v : Option α) :
    Queued head (Function.update nx x v) tail l :=
  ⟨h.follows.update hx v, h.nodup, h.tail⟩

/-- A node whose next field is empty is added: it is stored in the last link, and its own next field
is the last link from then on. -/
theorem push [DecidableEq α] (h : Queued head nx tail l) (hx : x ∉ l) (hnx : nx x = none) :
    Queued (tail.setHead (some x) head) (tail.setNext (some x) nx) (.next x) (l ++ [x]) where
  follows := by
    rw [h.tail]
    rcases List.eq_nil_or_concat' l with rfl | ⟨l, a, rfl⟩
    · exact ⟨rfl, hnx⟩
    · rw [lastSlot_concat]
      exact h.follows.concat h.nodup hx hnx
  nodup := List.nodup_append.mpr ⟨h.nodup, List.nodup_singleton x, fun a ha b hb => by
    rw [List.mem_singleton.mp hb]
    rintro rfl
    exact hx ha⟩
  tail := (lastSlot_concat l x).symm

/-- The first node is taken off. The last link moves back to the head when the queue has become
empty. -/
theorem pop (h : Queued head nx tail (x :: l)) :
    Queued (nx x) nx (if nx x = none then .head else tail) l where
  follows := h.follows.2
  nodup := (List.nodup_cons.mp h.nodup).2
  tail := by
    have hrest := h.follows.2
    cases l with
    | nil => exact if_pos hrest
    | cons y l =>
        rw [if_neg (by rw [hrest.1]; simp), h.tail, lastSlot_cons _ (List.cons_ne_nil y l)]

/-- A node is taken out: what follows it is stored in the link before it, which is the last link from
then on if the node was the last one. -/
theorem unlink [DecidableEq α] {A B : List α} (h : Queued head nx tail (A ++ x :: B)) :
    Queued ((lastSlot A).setHead (nx x) head) ((lastSlot A).setNext (nx x) nx)
      (if tail = .next x then lastSlot A else tail) (A ++ B) where
  follows := by
    rcases List.eq_nil_or_concat' A with rfl | ⟨A, a, rfl⟩
    · exact h.follows.2
    · have hfollows := h.follows
      have hnodup := h.nodup
      rw [List.append_assoc] at hfollows hnodup ⊢
      rw [lastSlot_concat]
      exact hfollows.bypass hnodup
  nodup := h.nodup.sublist ((List.sublist_cons_self x B).append_left A)
  tail := by
    rw [h.tail]
    rcases List.eq_nil_or_concat' B with rfl | ⟨B, b, rfl⟩
    · rw [lastSlot_concat, if_pos rfl, List.append_nil]
    · have hnodup := h.nodup
      have hne : b ≠ x := by
        rintro rfl
        simp [List.nodup_append] at hnodup
      rw [← List.cons_append, ← List.append_assoc, ← List.append_assoc, lastSlot_concat,
        lastSlot_concat, if_neg (by simpa using hne)]

/-- The first node is the head. -/
theorem head_eq (h : Queued head nx tail (x :: l)) : head = some x := h.follows.1

theorem head_nil (h : Queued head nx tail []) : head = none := h.follows

end Queued

end CLanguageLearning.Foundation
