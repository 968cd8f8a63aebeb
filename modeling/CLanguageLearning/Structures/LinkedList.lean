import CLanguageLearning.Foundation.Exec
import CLanguageLearning.Foundation.TailPointer
import Mathlib.Data.UInt

/-!
# The singly linked list

`add_node`, `remove_node` and `iterate_list` of `linkedlist.c` on nodes at arbitrary addresses.
`malloc` answers with an address or with nothing, which is part of the call. A removed node is not
freed, so `malloc` does not answer twice with one address.

`Represents` says what the list stands for; every operation has a rule for it, and `linked_list_run`
follows a sequence of calls. The counter `len` is an `unsigned int`, which begins again at zero after
`2 ^ 32` nodes.
-/

set_option autoImplicit false

namespace CLanguageLearning.Structures

open CLanguageLearning.Foundation

/-- `ListNode`, with `α` for addresses. -/
structure ListNode (α : Type) where
  next : Option α
  value : Int32
  deriving DecidableEq

/-- `List`, and the nodes that have been allocated. -/
structure LinkedList (α : Type) where
  node : α → Option (ListNode α)
  head : Option α
  tail : Option α
  len : UInt32

/-- A call. `add_node` comes with what `malloc` answers. -/
inductive ListOp (α : Type) where
  | add_node (value : Int32) (malloc : Option α)
  | remove_node (value : Int32)
  deriving DecidableEq

namespace ListOp

variable {α : Type}

/-- The address that `malloc` answers with in a call. -/
def allocated : ListOp α → Option α
  | add_node _ malloc => malloc
  | remove_node _ => none

/-- `malloc` has answered with an address. -/
def Served : ListOp α → Prop
  | add_node _ malloc => malloc ≠ none
  | remove_node _ => True

/-- What the call does to a sequence of values: append, or erase the first occurrence. -/
def reference (vs : List Int32) : ListOp α → List Int32
  | add_node value _ => vs ++ [value]
  | remove_node value => vs.erase value

end ListOp

namespace LinkedList

variable {α : Type}

/-- The empty list. -/
def create : LinkedList α := ⟨fun _ => none, none, none, 0⟩

/-- Read the node a pointer points to. -/
def loadNode (p : Option α) : Exec (LinkedList α) (ListNode α) := do
  let s ← get
  match p.bind s.node with
  | none => throw .undefined
  | some n => return n

section Operations

variable [DecidableEq α]

/-- `p->next = v`. -/
def storeNext (p : Option α) (v : Option α) : Exec (LinkedList α) Unit := do
  match p with
  | none => throw .undefined
  | some x =>
      let n ← loadNode p
      modify fun s => { s with node := Function.update s.node x (some { n with next := v }) }

def add_node (value : Int32) (malloc : Option α) : Exec (LinkedList α) Unit := do
  match malloc with
  -- the answer is not tested before `node->next = NULL`
  | none => throw .undefined
  | some x =>
      modify fun s => { s with node := Function.update s.node x (some ⟨none, value⟩) }
  let s ← get
  if s.tail = none then
    modify fun s => { s with tail := malloc, head := malloc }
  else
    storeNext s.tail malloc
    modify fun s => { s with tail := malloc }
  modify fun s => { s with len := s.len + 1 }

/-- The loop of `remove_node`. -/
def removeLoop (value : Int32) : Nat → Option α → Option α → Exec (LinkedList α) Unit
  | 0, _, _ => throw .diverged
  | _ + 1, none, _ => return
  | fuel + 1, some cursor, prev => do
      let n ← loadNode (some cursor)
      if n.value = value then
        if prev ≠ none then storeNext prev n.next
        else modify fun s => { s with head := n.next }
        let s ← get
        if s.tail = some cursor then modify fun s => { s with tail := prev }
        modify fun s => { s with len := s.len - 1 }
      else removeLoop value fuel n.next (some cursor)

/-- `remove_node`, for a `list` that is not a null pointer. -/
def remove_node (value : Int32) (fuel : Nat) : Exec (LinkedList α) Unit := do
  let s ← get
  removeLoop value fuel s.head none

/-- The loop of `iterate_list`, with the values that it prints. -/
def iterateLoop : Nat → Option α → Exec (LinkedList α) (List Int32)
  | 0, _ => throw .diverged
  | _ + 1, none => return []
  | fuel + 1, some cursor => do
      let n ← loadNode (some cursor)
      let printed ← iterateLoop fuel n.next
      return n.value :: printed

def iterate_list (fuel : Nat) : Exec (LinkedList α) (List Int32) := do
  let s ← get
  iterateLoop fuel s.head

/-- One call. -/
def call (fuel : Nat) : ListOp α → Exec (LinkedList α) Unit
  | .add_node value malloc => add_node value malloc
  | .remove_node value => remove_node value fuel

/-- One call after another. -/
def calls (fuel : Nat) : List (ListOp α) → Exec (LinkedList α) Unit
  | [] => return
  | op :: ops => do
      call fuel op
      calls fuel ops

end Operations

/-- The next field of the node at an address. -/
def next (s : LinkedList α) (x : α) : Option α := (s.node x).bind ListNode.next

/-- The list has the nodes `l`, each an address and a value, in this order. -/
structure Represents (s : LinkedList α) (l : List (α × Int32)) : Prop where
  queued : Queued s.head s.next (.behind s.tail) (l.map Prod.fst)
  node : ∀ p ∈ l, ∃ n, s.node p.1 = some n ∧ n.value = p.2
  len : s.len = UInt32.ofNat l.length

section Runs

variable {s : LinkedList α} {l A B : List (α × Int32)} {x : α} {n : ListNode α} {value : Int32}

theorem loadNode_run (h : s.node x = some n) : (loadNode (some x)).run s = .ok (n, s) := by
  simp [loadNode, h]

theorem next_eq (h : s.node x = some n) : s.next x = n.next := by
  simp [next, h]

theorem represents_create : Represents (create : LinkedList α) [] :=
  ⟨.nil _, by simp, rfl⟩

/-- `tail` points to the last node. -/
theorem Represents.tail (h : Represents s l) : s.tail = (l.map Prod.fst).getLast? :=
  Slot.behind_injective h.queued.tail

/-- An address without a node is not in the list. -/
theorem Represents.notMem (h : Represents s l) (hx : s.node x = none) : x ∉ l.map Prod.fst := by
  intro hmem
  obtain ⟨p, hp, rfl⟩ := List.mem_map.mp hmem
  obtain ⟨n, hn, -⟩ := h.node p hp
  rw [hx] at hn
  cases hn

/-- The next node is the first of the rest. -/
theorem Represents.next_mid {w : Int32} (h : Represents s (A ++ (x, w) :: B)) :
    s.next x = (B.map Prod.fst).head? := by
  have hf := h.queued.follows
  rw [List.map_append, List.map_cons] at hf
  exact hf.behind.head

/-- The last node has nothing behind it. -/
theorem Represents.next_last (h : Represents s l) (hx : s.tail = some x) : s.next x = none := by
  rw [h.tail] at hx
  obtain ⟨m, hm⟩ := List.getLast?_eq_some_iff.mp hx
  have hf := h.queued.follows
  rw [hm] at hf
  exact hf.behind

/-- The values are read one after another. -/
theorem iterateLoop_run {p : Option α} {fuel : Nat} (hfollows : Follows s.next p (l.map Prod.fst))
    (hnode : ∀ q ∈ l, ∃ n, s.node q.1 = some n ∧ n.value = q.2) (hfuel : l.length < fuel) :
    (iterateLoop fuel p).run s = .ok (l.map Prod.snd, s) := by
  induction l generalizing p fuel with
  | nil =>
      obtain ⟨fuel, rfl⟩ := Nat.exists_eq_add_one.mpr hfuel
      cases hfollows
      rfl
  | cons q l ih =>
      obtain ⟨x, w⟩ := q
      obtain ⟨fuel, rfl⟩ := Nat.exists_eq_add_one.mpr (Nat.zero_lt_of_lt hfuel)
      obtain ⟨rfl, hrest⟩ := hfollows
      obtain ⟨n, hn, rfl⟩ := hnode (x, w) List.mem_cons_self
      rw [next_eq hn] at hrest
      have htail := ih hrest (fun q hq => hnode q (List.mem_cons_of_mem _ hq))
        (Nat.lt_of_succ_lt_succ hfuel)
      rw [iterateLoop, run_bind_of_ok (loadNode_run hn), run_bind_of_ok htail]
      rfl

theorem iterate_list_returns (h : Represents s l) :
    Returns iterate_list s (l.map Prod.snd, s) :=
  ⟨l.length + 1, fun _ hle => iterateLoop_run h.queued.follows h.node hle⟩

theorem Represents.len_unlink {w : Int32} (h : Represents s (A ++ (x, w) :: B)) :
    s.len - 1 = UInt32.ofNat (A ++ B).length := by
  rw [h.len, List.length_append, List.length_append, List.length_cons, ← Nat.add_assoc,
    UInt32.ofNat_add]
  exact add_sub_cancel_right ..

/-- Erasing the first node with the value erases the first occurrence of the value. -/
theorem map_eraseP (l : List (α × Int32)) (value : Int32) :
    (l.eraseP fun p => p.2 == value).map Prod.snd = (l.map Prod.snd).erase value := by
  rw [List.erase_eq_eraseP', List.eraseP_map]
  rfl

variable [DecidableEq α]

theorem storeNext_run (h : s.node x = some n) (v : Option α) :
    (storeNext (some x) v).run s =
      .ok ((), { s with node := Function.update s.node x (some { n with next := v }) }) := by
  simp only [storeNext]
  rw [run_bind_of_ok (loadNode_run h)]
  rfl

/-- The next fields after a node has been written. -/
theorem next_update (s : LinkedList α) (x : α) (n : ListNode α) :
    next { s with node := Function.update s.node x (some n) } =
      Function.update s.next x n.next :=
  bind_update ListNode.next s.node x (some n)

/-- What a pointer is set to leaves the values as they are. -/
theorem node_update_next {l : List (α × Int32)} {a : α}
    (h : ∀ p ∈ l, ∃ n, s.node p.1 = some n ∧ n.value = p.2) (ha : s.node a = some n)
    (v : Option α) : ∀ p ∈ l, ∃ m,
      Function.update s.node a (some { n with next := v }) p.1 = some m ∧ m.value = p.2 := by
  intro p hp
  obtain ⟨m, hm, hvalue⟩ := h p hp
  rcases eq_or_ne p.1 a with he | hne
  · rw [he, ha] at hm
    cases hm
    exact ⟨{ n with next := v }, by rw [he, Function.update_self], hvalue⟩
  · exact ⟨m, (Function.update_of_ne hne ..).trans hm, hvalue⟩

/-- The list and the new node before `add_node` stores its address. -/
def withNode (s : LinkedList α) (x : α) (value : Int32) : LinkedList α :=
  { s with node := Function.update s.node x (some ⟨none, value⟩) }

theorem add_node_run_first (htail : s.tail = none) :
    (add_node value (some x)).run s =
      .ok ((), { s.withNode x value with head := some x, tail := some x, len := s.len + 1 }) := by
  simp only [add_node]
  simp [htail]
  rfl

theorem add_node_run_last {a : α} (htail : s.tail = some a)
    (hn : (s.withNode x value).node a = some n) :
    (add_node value (some x)).run s =
      .ok ((), { s with
        node := Function.update (s.withNode x value).node a (some { n with next := some x })
        tail := some x
        len := s.len + 1 }) := by
  have hstore := storeNext_run hn (some x)
  simp only [withNode, htail] at hstore
  simp only [add_node]
  simp [htail, hstore]
  rfl

/-- `add_node` appends, when `malloc` answers with an address that is not in use. -/
theorem add_node_run (h : Represents s l) (hx : s.node x = none) (value : Int32) :
    ∃ s', (add_node value (some x)).run s = .ok ((), s') ∧ Represents s' (l ++ [(x, value)]) ∧
      ∀ y, y ≠ x → s.node y = none → s'.node y = none := by
  have hnotMem := h.notMem hx
  have hself : (s.withNode x value).node x = some ⟨none, value⟩ := Function.update_self ..
  have hother : ∀ y, y ≠ x → (s.withNode x value).node y = s.node y :=
    fun y hy => Function.update_of_ne hy ..
  have halloc : Queued s.head (s.withNode x value).next (.behind s.tail) (l.map Prod.fst) := by
    rw [withNode, next_update]
    exact h.queued.update hnotMem none
  have hpush := halloc.push hnotMem (next_eq hself)
  have hnode : ∀ p ∈ l ++ [(x, value)], ∃ m, (s.withNode x value).node p.1 = some m ∧
      m.value = p.2 := by
    intro p hp
    rcases List.mem_append.mp hp with hp | hp
    · obtain ⟨m, hm, hvalue⟩ := h.node p hp
      have hne : p.1 ≠ x := fun he => hnotMem (he ▸ List.mem_map_of_mem hp)
      exact ⟨m, (hother p.1 hne).trans hm, hvalue⟩
    · rw [List.mem_singleton.mp hp]
      exact ⟨⟨none, value⟩, hself, rfl⟩
  have hlen : s.len + 1 = UInt32.ofNat (l ++ [(x, value)]).length := by
    rw [h.len, List.length_append, List.length_singleton, UInt32.ofNat_add]
    rfl
  have hmap : (l ++ [(x, value)]).map Prod.fst = l.map Prod.fst ++ [x] := by simp
  rcases List.eq_nil_or_concat' l with rfl | ⟨l, ⟨a, w⟩, rfl⟩
  · have htail : s.tail = none := h.tail
    rw [htail] at hpush
    refine ⟨_, add_node_run_first htail, ⟨hmap ▸ hpush, hnode, hlen⟩, ?_⟩
    exact fun y hy hnone => (hother y hy).trans hnone
  · have htail : s.tail = some a := by
      rw [h.tail]
      simp
    obtain ⟨n, hn, -⟩ := hnode (a, w) (by simp)
    have hnext := next_update (s.withNode x value) a { n with next := some x }
    rw [htail] at hpush
    refine ⟨_, add_node_run_last htail hn, ⟨?_, node_update_next hnode hn (some x), hlen⟩, ?_⟩
    · rw [hmap]
      exact hnext ▸ hpush
    -- the last node was allocated before
    · intro y hy hnone
      have hne : y ≠ a := by
        rintro rfl
        rw [hother y hy, hnone] at hn
        cases hn
      exact (Function.update_of_ne hne ..).trans ((hother y hy).trans hnone)

/-- A node is taken out when the link before it points past it, and `tail` is moved back if it was
the last one. -/
theorem Represents.unlink {w : Int32} {node : α → Option (ListNode α)} {head : Option α}
    (h : Represents s (A ++ (x, w) :: B))
    (hhead : head = (lastSlot (A.map Prod.fst)).setHead (s.next x) s.head)
    (hnext : (fun y => (node y).bind ListNode.next) =
      (lastSlot (A.map Prod.fst)).setNext (s.next x) s.next)
    (hnode : ∀ p ∈ A ++ (x, w) :: B, ∃ n, node p.1 = some n ∧ n.value = p.2) :
    Represents ⟨node, head, if s.tail = some x then (A.map Prod.fst).getLast? else s.tail,
      s.len - 1⟩ (A ++ B) where
  queued := by
    have hqueued := h.queued
    rw [List.map_append, List.map_cons] at hqueued
    have hiff : Slot.behind s.tail = .next x ↔ s.tail = some x :=
      Slot.behind_injective.eq_iff (b := some x)
    have hunlink := hqueued.unlink
    simp only [hiff] at hunlink
    rw [List.map_append]
    subst hhead
    show Queued _ (fun y => (node y).bind ListNode.next) _ _
    rw [hnext, apply_ite Slot.behind]
    exact hunlink
  node := by
    intro p hp
    apply hnode p
    rcases List.mem_append.mp hp with hp | hp
    · exact List.mem_append_left _ hp
    · exact List.mem_append_right A (List.mem_cons_of_mem _ hp)
  len := h.len_unlink

/-- The turn of the loop that finds the value in the first node. -/
theorem removeLoop_run_first (h : Represents s ((x, value) :: B)) :
    ∃ s', (∀ fuel, (removeLoop value (fuel + 1) (some x) none).run s = .ok ((), s')) ∧
      Represents s' B ∧ ∀ y, s.node y = none → s'.node y = none := by
  obtain ⟨n, hn, hvalue⟩ := h.node (x, value) List.mem_cons_self
  have hload := loadNode_run hn
  refine ⟨_, fun fuel => ?_, h.unlink (A := []) (next_eq hn).symm rfl h.node, fun y hy => hy⟩
  rw [removeLoop, run_bind_of_ok hload]
  by_cases htail : s.tail = some x
  · simp [hvalue, htail]
  · simp [hvalue, htail]

/-- The turn of the loop that finds the value behind another node. -/
theorem removeLoop_run_inner {a : α} {w : Int32}
    (h : Represents s ((A ++ [(a, w)]) ++ (x, value) :: B)) :
    ∃ s', (∀ fuel, (removeLoop value (fuel + 1) (some x) (some a)).run s = .ok ((), s')) ∧
      Represents s' ((A ++ [(a, w)]) ++ B) ∧ ∀ y, s.node y = none → s'.node y = none := by
  obtain ⟨n, hn, hvalue⟩ := h.node (x, value) (by simp)
  obtain ⟨m, hm, -⟩ := h.node (a, w) (by simp)
  have hload := loadNode_run hn
  have hstore := storeNext_run hm n.next
  have hupdate := next_update s a { m with next := n.next }
  have hslot : lastSlot ((A ++ [(a, w)]).map Prod.fst) = .next a := by
    rw [List.map_append]
    exact lastSlot_concat ..
  have hhead : s.head = (lastSlot ((A ++ [(a, w)]).map Prod.fst)).setHead (s.next x) s.head := by
    rw [hslot]
    rfl
  have hnext : (next { s with node := Function.update s.node a (some { m with next := n.next }) }) =
      (lastSlot ((A ++ [(a, w)]).map Prod.fst)).setNext (s.next x) s.next := by
    rw [hslot, next_eq hn]
    exact hupdate
  refine ⟨_, fun fuel => ?_, h.unlink hhead hnext (node_update_next h.node hm n.next), ?_⟩
  · rw [removeLoop, run_bind_of_ok hload]
    by_cases htail : s.tail = some x
    · simp [hvalue, hstore, htail]
    · simp [hvalue, hstore, htail]
  · intro y hy
    have hne : y ≠ a := by
      rintro rfl
      rw [hy] at hm
      cases hm
    exact (Function.update_of_ne hne ..).trans hy

/-- The loop takes out the first node with the value, if there is one. -/
theorem removeLoop_run (h : Represents s (A ++ B)) (hA : ∀ p ∈ A, p.2 ≠ value) :
    ∃ s', (∀ fuel, B.length < fuel →
        (removeLoop value fuel (B.map Prod.fst).head? (A.map Prod.fst).getLast?).run s =
          .ok ((), s')) ∧
      Represents s' (A ++ B.eraseP fun p => p.2 == value) ∧
      ∀ y, s.node y = none → s'.node y = none := by
  induction B generalizing A with
  | nil =>
      refine ⟨s, fun fuel hfuel => ?_, h, fun y hy => hy⟩
      obtain ⟨fuel, rfl⟩ := Nat.exists_eq_add_one.mpr hfuel
      rfl
  | cons q B ih =>
      obtain ⟨x, u⟩ := q
      rcases eq_or_ne u value with rfl | hne
      · have herase : ((x, u) :: B).eraseP (fun p => p.2 == u) = B :=
          List.eraseP_cons_of_pos (by simp)
        rw [herase]
        rcases List.eq_nil_or_concat' A with rfl | ⟨A, ⟨a, w⟩, rfl⟩
        · obtain ⟨s', hrun, hs', hframe⟩ := removeLoop_run_first h
          refine ⟨s', fun fuel hfuel => ?_, hs', hframe⟩
          obtain ⟨fuel, rfl⟩ := Nat.exists_eq_add_one.mpr (Nat.zero_lt_of_lt hfuel)
          exact hrun fuel
        · obtain ⟨s', hrun, hs', hframe⟩ := removeLoop_run_inner h
          refine ⟨s', fun fuel hfuel => ?_, hs', hframe⟩
          obtain ⟨fuel, rfl⟩ := Nat.exists_eq_add_one.mpr (Nat.zero_lt_of_lt hfuel)
          rw [List.map_append, List.map_singleton, List.getLast?_concat]
          exact hrun fuel
      · have herase : ((x, u) :: B).eraseP (fun p => p.2 == value) =
            (x, u) :: B.eraseP fun p => p.2 == value :=
          List.eraseP_cons_of_neg (by simpa using hne)
        have hsplit : ∀ C : List (α × Int32), A ++ (x, u) :: C = (A ++ [(x, u)]) ++ C := by simp
        have hA' : ∀ p ∈ A ++ [(x, u)], p.2 ≠ value := by
          intro p hp
          rcases List.mem_append.mp hp with hp | hp
          · exact hA p hp
          · rw [List.mem_singleton.mp hp]
            exact hne
        obtain ⟨n, hn, hvalue⟩ := h.node (x, u) (by simp)
        have hnext : n.next = (B.map Prod.fst).head? := (next_eq hn).symm.trans h.next_mid
        obtain ⟨s', hrun, hs', hframe⟩ := ih (hsplit B ▸ h) hA'
        refine ⟨s', fun fuel hfuel => ?_, herase ▸ hsplit _ ▸ hs', hframe⟩
        obtain ⟨fuel, rfl⟩ := Nat.exists_eq_add_one.mpr (Nat.zero_lt_of_lt hfuel)
        -- the node becomes the one before the cursor
        have hrest := hrun fuel (Nat.lt_of_succ_lt_succ hfuel)
        rw [List.map_append, List.map_singleton, List.getLast?_concat] at hrest
        rw [List.map_cons, List.head?_cons, removeLoop, run_bind_of_ok (loadNode_run hn),
          if_neg (hvalue ▸ hne), hnext]
        exact hrest

/-- `remove_node` erases the first node with the value. -/
theorem remove_node_returns (h : Represents s l) (value : Int32) :
    ∃ s', Returns (remove_node value) s ((), s') ∧
      Represents s' (l.eraseP fun p => p.2 == value) ∧ ∀ y, s.node y = none → s'.node y = none := by
  obtain ⟨s', hrun, hs', hframe⟩ := removeLoop_run (A := []) (B := l) h (by simp)
  refine ⟨s', ⟨l.length + 1, fun fuel hle => ?_⟩, hs', hframe⟩
  have hhead : s.head = (l.map Prod.fst).head? := h.queued.follows.head
  have hfuel := hrun fuel hle
  rw [← hhead] at hfuel
  exact hfuel

/-- One call on a list that stands for `l`. A call of `add_node` is given an address that is not in
use. -/
theorem call_returns {op : ListOp α} (h : Represents s l) (hserved : op.Served)
    (hnew : ∀ x ∈ op.allocated, s.node x = none) :
    ∃ s' l', Returns (fun fuel => call fuel op) s ((), s') ∧ Represents s' l' ∧
      l'.map Prod.snd = op.reference (l.map Prod.snd) ∧
      ∀ y, y ∉ op.allocated → s.node y = none → s'.node y = none := by
  cases op with
  | add_node value malloc =>
      cases malloc with
      | none => exact absurd rfl hserved
      | some x =>
          obtain ⟨s', hrun, hs', hframe⟩ := add_node_run h (hnew x rfl) value
          refine ⟨s', _, .of_run hrun, hs', by simp [ListOp.reference], fun y hy => hframe y ?_⟩
          rintro rfl
          exact hy rfl
  | remove_node value =>
      obtain ⟨s', hrun, hs', hframe⟩ := remove_node_returns h value
      exact ⟨s', _, hrun, hs', map_eraseP l value, fun y _ => hframe y⟩

/-- A sequence of calls, as long as `malloc` answers. -/
theorem calls_returns {ops : List (ListOp α)} (h : Represents s l)
    (hserved : ∀ op ∈ ops, op.Served) (hnodup : (ops.filterMap ListOp.allocated).Nodup)
    (hnew : ∀ x ∈ ops.filterMap ListOp.allocated, s.node x = none) :
    ∃ s' l', Returns (fun fuel => calls fuel ops) s ((), s') ∧ Represents s' l' ∧
      l'.map Prod.snd = ops.foldl ListOp.reference (l.map Prod.snd) := by
  induction ops generalizing s l with
  | nil => exact ⟨s, l, .of_run rfl, h, rfl⟩
  | cons op ops ih =>
      obtain ⟨hop, hops⟩ := List.forall_mem_cons.mp hserved
      have hfirst : ∀ x ∈ op.allocated, s.node x = none := by
        intro x hx
        exact hnew x (List.mem_filterMap.mpr ⟨op, List.mem_cons_self, hx⟩)
      obtain ⟨t, l₁, hcall, ht, hl₁, hframe⟩ := call_returns h hop hfirst
      have hrest : ∀ x ∈ ops.filterMap ListOp.allocated, t.node x = none := by
        intro x hx
        obtain ⟨op', hop', hx'⟩ := List.mem_filterMap.mp hx
        apply hframe x
        -- no address comes twice
        · intro hxop
          rw [List.filterMap_cons_some hxop] at hnodup
          exact (List.nodup_cons.mp hnodup).1 hx
        · exact hnew x (List.mem_filterMap.mpr ⟨op', List.mem_cons_of_mem op hop', hx'⟩)
      have hnodup' : (ops.filterMap ListOp.allocated).Nodup :=
        hnodup.sublist ((List.sublist_cons_self op ops).filterMap _)
      obtain ⟨s', l', hcalls, hs', hl'⟩ := ih ht hops hnodup' hrest
      refine ⟨s', l', hcall.bind hcalls, hs', ?_⟩
      rw [hl', hl₁, List.foldl_cons]

/-- Where `malloc` has answered with nothing, the calls do not return. -/
theorem served_of_run {ops : List (ListOp α)} {fuel : Nat} {s' : LinkedList α}
    (h : (calls fuel ops).run s = .ok ((), s')) : ∀ op ∈ ops, op.Served := by
  induction ops generalizing s with
  | nil => simp
  | cons op ops ih =>
      obtain ⟨⟨⟩, t, hcall, hcalls⟩ := run_bind_eq_ok h
      refine List.forall_mem_cons.mpr ⟨?_, ih hcalls⟩
      cases op with
      | remove_node value => trivial
      | add_node value malloc =>
          rintro rfl
          cases hcall

/-- For every sequence of calls that begins with the empty list: the calls return exactly when each
`malloc` answers. Then the values along `head` are those of the reference sequence, `tail` is the
last node of the chain, both pointers are empty or neither is, and `len` is the length modulo
`2 ^ 32`. -/
theorem linked_list_run {ops : List (ListOp α)} (hnodup : (ops.filterMap ListOp.allocated).Nodup) :
    ((∃ s, Returns (fun fuel => calls fuel ops) create ((), s)) ↔ ∀ op ∈ ops, op.Served) ∧
    ∀ s, Returns (fun fuel => calls fuel ops) create ((), s) →
      Returns iterate_list s (ops.foldl ListOp.reference [], s) ∧
      s.len.toNat = (ops.foldl ListOp.reference []).length % 2 ^ 32 ∧
      (s.head = none ↔ s.tail = none) ∧
      ∃ l, Follows s.next s.head l ∧ l.Nodup ∧
        l.map (fun x => (s.node x).map ListNode.value) = (ops.foldl ListOp.reference []).map some ∧
        s.tail = l.getLast? ∧ ∀ x, s.tail = some x → s.next x = none := by
  have hserved : ∀ s, Returns (fun fuel => calls fuel ops) create ((), s) →
      ∀ op ∈ ops, op.Served := by
    rintro s ⟨N, hN⟩
    exact served_of_run (hN N (Nat.le_refl N))
  have hcalls : (∀ op ∈ ops, op.Served) →
      ∃ s l, Returns (fun fuel => calls fuel ops) create ((), s) ∧ Represents s l ∧
        l.map Prod.snd = ops.foldl ListOp.reference [] :=
    fun hall => calls_returns represents_create hall hnodup fun _ _ => rfl
  refine ⟨⟨fun ⟨s, hs⟩ => hserved s hs, fun hall => ?_⟩, fun s hs => ?_⟩
  · obtain ⟨s, -, hrun, -⟩ := hcalls hall
    exact ⟨s, hrun⟩
  · obtain ⟨s', l, hrun, h, hvalues⟩ := hcalls (hserved s hs)
    obtain rfl : s = s' := congrArg Prod.snd (hs.unique hrun)
    have hlength : l.length = (ops.foldl ListOp.reference []).length := by
      rw [← hvalues, List.length_map]
    refine ⟨hvalues ▸ iterate_list_returns h, ?_, ?_, l.map Prod.fst, h.queued.follows,
      h.queued.nodup, ?_, h.tail, fun x => h.next_last⟩
    · rw [h.len, hlength]
      exact UInt32.toNat_ofNat'
    · rw [h.queued.follows.head, h.tail]
      cases l with
      | nil => simp
      | cons p l => simp
    · rw [← hvalues, List.map_map, List.map_map]
      apply List.map_congr_left
      intro p hp
      obtain ⟨n, hn, hvalue⟩ := h.node p hp
      simp [hn, hvalue]

/-- The calls of `main`. -/
def mainCalls : List (ListOp Nat) :=
  [.add_node 101 (some 8), .add_node 102 (some 16), .add_node 103 (some 24), .remove_node 102]

theorem linked_list_run_main : ∃ s : LinkedList Nat,
    Returns (fun fuel => calls fuel mainCalls) create ((), s) ∧
      Returns iterate_list s ([101, 103], s) := by
  have hnodup : (mainCalls.filterMap ListOp.allocated).Nodup := by decide
  have hlist := linked_list_run hnodup
  obtain ⟨s, hs⟩ := hlist.1.mpr (by simp [mainCalls, ListOp.Served])
  exact ⟨s, hs, (hlist.2 s hs).1⟩

/-- `n` values are added, at addresses 32 bytes apart. -/
def addMany (n : Nat) : List (ListOp UInt64) :=
  (List.range n).map fun i => .add_node 0 (some (UInt64.ofNat (32 * (i + 1))))

theorem addMany_reference (n : Nat) : (addMany n).foldl ListOp.reference [] = List.replicate n 0 := by
  induction n with
  | zero => rfl
  | succ n ih =>
      rw [addMany, List.range_succ, List.map_append, List.foldl_append, ← addMany, ih,
        List.replicate_succ']
      rfl

/-- As long as the addresses fit, the calls return with the length modulo `2 ^ 32`. -/
theorem addMany_returns {n : Nat} (hn : 32 * n < 2 ^ 64) : ∃ s,
    Returns (fun fuel => calls fuel (addMany n)) create ((), s) ∧ s.len = UInt32.ofNat n := by
  have haddresses : (addMany n).filterMap ListOp.allocated =
      (List.range n).map fun i => UInt64.ofNat (32 * (i + 1)) := by
    rw [addMany, List.filterMap_map, ← List.filterMap_eq_map]
    rfl
  have hnodup : ((addMany n).filterMap ListOp.allocated).Nodup := by
    rw [haddresses]
    apply List.Nodup.map_on _ List.nodup_range
    have hsize : ∀ k ∈ List.range n, 32 * (k + 1) < UInt64.size := by
      intro k hk
      have hkn := List.mem_range.mp hk
      simp only [UInt64.size]
      omega
    intro i hi j hj he
    have hmod := congrArg UInt64.toNat he
    rw [UInt64.toNat_ofNat_of_lt' (hsize i hi), UInt64.toNat_ofNat_of_lt' (hsize j hj)] at hmod
    omega
  have hserved : ∀ op ∈ addMany n, op.Served := by
    intro op hop
    obtain ⟨i, -, rfl⟩ := List.mem_map.mp hop
    exact Option.some_ne_none _
  obtain ⟨s, l, hrun, h, hvalues⟩ :=
    calls_returns represents_create hserved hnodup fun _ _ => rfl
  have hlength : l.length = n := by
    rw [← List.length_map, hvalues, List.map_nil, addMany_reference, List.length_replicate]
  exact ⟨s, hrun, by rw [h.len, hlength]⟩

/-- With `2 ^ 32` nodes `len` is zero. -/
theorem len_wraps : ∃ s,
    Returns (fun fuel => calls fuel (addMany (2 ^ 32))) create ((), s) ∧
      s.len.toNat ≠ ((addMany (2 ^ 32)).foldl ListOp.reference []).length := by
  obtain ⟨s, hrun, hlen⟩ := addMany_returns (show 32 * 2 ^ 32 < 2 ^ 64 by norm_num)
  refine ⟨s, hrun, ?_⟩
  rw [hlen, addMany_reference, List.length_replicate, UInt32.toNat_ofNat']
  norm_num

end Runs

end LinkedList

end CLanguageLearning.Structures
