import CLanguageLearning.WebServer.BlockQueueRuns

/-!
# The front of a blocking queue

`front` reads the cell at `m_front`, which is that of the item removed last and not of the oldest
one: both functions `pop` move `m_front` on before they read. What the cell holds is told by the
history of the queue: nothing at all before the first `pop`, the newest item when the queue is full,
and else the item removed last.
-/

set_option autoImplicit false

namespace CLanguageLearning.WebServer

open CLanguageLearning.Foundation

namespace BlockQueue

variable {T : Type}

/-- The states of the runs of a queue, with the items it holds and the item removed last since the
queue was set up or cleared. A `pop` that waits changes nothing, and ends like one that does not. -/
inductive Worked [Inhabited T] : BlockQueue T → List T → Option T → Prop where
  | create {max_size : Int} {q : BlockQueue T} (hq : create max_size = some q) : Worked q [] none
  | push {q q' : BlockQueue T} {seq : List T} {removed : Option T} {item : T} {accepted : Bool}
      (h : Worked q seq removed) (hrun : (push item).run q = .ok (accepted, q')) :
      Worked q' (if accepted = true then seq ++ [item] else seq) removed
  | pop {q q' : BlockQueue T} {seq : List T} {removed : Option T} {timed : Bool} {item : T}
      (h : Worked q seq removed)
      (hrun : (resumePop timed).run q = .ok (some (.pop (some item)), q')) :
      Worked q' seq.tail (some item)
  | clear {q q' : BlockQueue T} {seq : List T} {removed : Option T} (h : Worked q seq removed)
      (hrun : clear.run q = .ok ((), q')) : Worked q' [] none

/-- The queue is empty, or an item has been removed since it was set up or cleared and the oldest
item equals that one, or the newest one if the queue is full. -/
def FrontMeets (seq : List T) (removed : Option T) (max_size : Int) : Prop :=
  seq = [] ∨
    ∃ y ∈ removed, seq.head? = if (seq.length : Int) = max_size then seq.getLast? else some y

/-- Between two calls: `m_front` is -1 before the first `pop`, and else the index of the cell that
held the item removed last; it still does, unless the queue is full. -/
def FrontCell (q : BlockQueue T) (seq : List T) : Option T → Prop
  | none => q.m_front = -1
  | some y => ∃ k, q.m_front = (k : Nat) ∧ k < q.m_array.length ∧
      (seq.length < q.m_array.length → q.m_array[k]? = some y)

section Front

variable {q q' : BlockQueue T} {seq : List T} {removed : Option T} {x y : T}

/-- A `pop` that returns an item removes the oldest one. -/
theorem resumePop_run_cons (h : Holds q (x :: seq)) (timed : Bool) :
    (resumePop timed).run q = .ok (some (.pop (some x)), q.taken) := by
  have hsize : ¬ q.m_size ≤ 0 := by
    rw [h.size, List.length_cons]
    omega
  cases timed with
  | false => simp [resumePop, popResume, popEnter, hsize, take_run_eq h]
  | true => simp [resumePop, popTimedResume, hsize, take_run_eq h]

theorem resumePop_run_nil (h : Holds q []) (timed : Bool) :
    ∃ r, (resumePop (T := T) timed).run q = .ok (r, q) ∧ ∀ item, r ≠ some (.pop (some item)) := by
  cases timed with
  | false => exact ⟨none, by simp [resumePop, popResume, popEnter_run_nil h], by simp⟩
  | true => exact ⟨some (.pop none), by simp [resumePop, popTimedResume_run_nil h], by simp⟩

theorem FrontCell.push (h : Holds q seq) (hfront : FrontCell q seq removed)
    (hroom : seq.length < q.m_array.length) (x : T) :
    FrontCell (q.pushed x) (seq ++ [x]) removed := by
  cases removed with
  | none => exact hfront
  | some y =>
      obtain ⟨k, hk, hlt, hcell⟩ := hfront
      obtain ⟨start, hstart, hend, -⟩ := h.window
      refine ⟨k, hk, by rwa [pushed, List.length_set], ?_⟩
      intro hmore
      rw [pushed, List.length_set, List.length_append, List.length_singleton] at hmore
      -- the queue does not get full, so another cell is written
      have hindex : k = (start + (q.m_array.length - 1)) % q.m_array.length := by
        rw [hk] at hstart
        exact ring_index_before hlt hstart
      have hne := ring_index_ne start (show seq.length < q.m_array.length - 1 by omega)
        (show q.m_array.length - 1 < q.m_array.length by omega)
      rw [← hindex, ← hend] at hne
      show (q.m_array.set _ x)[k]? = some y
      rw [List.getElem?_set_ne hne, hcell hroom]

theorem FrontCell.pop (h : Holds q (x :: seq)) : FrontCell q.taken seq (some x) := by
  obtain ⟨start, hstart, -, hw⟩ := h.window
  refine ⟨(q.m_front + 1).toNat % q.m_array.length, rfl, Nat.mod_lt _ h.positive, ?_⟩
  intro _
  show q.m_array[(q.m_front + 1).toNat % q.m_array.length]? = some x
  rw [hstart]
  exact hw.first

/-- In every run the queue holds the items, and its front cell is as the history says. -/
theorem Worked.holds [Inhabited T] (h : Worked q seq removed) :
    Holds q seq ∧ FrontCell q seq removed := by
  induction h with
  | create hq =>
      refine ⟨(Holds.of_create hq).1, ?_⟩
      unfold BlockQueue.create at hq
      split_ifs at hq
      cases hq
      rfl
  | @push q q' seq removed item accepted _ hrun ih =>
      obtain ⟨hq, hfront⟩ := ih
      rcases Nat.lt_or_eq_of_le hq.length_le with hroom | hfull
      · rw [push_run_eq hq hroom item] at hrun
        cases hrun
        obtain ⟨u, hu, hu', -⟩ := push_run hq hroom item
        rw [push_run_eq hq hroom item] at hu
        cases hu
        exact ⟨hu', hfront.push hq hroom item⟩
      · rw [push_run_full hq hfull item] at hrun
        cases hrun
        exact ⟨hq, hfront⟩
  | @pop q q' seq removed timed item _ hrun ih =>
      cases seq with
      | nil =>
          obtain ⟨r, hr, hne⟩ := resumePop_run_nil ih.1 timed
          rw [hr] at hrun
          cases hrun
          exact absurd rfl (hne item)
      | cons x seq =>
          obtain ⟨u, hu, hu', -⟩ := take_run ih.1
          rw [take_run_eq ih.1] at hu
          rw [resumePop_run_cons ih.1 timed] at hrun
          cases hu
          cases hrun
          exact ⟨hu', FrontCell.pop ih.1⟩
  | clear _ hrun ih =>
      obtain ⟨u, hu, hu', -⟩ := clear_run ih.1
      cases hrun.symm.trans hu
      refine ⟨hu', ?_⟩
      cases hrun
      rfl

theorem front_run_nil (h : Holds q []) : (front (T := T)).run q = .ok (none, q) := by
  have hsize : q.m_size = 0 := h.size
  simp [front, hsize]

theorem front_run_cons (h : Holds q (x :: seq)) {r : Except Halt (T × BlockQueue T)}
    (hread : (readCell q.m_front).run q = r) :
    (front (T := T)).run q = r.map fun p => (some p.1, p.2) := by
  have hsize : q.m_size ≠ 0 := by
    rw [h.size, List.length_cons]
    omega
  simp only [front, StateT.run_bind, StateT.run_get, except_pure, ok_bind, run_ite]
  rw [if_neg hsize, hread]
  cases r <;> rfl

/-- Before anything is removed `front` reads the cell with the index -1. -/
theorem front_run_none (h : Holds q (x :: seq)) (hfront : q.m_front = -1) :
    (front (T := T)).run q = .error .undefined := by
  have hread : (readCell q.m_front).run q = .error .undefined := by
    rw [hfront]
    rfl
  rw [front_run_cons h hread]
  rfl

/-- Behind a removal `front` yields the newest item when the queue is full, and else the item
removed last. -/
theorem front_run_some (h : Holds q (x :: seq)) (hfront : FrontCell q (x :: seq) (some y)) :
    (front (T := T)).run q = .ok (if ((x :: seq).length : Int) = q.m_max_size
      then (x :: seq).getLast? else some y, q) := by
  obtain ⟨k, hk, hlt, hcell⟩ := hfront
  obtain ⟨start, hstart, -, hw⟩ := h.window
  have hyield : ∀ z, q.m_array[k]? = some z → (front (T := T)).run q = .ok (some z, q) := by
    intro z hz
    rw [front_run_cons h (hk ▸ readCell_run hz)]
    rfl
  rw [h.capacity]
  rcases Nat.lt_or_eq_of_le h.length_le with hroom | hfull
  · have hne : ((x :: seq).length : Int) ≠ q.m_array.length := by omega
    rw [if_neg hne]
    exact hyield y (hcell hroom)
  · -- the newest item has been written over the one removed last
    have hindex : k = (start + (q.m_array.length - 1)) % q.m_array.length := by
      rw [hk] at hstart
      exact ring_index_before hlt hstart
    have hlast := hw.last_of_full hfull h.positive
    rw [← hindex] at hlast
    have heq : ((x :: seq).length : Int) = q.m_array.length := by rw [hfull]
    rw [if_pos heq]
    cases hz : (x :: seq).getLast? with
    | none => simp at hz
    | some z => exact hyield z (hlast.trans hz)

/-- In every state of a run of the queue, the next `pop` returns the oldest item; `front` yields it,
or `false` from an empty queue, and leaves the queue as it is, if and only if the queue is empty or
an item has been removed since it was set up or cleared, and that one, or the newest one if the
queue is full, equals the oldest. -/
theorem front_oldest_iff [Inhabited T] (h : Worked q seq removed) :
    (∀ (timed : Bool) (x : T) (rest : List T), seq = x :: rest →
      ∃ q', (resumePop timed).run q = .ok (some (.pop (some x)), q')) ∧
    ((front (T := T)).run q = .ok (seq.head?, q) ↔ FrontMeets seq removed q.m_max_size) := by
  obtain ⟨hq, hfront⟩ := h.holds
  constructor
  · rintro timed x rest rfl
    exact ⟨q.taken, resumePop_run_cons hq timed⟩
  · cases seq with
    | nil => exact iff_of_true (front_run_nil hq) (Or.inl rfl)
    | cons x seq =>
        cases removed with
        | none =>
            rw [front_run_none hq hfront]
            refine iff_of_false (fun he => by cases he) ?_
            rintro (hnil | ⟨y, hy, -⟩)
            · cases hnil
            · cases hy
        | some y =>
            rw [front_run_some hq hfront, Except.ok.injEq, Prod.mk.injEq]
            constructor
            · rintro ⟨hhead, -⟩
              exact Or.inr ⟨y, rfl, hhead.symm⟩
            · rintro (hnil | ⟨z, hz, hhead⟩)
              · cases hnil
              · cases hz
                exact ⟨hhead.symm, rfl⟩

/-- A queue with one cell that has been used: the newest item is the oldest. -/
theorem front_oldest_iff_one_cell :
    ∃ q : BlockQueue Nat, Worked q [8] (some 7) ∧ (front (T := Nat)).run q = .ok (some 8, q) := by
  have hq : Worked (⟨[0], 0, 1, -1, -1⟩ : BlockQueue Nat) [] none :=
    .create (show create 1 = _ from rfl)
  have hseven := hq.push (show (push 7).run _ = _ from rfl)
  have hpop := hseven.pop (show (resumePop false).run _ = _ from rfl)
  have height := hpop.push (show (push 8).run _ = _ from rfl)
  exact ⟨_, height, (front_oldest_iff height).2.mpr (Or.inr ⟨7, rfl, by decide⟩)⟩

/-- `front` before the first `pop` reads outside the array, and behind it yields an item that is no
longer there. -/
theorem front_not_oldest :
    (∃ q : BlockQueue Nat, Worked q [7] none ∧ (front (T := Nat)).run q = .error .undefined) ∧
    ∃ q : BlockQueue Nat, Worked q [8] (some 7) ∧ (front (T := Nat)).run q = .ok (some 7, q) ∧
      ∃ q', (popEnter (T := Nat)).run q = .ok (some (some 8), q') := by
  have hq : Worked (⟨[0, 0], 0, 2, -1, -1⟩ : BlockQueue Nat) [] none :=
    .create (show create 2 = _ from rfl)
  have hseven := hq.push (show (push 7).run _ = _ from rfl)
  have hpop := hseven.pop (show (resumePop false).run _ = _ from rfl)
  have height := hpop.push (show (push 8).run _ = _ from rfl)
  exact ⟨⟨_, hseven, rfl⟩, _, height, rfl, _, rfl⟩

end Front

end BlockQueue

end CLanguageLearning.WebServer
