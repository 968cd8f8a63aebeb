import CLanguageLearning.Foundation.LinkedChain
import CLanguageLearning.Timer.SortTimerLst

/-!
# The member functions on a well-formed list

`Represents P s L` says that the list in state `s` holds the entries `L`: they are in memory, linked
both ways, between head and tail. The previous pointer of the first is left to `P`, since the two
classes differ there. Each member function is shown to turn a list of the entries `L` into one of
the entries `Op.sorted L` and to make the calls `Op.fired L`, whatever `P`, as long as `P` allows
the null pointer; `add_timer` comes once for each class.
-/

set_option autoImplicit false

namespace CLanguageLearning.Timer

open CLanguageLearning.Foundation

/-- The timer of an entry, with its links. -/
def Entry.timer (e : Entry) (nx pv : Nat → Option Nat) : UtilTimer :=
  ⟨e.expire, e.cb_func, e.user_data, pv e.id, nx e.id⟩

/-- The entries `M` are in memory, linked as the two maps say. -/
def Stored (s : SortTimerLst) (nx pv : Nat → Option Nat) (M : List Entry) : Prop :=
  ∀ e ∈ M, s.timers e.id = some (e.timer nx pv)

namespace SortTimerLst

/-- `x->next = q`. -/
def withNext (s : SortTimerLst) (x : Nat) (q : Option Nat) : SortTimerLst :=
  s.mapTimer x fun t => { t with next := q }

/-- `x->prev = q`. -/
def withPrev (s : SortTimerLst) (x : Nat) (q : Option Nat) : SortTimerLst :=
  s.mapTimer x fun t => { t with prev := q }

/-- `delete x`. -/
def without (s : SortTimerLst) (x : Nat) : SortTimerLst :=
  { s with timers := fun y => if y = x then none else s.timers y }

end SortTimerLst

section Memory

variable {s : SortTimerLst} {nx pv : Nat → Option Nat} {M M' : List Entry} {e : Entry}

theorem Stored.mono (h : Stored s nx pv M) (hsub : ∀ e ∈ M', e ∈ M) : Stored s nx pv M' :=
  fun e he => h e (hsub e he)

theorem deref_run (h : Stored s nx pv M) (he : e ∈ M) :
    (deref (some e.id)).run s = .ok (e.timer nx pv, s) := by
  simp [deref, h e he]

theorem writeTimer_run (h : Stored s nx pv M) (he : e ∈ M) (f : UtilTimer → UtilTimer) :
    (writeTimer (some e.id) f).run s = .ok ((), s.mapTimer e.id f) := by
  rw [writeTimer, run_bind_of_ok (deref_run h he)]
  rfl

theorem setNext_run (h : Stored s nx pv M) (he : e ∈ M) (q : Option Nat) :
    (setNext (some e.id) q).run s = .ok ((), s.withNext e.id q) :=
  writeTimer_run h he _

theorem setPrev_run (h : Stored s nx pv M) (he : e ∈ M) (q : Option Nat) :
    (setPrev (some e.id) q).run s = .ok ((), s.withPrev e.id q) :=
  writeTimer_run h he _

theorem deleteTimer_run (h : Stored s nx pv M) (he : e ∈ M) :
    (deleteTimer (some e.id)).run s = .ok ((), s.without e.id) := by
  rw [deleteTimer, run_bind_of_ok (deref_run h he)]
  simp [SortTimerLst.without]

theorem Stored.withNext (h : Stored s nx pv M) (x : Nat) (q : Option Nat) :
    Stored (s.withNext x q) (Function.update nx x q) pv M := by
  intro e he
  by_cases hx : e.id = x
  · subst hx
    simp [SortTimerLst.withNext, SortTimerLst.mapTimer, h e he, Entry.timer]
  · simp [SortTimerLst.withNext, SortTimerLst.mapTimer, h e he, Entry.timer, hx]

theorem Stored.withPrev (h : Stored s nx pv M) (x : Nat) (q : Option Nat) :
    Stored (s.withPrev x q) nx (Function.update pv x q) M := by
  intro e he
  by_cases hx : e.id = x
  · subst hx
    simp [SortTimerLst.withPrev, SortTimerLst.mapTimer, h e he, Entry.timer]
  · simp [SortTimerLst.withPrev, SortTimerLst.mapTimer, h e he, Entry.timer, hx]

theorem Stored.without {x : Nat} (h : Stored s nx pv M) (hx : ∀ e ∈ M, e.id ≠ x) :
    Stored (s.without x) nx pv M := by
  intro e he
  simp [SortTimerLst.without, hx e he, h e he]

end Memory

/-- The entries `M` are in memory and `L`, some of them, are chained up to the tail. -/
structure ListAt (s : SortTimerLst) (nx pv : Nat → Option Nat) (M L : List Entry) : Prop where
  stored : Stored s nx pv M
  threaded : Threaded nx pv (ids L)
  tail : s.tail = (ids L).getLast?

section Insert

variable {x a : Entry} {A B : List Entry} {s : SortTimerLst} {nx pv : Nat → Option Nat}

/-- Names around an entry of a list without repetitions. -/
theorem ne_of_nodup_mid (h : (ids (A ++ a :: B)).Nodup) :
    (∀ y ∈ ids A, y ≠ a.id) ∧ (∀ y ∈ ids B, y ≠ a.id) ∧ (ids B).Nodup ∧ (ids A).Nodup := by
  rw [ids_append, ids_cons] at h
  obtain ⟨hA, hB, hAB⟩ := List.nodup_append.mp h
  obtain ⟨haB, hB⟩ := List.nodup_cons.mp hB
  exact ⟨fun y hy => hAB y hy _ (List.mem_cons_self ..),
    fun y hy he => haB (he ▸ hy), hB, hA⟩

theorem getLast_insert_mid (l : List Nat) (p q r : Nat) (l' : List Nat) :
    (l ++ p :: q :: r :: l').getLast? = (l ++ p :: r :: l').getLast? := by
  rw [List.getLast?_append_of_ne_nil _ (List.cons_ne_nil _ _),
    List.getLast?_append_of_ne_nil _ (List.cons_ne_nil _ _), List.getLast?_cons_cons,
    List.getLast?_cons_cons, List.getLast?_cons_cons]

/-- The private `add_timer` at the end of the list. -/
theorem insertLoop_run_last {fuel : Nat} (hx : x.id ∉ ids (A ++ [a]))
    (hnodup : (ids (A ++ [a])).Nodup) (h : ListAt s nx pv (x :: (A ++ [a])) (A ++ [a])) :
    ∃ s' nx' pv', (insertLoop (some x.id) (fuel + 1) (some a.id) none).run s = .ok ((), s') ∧
      ListAt s' nx' pv' (x :: (A ++ [a])) (A ++ [a, x]) ∧
      s'.head = s.head ∧ s'.calls = s.calls ∧ ∀ y ∈ (ids (A ++ [a])).head?, pv' y = pv y := by
  have hst := h.stored
  have hst1 := hst.withNext a.id (some x.id)
  have hst2 := hst1.withPrev x.id (some a.id)
  have hst3 := hst2.withNext x.id none
  have hxM : x ∈ x :: (A ++ [a]) := List.mem_cons_self ..
  have haM : a ∈ x :: (A ++ [a]) := by simp
  have hxL : ∀ y ∈ ids A ++ [a.id], y ≠ x.id := by
    intro y hy he
    exact hx (by simpa [he] using hy)
  obtain ⟨hAa, -⟩ := ne_of_nodup_mid hnodup
  -- the three links that are written, and the tail
  refine ⟨{ ((s.withNext a.id (some x.id)).withPrev x.id (some a.id)).withNext x.id none with
    tail := some x.id }, _, _, ?_, ⟨hst3, ?_, ?_⟩, rfl, rfl, ?_⟩
  · rw [insertLoop, if_pos rfl]
    apply (run_bind_of_ok (setNext_run hst haM _) _).trans
    apply (run_bind_of_ok (setPrev_run hst1 hxM _) _).trans
    exact run_bind_of_ok (setNext_run hst2 hxM _) _
  · have ht : Threaded nx pv (ids A ++ a.id :: []) := by simpa using h.threaded
    have hax : a.id ≠ x.id := hxL _ (by simp)
    rw [ids_append]
    apply ht.insert (x := x.id)
    case ha => rw [Function.update_of_ne hax, Function.update_self]
    case hxp => rw [Function.update_self]
    case hxn =>
      rw [Function.update_self]
      rfl
    case hB =>
      intro y hy
      cases hy
    case hnA =>
      intro y hy
      rw [Function.update_of_ne (hxL y (by simp [hy])), Function.update_of_ne (hAa y hy)]
    case hnB =>
      intro y hy
      cases hy
    case hpA =>
      intro y hy
      exact Function.update_of_ne (hxL y (List.mem_of_mem_tail hy)) _ _
    case hpB =>
      intro y hy
      cases hy
  · rw [ids_append]
    show some x.id = (ids A ++ [a.id, x.id]).getLast?
    rw [List.getLast?_append_of_ne_nil _ (List.cons_ne_nil _ _)]
    rfl
  · intro y hy
    rw [ids_append] at hy
    exact Function.update_of_ne (hxL y (List.mem_of_head? hy)) _ _

/-- The private `add_timer` before an entry `b` that expires later. -/
theorem insertLoop_run_before {b : Entry} {fuel : Nat} (hlt : x.expire < b.expire)
    (hx : x.id ∉ ids (A ++ a :: b :: B)) (hnodup : (ids (A ++ a :: b :: B)).Nodup)
    (h : ListAt s nx pv (x :: (A ++ a :: b :: B)) (A ++ a :: b :: B)) :
    ∃ s' nx' pv', (insertLoop (some x.id) (fuel + 1) (some a.id) (some b.id)).run s =
        .ok ((), s') ∧
      ListAt s' nx' pv' (x :: (A ++ a :: b :: B)) (A ++ a :: x :: b :: B) ∧
      s'.head = s.head ∧ s'.calls = s.calls ∧ ∀ y ∈ (ids (A ++ [a])).head?, pv' y = pv y := by
  have hst := h.stored
  have hst1 := hst.withNext a.id (some x.id)
  have hst2 := hst1.withNext x.id (some b.id)
  have hst3 := hst2.withPrev b.id (some x.id)
  -- the links in the order in which they are written
  have hst4 := hst3.withPrev x.id (some a.id)
  have hxM : x ∈ x :: (A ++ a :: b :: B) := List.mem_cons_self ..
  have haM : a ∈ x :: (A ++ a :: b :: B) := by simp
  have hbM : b ∈ x :: (A ++ a :: b :: B) := by simp
  have hxL : ∀ y ∈ ids A ++ a.id :: b.id :: ids B, y ≠ x.id := by
    intro y hy he
    exact hx (by simpa [he] using hy)
  obtain ⟨hAa, hBa, hbB, -⟩ := ne_of_nodup_mid hnodup
  have hnodup' : (ids ((A ++ [a]) ++ b :: B)).Nodup := by simpa using hnodup
  obtain ⟨hAb, hBb, -⟩ := ne_of_nodup_mid hnodup'
  refine ⟨_, _, _, ?_, ⟨hst4, ?_, ?_⟩, rfl, rfl, ?_⟩
  · rw [insertLoop, if_neg (Option.some_ne_none _)]
    apply (run_bind_of_ok (deref_run hst hxM) _).trans
    apply (run_bind_of_ok (deref_run hst hbM) _).trans
    rw [if_pos (show (x.timer nx pv).expire < (b.timer nx pv).expire from hlt)]
    apply (run_bind_of_ok (setNext_run hst haM _) _).trans
    apply (run_bind_of_ok (setNext_run hst1 hxM _) _).trans
    apply (run_bind_of_ok (setPrev_run hst2 hbM _) _).trans
    exact setPrev_run hst3 hxM _
  · have ht : Threaded nx pv (ids A ++ a.id :: b.id :: ids B) := by simpa using h.threaded
    have hax : a.id ≠ x.id := hxL _ (by simp)
    have hbx : b.id ≠ x.id := hxL _ (by simp)
    rw [ids_append]
    apply ht.insert (x := x.id)
    case ha => rw [Function.update_of_ne hax, Function.update_self]
    case hxp => rw [Function.update_self]
    case hxn =>
      rw [Function.update_self]
      rfl
    case hB =>
      intro y hy
      cases hy
      rw [Function.update_of_ne hbx, Function.update_self]
    case hnA =>
      intro y hy
      rw [Function.update_of_ne (hxL y (by simp [hy])), Function.update_of_ne (hAa y hy)]
    case hnB =>
      intro y hy
      rw [Function.update_of_ne (hxL y (List.mem_append_right _ (List.mem_cons_of_mem _ hy))),
        Function.update_of_ne (hBa y hy)]
    case hpA =>
      intro y hy
      have hy' := List.mem_of_mem_tail hy
      rw [Function.update_of_ne (hxL y (by
          rw [List.mem_append, List.mem_singleton] at hy'
          rw [List.mem_append, List.mem_cons]
          exact hy'.imp_right Or.inl)),
        Function.update_of_ne (hAb y (by simpa using hy'))]
    case hpB =>
      intro y hy
      change y ∈ ids B at hy
      rw [Function.update_of_ne (hxL y (by simp [hy])), Function.update_of_ne (hBb y hy)]
  · have htail := h.tail
    rw [ids_append] at htail ⊢
    exact htail.trans (getLast_insert_mid _ _ _ _ _).symm
  · intro y hy
    have hy' := List.mem_of_head? hy
    rw [Function.update_of_ne (hxL y (by
        rw [ids_append, List.mem_append, ids_cons, ids_nil, List.mem_singleton] at hy'
        rw [List.mem_append, List.mem_cons]
        exact hy'.imp_right Or.inl)),
      Function.update_of_ne (hAb y hy')]

/-- The private `add_timer` inserts the timer behind all entries of the rest that expire no later.
The induction is on the rest of the list; the entries passed move to the part in front. -/
theorem insertLoop_run (B : List Entry) :
    ∀ (A : List Entry) (a : Entry) (fuel : Nat), B.length < fuel →
      (ids (A ++ a :: B)).Nodup → x.id ∉ ids (A ++ a :: B) →
      ListAt s nx pv (x :: (A ++ a :: B)) (A ++ a :: B) →
      ∃ s' nx' pv', (insertLoop (some x.id) fuel (some a.id) (ids B).head?).run s = .ok ((), s') ∧
        ListAt s' nx' pv' (x :: (A ++ a :: B)) (A ++ a :: insertEntry x B) ∧
        s'.head = s.head ∧ s'.calls = s.calls ∧ ∀ y ∈ (ids (A ++ [a])).head?, pv' y = pv y := by
  induction B with
  | nil =>
      intro A a fuel hfuel hnodup hx h
      obtain ⟨fuel, rfl⟩ := Nat.exists_eq_succ_of_ne_zero (Nat.ne_of_gt hfuel)
      exact insertLoop_run_last hx hnodup h
  | cons b B ih =>
      intro A a fuel hfuel hnodup hx h
      obtain ⟨fuel, rfl⟩ := Nat.exists_eq_succ_of_ne_zero (Nat.ne_of_gt (Nat.zero_lt_of_lt hfuel))
      by_cases hlt : x.expire < b.expire
      · -- the timer goes before `b`
        rw [insertEntry_cons_of_lt hlt]
        exact insertLoop_run_before hlt hx hnodup h
      · -- `b` expires no later: the loop goes on behind it
        have hsplit : A ++ a :: b :: B = (A ++ [a]) ++ b :: B := by simp
        have hnext : nx b.id = (ids B).head? := by
          have ht : Threaded nx pv (ids (A ++ [a]) ++ b.id :: ids B) := by
            simpa using h.threaded
          exact ht.next_mid
        rw [hsplit] at hnodup hx h
        rw [List.length_cons] at hfuel
        obtain ⟨s', nx', pv', hrun, hlist, hhead, hcalls, hfirst⟩ :=
          ih (A ++ [a]) b fuel (by omega) hnodup hx h
        have hresult : A ++ a :: insertEntry x (b :: B) = (A ++ [a]) ++ b :: insertEntry x B := by
          rw [insertEntry_cons_of_le (by omega)]
          simp
        rw [hsplit, hresult]
        refine ⟨s', nx', pv', ?_, hlist, hhead, hcalls, ?_⟩
        · show (insertLoop (some x.id) (fuel + 1) (some a.id) (some b.id)).run s = _
          rw [insertLoop, if_neg (Option.some_ne_none _)]
          apply (run_bind_of_ok (deref_run h.stored (List.mem_cons_self ..)) _).trans
          apply (run_bind_of_ok (deref_run (e := b) h.stored (by simp)) _).trans
          rw [if_neg (show ¬ (x.timer nx pv).expire < (b.timer nx pv).expire from hlt)]
          show (insertLoop (some x.id) fuel (some b.id) (nx b.id)).run s = _
          rw [hnext]
          exact hrun
        · intro y hy
          apply hfirst y
          cases A with
          | nil => exact hy
          | cons c A => exact hy

end Insert

/-! ## Well-formed lists -/

/-- The list in state `s` holds the entries `L`, in this order; `P x p` is what is known of the
previous pointer `p` of the first timer `x`. The order need not be that of expiry. -/
structure Linked (P : Nat → Option Nat → Prop) (s : SortTimerLst) (L : List Entry) : Prop where
  nodup : (ids L).Nodup
  head : s.head = (ids L).head?
  list : L ≠ [] → ∃ nx pv, ListAt s nx pv L L ∧ ∀ x ∈ (ids L).head?, P x (pv x)

namespace Linked

variable {P : Nat → Option Nat → Prop} {s : SortTimerLst} {L : List Entry}

theorem empty (P : Nat → Option Nat → Prop) {s : SortTimerLst} (h : s.head = none) :
    Linked P s [] :=
  ⟨List.nodup_nil, h, fun hne => absurd rfl hne⟩

/-- A timer without an entry in the list is not a member. -/
theorem fresh (h : Linked P s L) {x : Nat} (hx : s.timers x = none) : x ∉ ids L := by
  intro hmem
  obtain ⟨e, he, rfl⟩ := List.mem_map.mp hmem
  obtain ⟨nx, pv, hl, -⟩ := h.list (List.ne_nil_of_mem he)
  rw [hl.stored e he] at hx
  cases hx

end Linked

/-- The list in state `s` holds the entries `L`, in the order of expiry; `P x p` is what is known of
the previous pointer `p` of the first timer `x`. -/
structure Represents (P : Nat → Option Nat → Prop) (s : SortTimerLst) (L : List Entry) : Prop where
  nodup : (ids L).Nodup
  ascending : Ascending L
  head : s.head = (ids L).head?
  list : L ≠ [] → ∃ nx pv, ListAt s nx pv L L ∧ ∀ x ∈ (ids L).head?, P x (pv x)

namespace Represents

variable {P Q : Nat → Option Nat → Prop} {s : SortTimerLst} {L : List Entry}

theorem empty (P : Nat → Option Nat → Prop) {s : SortTimerLst} (h : s.head = none) :
    Represents P s [] :=
  ⟨List.nodup_nil, List.Pairwise.nil, h, fun hne => absurd rfl hne⟩

theorem linked (h : Represents P s L) : Linked P s L := ⟨h.nodup, h.head, h.list⟩

end Represents

theorem Linked.represents {P : Nat → Option Nat → Prop} {s : SortTimerLst} {L : List Entry}
    (h : Linked P s L) (hasc : Ascending L) : Represents P s L := ⟨h.nodup, hasc, h.head, h.list⟩

section Steps

variable {P : Nat → Option Nat → Prop} {s : SortTimerLst} {L A B : List Entry} {x e : Entry}

/-- Allocating a timer adds it to memory with null links. -/
theorem newTimer_run (s : SortTimerLst) (e : Entry) :
    ∃ s', (newTimer e.id e.expire e.cb_func e.user_data).run s = .ok ((), s') ∧
      s'.head = s.head ∧ s'.tail = s.tail ∧ s'.calls = s.calls ∧
      ∀ nx pv, Stored s nx pv L → e.id ∉ ids L →
        Stored s' (Function.update nx e.id none) (Function.update pv e.id none) (e :: L) := by
  refine ⟨_, rfl, rfl, rfl, rfl, ?_⟩
  intro nx pv h hnew a ha
  by_cases hid : a.id = e.id
  · -- its own address was free before
    have hae : a = e := by
      rcases List.mem_cons.mp ha with hae | haL
      · exact hae
      · exact absurd (hid ▸ mem_ids haL) hnew
    subst hae
    simp [Entry.timer]
  · have haL : a ∈ L := by
      rcases List.mem_cons.mp ha with rfl | haL
      · exact absurd rfl hid
      · exact haL
    simp [Entry.timer, hid, h a haL]

/-- The private `add_timer` on the first entry of a list. -/
theorem add_timer_from_run {h : Entry} {T : List Entry} {nx pv : Nat → Option Nat} {fuel : Nat}
    (hl : ListAt s nx pv (x :: (A ++ h :: T)) (A ++ h :: T)) (hnodup : (ids (A ++ h :: T)).Nodup)
    (hx : x.id ∉ ids (A ++ h :: T)) (hfuel : T.length < fuel) :
    ∃ s' nx' pv', (add_timer_from fuel (some x.id) (some h.id)).run s = .ok ((), s') ∧
      ListAt s' nx' pv' (x :: (A ++ h :: T)) (A ++ h :: insertEntry x T) ∧
      s'.head = s.head ∧ s'.calls = s.calls ∧ ∀ y ∈ (ids (A ++ [h])).head?, pv' y = pv y := by
  have hhM : h ∈ x :: (A ++ h :: T) := by simp
  have hnext : nx h.id = (ids T).head? := by
    have ht : Threaded nx pv (ids A ++ h.id :: ids T) := by simpa using hl.threaded
    exact ht.next_mid
  obtain ⟨s', nx', pv', hrun, hrest⟩ := insertLoop_run T A h fuel hfuel hnodup hx hl
  refine ⟨s', nx', pv', ?_, hrest⟩
  apply (run_bind_of_ok (deref_run hl.stored hhM) _).trans
  show (insertLoop (some x.id) fuel (some h.id) (nx h.id)).run s = _
  rw [hnext]
  exact hrun

/-- Insertion at the head of a list that is not empty. -/
theorem pushFront_run {h : Entry} {T : List Entry} {nx pv : Nat → Option Nat}
    (hl : ListAt s nx pv (e :: h :: T) (h :: T)) (hnodup : (ids (h :: T)).Nodup)
    (he : e.id ∉ ids (h :: T)) :
    ∃ s' nx' pv', (do
        setNext (some e.id) (some h.id)
        setPrev (some h.id) (some e.id)
        setHead (some e.id) : Exec SortTimerLst Unit).run s = .ok ((), s') ∧
      ListAt s' nx' pv' (e :: h :: T) (e :: h :: T) ∧ s'.head = some e.id ∧ s'.calls = s.calls ∧
      pv' e.id = pv e.id := by
  have hst := hl.stored
  have hst1 := hst.withNext e.id (some h.id)
  have hst2 := hst1.withPrev h.id (some e.id)
  have hne : ∀ y ∈ ids (h :: T), y ≠ e.id := fun y hy heq => he (heq ▸ hy)
  have hhT : h.id ∉ ids T := (List.nodup_cons.mp hnodup).1
  refine ⟨{ (s.withNext e.id (some h.id)).withPrev h.id (some e.id) with head := some e.id }, _, _,
    ?_, ⟨hst2, ?_, ?_⟩, rfl, rfl, ?_⟩
  · apply (run_bind_of_ok (setNext_run hst (List.mem_cons_self ..) _) _).trans
    exact run_bind_of_ok (setPrev_run hst1 (List.mem_cons_of_mem _ (List.mem_cons_self ..)) _) _
  · apply hl.threaded.push (x := e.id)
    case hx =>
      rw [Function.update_self]
      rfl
    case hfirst =>
      intro y hy
      cases hy
      rw [Function.update_self]
    case hn =>
      intro y hy
      exact Function.update_of_ne (hne y hy) _ _
    case hp =>
      intro y hy
      refine Function.update_of_ne ?_ _ _
      rintro rfl
      exact hhT hy
  · -- the tail is not written
    show s.tail = _
    rw [hl.tail, ids_cons, ids_cons, ids_cons, List.getLast?_cons_cons]
  · exact Function.update_of_ne (hne h.id (List.mem_cons_self ..)).symm _ _

/-- The general insertion of a timer that is already the head: it ends before the next entry and
writes the links again, with the timer as its own previous one. -/
theorem add_timer_from_self_run {h : Entry} {T : List Entry} {nx pv : Nat → Option Nat} (fuel : Nat)
    (hl : ListAt s nx pv (e :: h :: T) (e :: h :: T)) (hnodup : (ids (e :: h :: T)).Nodup)
    (hlt : e.expire < h.expire) :
    ∃ s' nx' pv', (add_timer_from (fuel + 1) (some e.id) (some e.id)).run s = .ok ((), s') ∧
      ListAt s' nx' pv' (e :: h :: T) (e :: h :: T) ∧ s'.head = s.head ∧ s'.calls = s.calls ∧
      pv' e.id = some e.id := by
  have hst := hl.stored
  have hst1 := hst.withNext e.id (some e.id)
  have hst2 := hst1.withNext e.id (some h.id)
  have hst3 := hst2.withPrev h.id (some e.id)
  have hst4 := hst3.withPrev e.id (some e.id)
  have heM : e ∈ e :: h :: T := List.mem_cons_self ..
  have hhM : h ∈ e :: h :: T := List.mem_cons_of_mem _ (List.mem_cons_self ..)
  have hlinks := List.isChain_cons_cons.mp hl.threaded.links
  have hnext : nx e.id = some h.id := hlinks.1.1
  have hprev : pv h.id = some e.id := hlinks.1.2
  have hne : ∀ y ∈ ids (h :: T), y ≠ e.id := fun y hy heq =>
    (List.nodup_cons.mp hnodup).1 (heq ▸ hy)
  refine ⟨_, _, _, ?_, ⟨hst4, ?_, hl.tail⟩, rfl, rfl, Function.update_self ..⟩
  · apply (run_bind_of_ok (deref_run hst heM) _).trans
    -- `prev` is the timer itself, and the next entry expires later
    show (insertLoop (some e.id) (fuel + 1) (some e.id) (nx e.id)).run s = _
    rw [hnext, insertLoop, if_neg (Option.some_ne_none _)]
    apply (run_bind_of_ok (deref_run hst heM) _).trans
    apply (run_bind_of_ok (deref_run hst hhM) _).trans
    rw [if_pos (show (e.timer nx pv).expire < (h.timer nx pv).expire from hlt)]
    apply (run_bind_of_ok (setNext_run hst heM _) _).trans
    apply (run_bind_of_ok (setNext_run hst1 heM _) _).trans
    apply (run_bind_of_ok (setPrev_run hst2 hhM _) _).trans
    exact setPrev_run hst3 heM _
  · -- the links are those that were there
    refine hl.threaded.congr ?_ ?_
    · intro y hy
      rcases List.mem_cons.mp hy with rfl | hy
      · rw [Function.update_self, hnext]
      · rw [Function.update_of_ne (hne y hy), Function.update_of_ne (hne y hy)]
    · intro y hy
      rw [Function.update_of_ne (hne y hy)]
      by_cases hyh : y = h.id
      · rw [hyh, Function.update_self, hprev]
      · rw [Function.update_of_ne hyh]

end Steps

/-! ## The operations -/

/-- A linked list from a chain of its entries. -/
theorem Linked.of_listAt {P : Nat → Option Nat → Prop} {s : SortTimerLst} {L M : List Entry}
    {nx pv : Nat → Option Nat} (hl : ListAt s nx pv M L) (hsub : ∀ e ∈ L, e ∈ M)
    (hnodup : (ids L).Nodup) (hhead : s.head = (ids L).head?)
    (hfirst : ∀ x ∈ (ids L).head?, P x (pv x)) : Linked P s L :=
  ⟨hnodup, hhead, fun _ => ⟨nx, pv, ⟨hl.stored.mono hsub, hl.threaded, hl.tail⟩, hfirst⟩⟩

section Add

variable {P : Nat → Option Nat → Prop} {s : SortTimerLst} {L : List Entry} {e : Entry} {fuel : Nat}

/-- The state in which `add_timer` is called with a new timer. -/
theorem newTimer_linked (h : Linked P s L) (hnew : s.timers e.id = none) :
    ∃ s' nx pv, (newTimer e.id e.expire e.cb_func e.user_data).run s = .ok ((), s') ∧
      Stored s' nx pv (e :: L) ∧ s'.head = s.head ∧ s'.calls = s.calls ∧ nx e.id = none ∧
      pv e.id = none ∧ (L ≠ [] → ListAt s' nx pv (e :: L) L ∧ ∀ x ∈ (ids L).head?, P x (pv x)) := by
  have hfresh := h.fresh hnew
  obtain ⟨s', hrun, hhead, htail, hcalls, hstored⟩ := newTimer_run (L := L) s e
  by_cases hL : L = []
  · subst hL
    exact ⟨s', _, _, hrun, hstored (fun _ => none) (fun _ => none) (fun a ha => by cases ha) hfresh,
      hhead, hcalls, Function.update_self .., Function.update_self .., fun hne => absurd rfl hne⟩
  · obtain ⟨nx, pv, hl, hfirst⟩ := h.list hL
    -- the new links are those of no timer in the list
    have hne : ∀ y ∈ ids L, y ≠ e.id := fun y hy heq => hfresh (heq ▸ hy)
    refine ⟨s', _, _, hrun, hstored nx pv hl.stored hfresh, hhead, hcalls, Function.update_self ..,
      Function.update_self .., fun _ => ⟨⟨hstored nx pv hl.stored hfresh, ?_, ?_⟩, ?_⟩⟩
    · refine hl.threaded.congr ?_ ?_
      · intro y hy
        exact Function.update_of_ne (hne y hy) _ _
      · intro y hy
        exact Function.update_of_ne (hne y (List.mem_of_mem_tail hy)) _ _
    · rw [htail, hl.tail]
    · intro y hy
      rw [Function.update_of_ne (hne y (List.mem_of_head? hy))]
      exact hfirst y hy

/-- The common cases of the two `add_timer`: an empty list, and a timer that does not expire before
the head. -/
theorem add_timer_run_empty (fuel : Nat) (h : Linked P s []) (hP : P e.id none)
    (hnew : s.timers e.id = none) :
    ∃ s₁ s', (newTimer e.id e.expire e.cb_func e.user_data).run s = .ok ((), s₁) ∧
      (add_timer fuel (some e.id)).run s₁ = .ok ((), s') ∧
      (Webserver.add_timer fuel (some e.id)).run s₁ = .ok ((), s') ∧
      Linked P s' [e] ∧ s'.calls = s.calls := by
  obtain ⟨s₁, nx, pv, hrun, hst, hhead, hcalls, hnx, hpv, -⟩ := newTimer_linked h hnew
  have hnil : s₁.head = none := by rw [hhead, h.head]; rfl
  refine ⟨s₁, { s₁ with head := some e.id, tail := some e.id }, hrun, ?_, ?_, ?_, hcalls⟩
  · simp [add_timer, hnil, setHead, setTail]
  · simp [Webserver.add_timer, hnil, setHead, setTail]
  · have hl : ListAt { s₁ with head := some e.id, tail := some e.id } nx pv [e] [e] :=
      ⟨hst, .singleton hnx, rfl⟩
    refine .of_listAt hl (fun a ha => ha) (List.nodup_singleton _) rfl ?_
    intro x hx
    cases hx
    rwa [hpv]

theorem insertEntry_nodup (hnodup : (ids L).Nodup) (he : e.id ∉ ids L) :
    (ids (insertEntry e L)).Nodup :=
  Op.sorted_nodup hnodup (show (Op.add e).Allowed L from trivial) fun _ h => by cases h; exact he

theorem mem_of_mem_insertEntry {a : Entry} (ha : a ∈ insertEntry e L) : a ∈ e :: L :=
  (perm_insertEntry e L).mem_iff.mp ha

/-- A timer that does not expire before the head goes to the general insertion. -/
theorem add_timer_run_behind {a : Entry} {T : List Entry} (h : Linked P s (a :: T))
    (hnew : s.timers e.id = none) (hle : a.expire ≤ e.expire) (hfuel : T.length < fuel) :
    ∃ s₁ s', (newTimer e.id e.expire e.cb_func e.user_data).run s = .ok ((), s₁) ∧
      (add_timer fuel (some e.id)).run s₁ = .ok ((), s') ∧
      (Webserver.add_timer fuel (some e.id)).run s₁ = .ok ((), s') ∧
      Linked P s' (insertEntry e (a :: T)) ∧ s'.calls = s.calls := by
  obtain ⟨s₁, nx, pv, hrun, hst, hhead, hcalls, -, -, hlist⟩ := newTimer_linked h hnew
  obtain ⟨hl, hfirst⟩ := hlist (List.cons_ne_nil a T)
  have hfresh := h.fresh hnew
  have hhead₁ : s₁.head = some a.id := by rw [hhead, h.head]; rfl
  obtain ⟨s', nx', pv', hrun', hl', hhead', hcalls', hfirst'⟩ :=
    add_timer_from_run (A := []) hl h.nodup hfresh hfuel
  have hderef := deref_run hst (List.mem_cons_self ..)
  have hderef' := deref_run (e := a) hst (List.mem_cons_of_mem _ (List.mem_cons_self ..))
  have hge : ¬ (e.timer nx pv).expire < (a.timer nx pv).expire := not_lt.mpr hle
  have hcons := insertEntry_cons_of_le (L := T) hle
  refine ⟨s₁, s', hrun, ?_, ?_, ?_, hcalls'.trans hcalls⟩
  · simp [add_timer, hhead₁, hderef, hderef', hge, hrun']
  · simp [Webserver.add_timer, hhead₁, hderef, hderef', hge, hrun']
  · have hl'' : ListAt s' nx' pv' (e :: a :: T) (insertEntry e (a :: T)) := by
      rw [hcons]
      exact hl'
    refine .of_listAt hl'' (fun b hb => mem_of_mem_insertEntry hb)
      (insertEntry_nodup h.nodup hfresh) ?_ ?_
    · rw [hcons, hhead', hhead₁]
      rfl
    · intro x hx
      rw [hcons] at hx
      cases hx
      rw [hfirst' a.id rfl]
      exact hfirst a.id rfl

/-- A timer that expires before the head, in the first class. -/
theorem add_timer_run_front {a : Entry} {T : List Entry} (h : Linked P s (a :: T))
    (hP : P e.id none) (hnew : s.timers e.id = none) (hlt : e.expire < a.expire) :
    ∃ s₁ s', (newTimer e.id e.expire e.cb_func e.user_data).run s = .ok ((), s₁) ∧
      (add_timer fuel (some e.id)).run s₁ = .ok ((), s') ∧
      Linked P s' (insertEntry e (a :: T)) ∧ s'.calls = s.calls := by
  obtain ⟨s₁, nx, pv, hrun, hst, hhead, hcalls, -, hpv, hlist⟩ := newTimer_linked h hnew
  obtain ⟨hl, -⟩ := hlist (List.cons_ne_nil a T)
  have hfresh := h.fresh hnew
  have hhead₁ : s₁.head = some a.id := by rw [hhead, h.head]; rfl
  obtain ⟨s', nx', pv', hrun', hl', hhead', hcalls', hfirst'⟩ := pushFront_run hl h.nodup hfresh
  have hderef := deref_run hst (List.mem_cons_self ..)
  have hderef' := deref_run (e := a) hst (List.mem_cons_of_mem _ (List.mem_cons_self ..))
  have hlt' : (e.timer nx pv).expire < (a.timer nx pv).expire := hlt
  refine ⟨s₁, s', hrun, ?_, ?_, hcalls'.trans hcalls⟩
  · rw [add_timer, if_neg (Option.some_ne_none _)]
    apply (run_bind_of_ok (t := s₁) (a := s₁) rfl _).trans
    rw [hhead₁, if_neg (Option.some_ne_none _)]
    apply (run_bind_of_ok hderef _).trans
    apply (run_bind_of_ok hderef' _).trans
    rw [if_pos hlt']
    exact hrun'
  · have hcons := insertEntry_cons_of_lt (L := T) hlt
    rw [hcons]
    refine .of_listAt hl' (fun b hb => hb) (List.nodup_cons.mpr ⟨hfresh, h.nodup⟩) hhead'
      ?_
    intro x hx
    cases hx
    rwa [hfirst', hpv]

/-- The same in the webserver's class, where the timer becomes its own previous one. -/
theorem Webserver.add_timer_run_front {a : Entry} {T : List Entry} (fuel : Nat)
    (h : Linked P s (a :: T)) (hP : P e.id (some e.id)) (hnew : s.timers e.id = none)
    (hlt : e.expire < a.expire) :
    ∃ s₁ s', (newTimer e.id e.expire e.cb_func e.user_data).run s = .ok ((), s₁) ∧
      (Webserver.add_timer (fuel + 1) (some e.id)).run s₁ = .ok ((), s') ∧
      Linked P s' (insertEntry e (a :: T)) ∧ s'.calls = s.calls ∧
      ∃ t, s'.timers e.id = some t ∧ t.prev = some e.id := by
  obtain ⟨s₁, nx, pv, hrun, hst, hhead, hcalls, -, hpv, hlist⟩ := newTimer_linked h hnew
  obtain ⟨hl, -⟩ := hlist (List.cons_ne_nil a T)
  have hfresh := h.fresh hnew
  have hhead₁ : s₁.head = some a.id := by rw [hhead, h.head]; rfl
  have hnodup : (ids (e :: a :: T)).Nodup := List.nodup_cons.mpr ⟨hfresh, h.nodup⟩
  obtain ⟨s₂, nx₂, pv₂, hpush, hl₂, hhead₂, hcalls₂, -⟩ := pushFront_run hl h.nodup hfresh
  obtain ⟨s', nx', pv', hself, hl', hhead', hcalls', hfirst'⟩ :=
    add_timer_from_self_run fuel hl₂ hnodup hlt
  have hderef := deref_run hst (List.mem_cons_self ..)
  have hderef' := deref_run (e := a) hst (List.mem_cons_of_mem _ (List.mem_cons_self ..))
  have hlt' : (e.timer nx pv).expire < (a.timer nx pv).expire := hlt
  refine ⟨s₁, s', hrun, ?_, ?_, hcalls'.trans (hcalls₂.trans hcalls), ?_⟩
  · rw [Webserver.add_timer, if_neg (Option.some_ne_none _)]
    apply (run_bind_of_ok (t := s₁) (a := s₁) rfl _).trans
    rw [hhead₁, if_neg (Option.some_ne_none _)]
    apply (run_bind_of_ok hderef _).trans
    apply (run_bind_of_ok hderef' _).trans
    rw [if_pos hlt']
    -- the head is not returned from: the general insertion follows
    have hseq := (run_bind_of_ok hpush fun _ =>
      add_timer_from (fuel + 1) (some e.id) (some e.id)).trans hself
    simpa only [bind_assoc] using hseq
  · have hcons := insertEntry_cons_of_lt (L := T) hlt
    rw [hcons]
    refine .of_listAt hl' (fun b hb => hb) hnodup (hhead'.trans hhead₂) ?_
    intro x hx
    cases hx
    rwa [hfirst']
  · exact ⟨_, hl'.stored e (List.mem_cons_self ..), hfirst'⟩

end Add

section Unlink

variable {s : SortTimerLst} {A B : List Entry} {a e b : Entry} {nx pv : Nat → Option Nat}

/-- A timer inside the list is unlinked: its neighbours are linked with each other, and it keeps its
own pointers. `adjust_timer` and `del_timer` share these steps. -/
theorem unlink_run (hl : ListAt s nx pv (A ++ a :: e :: b :: B) (A ++ a :: e :: b :: B))
    (hnodup : (ids (A ++ a :: e :: b :: B)).Nodup) :
    ∃ s' nx' pv', (∀ k : Exec SortTimerLst Unit, (do
        let t ← deref (some e.id)
        setNext t.prev t.next
        let t ← deref (some e.id)
        setPrev t.next t.prev
        k).run s = k.run s') ∧
      ListAt s' nx' pv' (A ++ a :: e :: b :: B) (A ++ a :: b :: B) ∧ nx' e.id = some b.id ∧
      s'.head = s.head ∧ s'.calls = s.calls ∧ ∀ y ∈ (ids (A ++ [a])).head?, pv' y = pv y := by
  have heM : e ∈ A ++ a :: e :: b :: B := by simp
  have haM : a ∈ A ++ a :: e :: b :: B := by simp
  have hbM : b ∈ A ++ a :: e :: b :: B := by simp
  have hst := hl.stored
  have hst1 := hst.withNext a.id (some b.id)
  have hst2 := hst1.withPrev b.id (some a.id)
  have ht : Threaded nx pv (ids A ++ a.id :: e.id :: b.id :: ids B) := by
    simpa using hl.threaded
  have ht' : Threaded nx pv ((ids A ++ [a.id]) ++ e.id :: b.id :: ids B) := by
    simpa using hl.threaded
  have hnext : nx e.id = some b.id := ht'.next_mid
  have hprev : pv e.id = some a.id := ht.prev_mid
  obtain ⟨hAa, hBa, -, -⟩ := ne_of_nodup_mid hnodup
  have hnodup' : (ids ((A ++ [a, e]) ++ b :: B)).Nodup := by simpa using hnodup
  obtain ⟨hAb, hBb, -, -⟩ := ne_of_nodup_mid hnodup'
  have hfar : ∀ y ∈ ids (A ++ [a]), y ≠ b.id := by
    intro y hy
    apply hAb y
    rw [ids_append, List.mem_append] at hy ⊢
    apply hy.imp_right
    intro h
    rw [ids_cons, ids_nil, List.mem_singleton] at h
    rw [h]
    exact List.mem_cons_self ..
  -- the pointer of the timer itself is read after the first write
  have hnext1 : Function.update nx a.id (some b.id) e.id = some b.id := by
    rw [Function.update_of_ne (hBa _ (List.mem_cons_self ..)), hnext]
  refine ⟨_, _, _, ?_, ⟨hst2, ?_, ?_⟩, hnext1, rfl, rfl, ?_⟩
  · -- the four steps, before whatever comes behind them
    intro k
    apply (run_bind_of_ok (deref_run hst heM) _).trans
    show StateT.run (setNext (pv e.id) (nx e.id) >>= _) s = _
    rw [hnext, hprev]
    apply (run_bind_of_ok (setNext_run hst haM _) _).trans
    apply (run_bind_of_ok (deref_run hst1 heM) _).trans
    show StateT.run (setPrev (Function.update nx a.id (some b.id) e.id) (pv e.id) >>= _) _ = _
    rw [hnext1, hprev]
    exact run_bind_of_ok (setPrev_run hst1 hbM _) _
  · rw [ids_append]
    apply ht.remove (B := ids (b :: B))
    case ha =>
      rw [Function.update_self]
      rfl
    case hB =>
      intro y hy
      cases hy
      rw [Function.update_self]
    case hnA =>
      intro y hy
      exact Function.update_of_ne (hAa y hy) _ _
    case hnB =>
      intro y hy
      exact Function.update_of_ne (hBa y (List.mem_cons_of_mem _ hy)) _ _
    case hpA =>
      intro y hy
      refine Function.update_of_ne (hfar y ?_) _ _
      rw [ids_append]
      exact List.mem_of_mem_tail hy
    case hpB =>
      intro y hy
      exact Function.update_of_ne (hBb y hy) _ _
  · have htail := hl.tail
    rw [ids_append] at htail ⊢
    exact htail.trans (getLast_insert_mid _ _ _ _ _)
  · intro y hy
    exact Function.update_of_ne (hfar y (List.mem_of_head? hy)) _ _

end Unlink

section Adjust

variable {P : Nat → Option Nat → Prop} {s : SortTimerLst} {A B L : List Entry} {e b : Entry}
  {nx pv : Nat → Option Nat} {fuel : Nat}

/-- The head of a list depends on what is before the middle. -/
theorem head?_ids_mid (A : List Entry) (a : Entry) (C : List Entry) :
    (ids (A ++ a :: C)).head? = (ids (A ++ [a])).head? := by
  cases A <;> rfl

/-- A timer with another before it is not the head. -/
theorem head_ne_of_before {a : Entry} (hnodup : (ids (A ++ a :: e :: B)).Nodup)
    (hhead : s.head = (ids (A ++ a :: e :: B)).head?) : s.head ≠ some e.id := by
  have hnodup₁ : (ids ((A ++ [a]) ++ e :: B)).Nodup := by simpa using hnodup
  obtain ⟨hAe, -⟩ := ne_of_nodup_mid hnodup₁
  intro he
  rw [hhead] at he
  -- the head would be one of those before the timer
  refine hAe e.id (List.mem_of_mem_head? ?_) rfl
  cases A with
  | nil => exact he
  | cons c A => exact he

/-- Setting the expiry time of a member. -/
theorem Stored.withExpire (h : Stored s nx pv (A ++ e :: B)) (hnodup : (ids (A ++ e :: B)).Nodup)
    (expire : Int) :
    Stored (s.mapTimer e.id fun t => { t with expire := expire }) nx pv
      (A ++ { e with expire := expire } :: B) := by
  obtain ⟨hA, hB⟩ := id_ne_mid hnodup
  intro x hx
  rcases List.mem_append.mp hx with hx | hx
  · have hst := h x (List.mem_append_left _ hx)
    simp [SortTimerLst.mapTimer, hA x hx, hst]
  · rcases List.mem_cons.mp hx with rfl | hx
    · have hst := h e (List.mem_append_right _ (List.mem_cons_self ..))
      simp [SortTimerLst.mapTimer, hst, Entry.timer]
    · have hst := h x (List.mem_append_right _ (List.mem_cons_of_mem _ hx))
      simp [SortTimerLst.mapTimer, hB x hx, hst]

/-- The head is taken out and inserted again behind the next entry. -/
theorem moveTimer_run_head (hl : ListAt s nx pv (e :: b :: B) (e :: b :: B))
    (hnodup : (ids (e :: b :: B)).Nodup) (hhead : s.head = some e.id) (hfuel : B.length < fuel) :
    ∃ s' nx' pv', (moveTimer fuel (some e.id)).run s = .ok ((), s') ∧
      ListAt s' nx' pv' (e :: b :: B) (b :: insertEntry e B) ∧ s'.head = some b.id ∧
      s'.calls = s.calls ∧ pv' b.id = none := by
  obtain ⟨he, hnodup'⟩ := List.nodup_cons.mp hnodup
  have hst := hl.stored
  have hst0 : Stored { s with head := some b.id } nx pv (e :: b :: B) := hst
  have hst1 := hst0.withPrev b.id none
  have hst2 := hst1.withNext e.id none
  have heM : e ∈ e :: b :: B := List.mem_cons_self ..
  have hbM : b ∈ e :: b :: B := List.mem_cons_of_mem _ (List.mem_cons_self ..)
  have hnext : nx e.id = some b.id := hl.threaded.next_head
  have hne : ∀ y ∈ ids (b :: B), y ≠ e.id := fun y hy heq => he (heq ▸ hy)
  have hbB : b.id ∉ ids B := (List.nodup_cons.mp hnodup').1
  -- the list without the timer, in which it is inserted again
  have hl2 : ListAt (({ s with head := some b.id } : SortTimerLst).withPrev b.id none |>.withNext
      e.id none) (Function.update nx e.id none) (Function.update pv b.id none) (e :: b :: B)
      (b :: B) := by
    refine ⟨hst2, hl.threaded.tail_reset hbB ?_, ?_⟩
    · intro y hy
      exact Function.update_of_ne (hne y hy) _ _
    · show s.tail = _
      rw [hl.tail, ids_cons, ids_cons, List.getLast?_cons_cons]
  obtain ⟨s', nx', pv', hrun, hl', hhead', hcalls, hfirst⟩ :=
    add_timer_from_run (A := []) hl2 hnodup' he hfuel
  refine ⟨s', nx', pv', ?_, hl', hhead', hcalls, ?_⟩
  · have hset := setPrev_run hst0 hbM none
    have hset' := setNext_run hst1 heM none
    have hseq : (do
        setHead (some b.id)
        setPrev (some b.id) none
        setNext (some e.id) none
        add_timer_from fuel (some e.id) (some b.id) : Exec SortTimerLst Unit).run s =
          .ok ((), s') := by
      apply (run_bind_of_ok (t := { s with head := some b.id }) rfl _).trans
      apply (run_bind_of_ok hset _).trans
      exact (run_bind_of_ok hset' _).trans hrun
    have hderef := deref_run hst heM
    rw [← hnext] at hseq
    rw [moveTimer]
    apply (run_bind_of_ok (run_get s) _).trans
    rw [if_pos hhead.symm, hhead]
    exact (run_bind_of_ok hderef _).trans hseq
  · rw [hfirst b.id rfl, Function.update_self]

/-- A timer behind the head is taken out and inserted again behind the next entry. -/
theorem moveTimer_run_inner {a : Entry} (hl : ListAt s nx pv (A ++ a :: e :: b :: B)
    (A ++ a :: e :: b :: B)) (hnodup : (ids (A ++ a :: e :: b :: B)).Nodup)
    (hhead : s.head ≠ some e.id) (hfuel : B.length < fuel) :
    ∃ s' nx' pv', (moveTimer fuel (some e.id)).run s = .ok ((), s') ∧
      ListAt s' nx' pv' (e :: (A ++ a :: b :: B)) (A ++ a :: b :: insertEntry e B) ∧
      s'.head = s.head ∧ s'.calls = s.calls ∧ ∀ y ∈ (ids (A ++ [a])).head?, pv' y = pv y := by
  obtain ⟨s₁, nx₁, pv₁, hunlink, hl₁, hnext₁, hhead₁, hcalls₁, hfirst₁⟩ := unlink_run hl hnodup
  have hnodup₁ : (ids ((A ++ [a]) ++ e :: b :: B)).Nodup := by simpa using hnodup
  obtain ⟨hAe, hBe, -, -⟩ := ne_of_nodup_mid hnodup₁
  have hsplit : A ++ a :: b :: B = (A ++ [a]) ++ b :: B := by simp
  have hresult : A ++ a :: b :: insertEntry e B = (A ++ [a]) ++ b :: insertEntry e B := by simp
  have hnodup' : (ids ((A ++ [a]) ++ b :: B)).Nodup := by
    refine List.Nodup.sublist (List.Sublist.map _ ?_) hnodup₁
    exact (List.sublist_cons_self e (b :: B)).append_left _
  have hfresh : e.id ∉ ids ((A ++ [a]) ++ b :: B) := by
    rw [ids_append, List.mem_append]
    rintro (hy | hy)
    · exact hAe _ hy rfl
    · exact hBe _ hy rfl
  -- the list without the timer, in which it is inserted again
  have hl₂ : ListAt s₁ nx₁ pv₁ (e :: ((A ++ [a]) ++ b :: B)) ((A ++ [a]) ++ b :: B) := by
    rw [← hsplit]
    refine ⟨hl₁.stored.mono ?_, hl₁.threaded, hl₁.tail⟩
    intro x hx
    simp only [List.mem_cons, List.mem_append] at hx ⊢
    tauto
  obtain ⟨s', nx', pv', hrun, hl', hhead', hcalls, hfirst⟩ :=
    add_timer_from_run hl₂ hnodup' hfresh hfuel
  rw [hsplit, hresult]
  refine ⟨s', nx', pv', ?_, hl', hhead'.trans hhead₁, hcalls.trans hcalls₁, ?_⟩
  · have hderef := deref_run hl₂.stored (List.mem_cons_self ..)
    rw [moveTimer]
    apply (run_bind_of_ok (run_get s) _).trans
    rw [if_neg (fun h => hhead h.symm)]
    apply (hunlink _).trans
    apply (run_bind_of_ok hderef _).trans
    show StateT.run (add_timer_from fuel (some e.id) (nx₁ e.id)) _ = _
    rw [hnext₁]
    exact hrun
  · intro y hy
    have hy' : y ∈ (ids (A ++ [a] ++ [b])).head? := by
      rw [ids_append, List.head?_append, hy]
      rfl
    rw [hfirst y hy', hfirst₁ y hy]

/-- With the next entry expiring later, or none, nothing is done. -/
theorem adjust_timer_run_stay (fuel : Nat) (hl : ListAt s nx pv (A ++ e :: B) (A ++ e :: B))
    (hstay : ∀ x ∈ B.head?, e.expire < x.expire) :
    (adjust_timer fuel (some e.id)).run s = .ok ((), s) := by
  have hderef := deref_run (e := e) hl.stored (by simp)
  have hnext : nx e.id = (ids B).head? := by
    have ht : Threaded nx pv (ids A ++ e.id :: ids B) := by simpa using hl.threaded
    exact ht.next_mid
  rw [adjust_timer, if_neg (Option.some_ne_none _)]
  apply (run_bind_of_ok hderef _).trans
  -- nothing behind the timer, or a timer that expires later
  show StateT.run (if nx e.id = none then _ else _) s = _
  cases B with
  | nil =>
      rw [if_pos (show nx e.id = none from hnext)]
      rfl
  | cons b B =>
      have hderef' := deref_run (e := b) hl.stored (by simp)
      have hlt : (e.timer nx pv).expire < (b.timer nx pv).expire := hstay b rfl
      have hnext' : nx e.id = some b.id := hnext
      rw [if_neg (by rw [hnext']; exact Option.some_ne_none _)]
      show StateT.run (deref (nx e.id) >>= _) s = _
      rw [hnext']
      apply (run_bind_of_ok hderef' _).trans
      rw [if_pos hlt]
      rfl

/-- Otherwise the timer is moved. -/
theorem adjust_timer_run_move (hl : ListAt s nx pv (A ++ e :: b :: B) (A ++ e :: b :: B))
    (hle : b.expire ≤ e.expire) :
    (adjust_timer fuel (some e.id)).run s = (moveTimer fuel (some e.id)).run s := by
  have hderef := deref_run (e := e) hl.stored (by simp)
  have hderef' := deref_run (e := b) hl.stored (by simp)
  have hge : ¬ (e.timer nx pv).expire < (b.timer nx pv).expire := not_lt.mpr hle
  have hnext : nx e.id = some b.id := by
    have ht : Threaded nx pv (ids A ++ e.id :: b.id :: ids B) := by simpa using hl.threaded
    exact ht.next_mid
  rw [adjust_timer, if_neg (Option.some_ne_none _)]
  apply (run_bind_of_ok hderef _).trans
  show StateT.run (if nx e.id = none then _ else _) s = _
  rw [if_neg (by rw [hnext]; exact Option.some_ne_none _)]
  show StateT.run (deref (nx e.id) >>= _) s = _
  rw [hnext]
  apply (run_bind_of_ok hderef' _).trans
  rw [if_neg hge]

/-- The chain after `adjust_timer`, for an entry in place with its new expiry time. -/
theorem adjust_timer_run_chain (fuel : Nat) (hP : ∀ x, P x none)
    (hl : ListAt s nx pv (A ++ e :: B) (A ++ e :: B))
    (hnodup : (ids (A ++ e :: B)).Nodup) (hhead : s.head = (ids (A ++ e :: B)).head?)
    (hfirst : ∀ x ∈ (ids (A ++ e :: B)).head?, P x (pv x)) (hfuel : B.length < fuel) :
    ∃ s' nx' pv', (adjust_timer fuel (some e.id)).run s = .ok ((), s') ∧
      ListAt s' nx' pv' (A ++ e :: B) (A ++ insertEntry e B) ∧
      s'.head = (ids (A ++ insertEntry e B)).head? ∧ s'.calls = s.calls ∧
      ∀ x ∈ (ids (A ++ insertEntry e B)).head?, P x (pv' x) := by
  cases B with
  | nil =>
      have hstay := adjust_timer_run_stay fuel hl fun x hx => by cases hx
      exact ⟨s, nx, pv, hstay, hl, hhead, rfl, hfirst⟩
  | cons b B =>
      by_cases hlt : e.expire < b.expire
      · rw [insertEntry_cons_of_lt hlt]
        refine ⟨s, nx, pv, adjust_timer_run_stay fuel hl ?_, hl, hhead, rfl, hfirst⟩
        intro x hx
        cases hx
        exact hlt
      · have hle : b.expire ≤ e.expire := by omega
        rw [List.length_cons] at hfuel
        rw [adjust_timer_run_move hl hle, insertEntry_cons_of_le hle]
        rcases List.eq_nil_or_concat' A with rfl | ⟨A, a, rfl⟩
        · -- the head is moved; the next entry becomes the head and loses its previous pointer
          obtain ⟨s', nx', pv', hrun, hl', hhead', hcalls, hpv⟩ :=
            moveTimer_run_head hl hnodup hhead (by omega : B.length < fuel)
          refine ⟨s', nx', pv', hrun, hl', hhead', hcalls, ?_⟩
          intro x hx
          cases hx
          rw [hpv]
          exact hP _
        · -- a timer inside the list is moved; the head stays
          rw [List.append_assoc, List.singleton_append] at hl hnodup hhead hfirst
          have hne := head_ne_of_before hnodup hhead
          obtain ⟨s', nx', pv', hrun, hl', hhead', hcalls, hpv⟩ :=
            moveTimer_run_inner hl hnodup hne (by omega : B.length < fuel)
          rw [List.append_assoc, List.singleton_append, List.append_assoc, List.singleton_append]
          refine ⟨s', nx', pv', hrun, ⟨hl'.stored.mono ?_, hl'.threaded, hl'.tail⟩, ?_, hcalls, ?_⟩
          · intro x hx
            simp only [List.mem_cons, List.mem_append] at hx ⊢
            tauto
          · rw [hhead', hhead, head?_ids_mid A a (e :: b :: B),
              head?_ids_mid A a (b :: insertEntry e B)]
          · intro x hx
            rw [head?_ids_mid] at hx
            rw [hpv x hx]
            apply hfirst x
            rw [head?_ids_mid]
            exact hx

/-- `adjust_timer` on a member with any new expiry time puts its entry among those behind it. -/
theorem adjust_timer_linked (hP : ∀ x, P x none) (h : Linked P s (A ++ e :: B)) (expire : Int)
    (hfuel : B.length < fuel) :
    ∃ s₁ s', (writeTimer (some e.id) fun t => { t with expire := expire }).run s = .ok ((), s₁) ∧
      (adjust_timer fuel (some e.id)).run s₁ = .ok ((), s') ∧
      Linked P s' (A ++ insertEntry { e with expire := expire } B) ∧ s'.calls = s.calls := by
  have he : e ∈ A ++ e :: B := List.mem_append_right A (List.mem_cons_self ..)
  obtain ⟨nx, pv, hl, hfirst⟩ := h.list (List.ne_nil_of_mem he)
  have hwrite := writeTimer_run hl.stored he fun t => { t with expire := expire }
  have hids : ids (A ++ { e with expire := expire } :: B) = ids (A ++ e :: B) := by simp
  have hst := hl.stored.withExpire h.nodup expire
  have hl₁ : ListAt (s.mapTimer e.id fun t => { t with expire := expire }) nx pv
      (A ++ { e with expire := expire } :: B) (A ++ { e with expire := expire } :: B) :=
    ⟨hst, by rw [hids]; exact hl.threaded, by rw [hids]; exact hl.tail⟩
  have hperm : (A ++ insertEntry { e with expire := expire } B).Perm
      (A ++ { e with expire := expire } :: B) := (perm_insertEntry _ B).append_left A
  have hnodup' : (ids (A ++ insertEntry { e with expire := expire } B)).Nodup := by
    refine (hperm.map Entry.id).nodup_iff.mpr ?_
    show (ids (A ++ { e with expire := expire } :: B)).Nodup
    rw [hids]
    exact h.nodup
  obtain ⟨s', nx', pv', hrun, hl', hhead', hcalls, hfirst'⟩ :=
    adjust_timer_run_chain fuel hP hl₁ (by rw [hids]; exact h.nodup)
      (by rw [hids]; exact h.head) (by rw [hids]; exact hfirst) hfuel
  exact ⟨_, s', hwrite, hrun, .of_listAt hl' (fun x hx => hperm.mem_iff.mp hx) hnodup' hhead' hfirst',
    hcalls⟩

theorem adjust_timer_run (hP : ∀ x, P x none) (h : Represents P s L) (he : e ∈ L) {expire : Int}
    (hexp : e.expire ≤ expire) (hfuel : L.length ≤ fuel) :
    ∃ s₁ s', (writeTimer (some e.id) fun t => { t with expire := expire }).run s = .ok ((), s₁) ∧
      (adjust_timer fuel (some e.id)).run s₁ = .ok ((), s') ∧
      Represents P s' (Op.sorted L (.adjust e.id expire)) ∧ s'.calls = s.calls := by
  have hallowed : (Op.adjust e.id expire).Allowed L := ⟨e, he, rfl, hexp⟩
  have hasc' := Op.sorted_ascending h.nodup h.ascending hallowed
  have hnodup := h.nodup
  have hasc := h.ascending
  obtain ⟨A, B, rfl⟩ := List.append_of_mem he
  -- those before the timer expire no later than before, so it stays behind them
  have hA : ∀ a ∈ A, a.expire ≤ ({ e with expire := expire } : Entry).expire := by
    intro a ha
    have hae := (List.pairwise_append.mp hasc).2.2 a ha e (List.mem_cons_self ..)
    exact le_trans hae hexp
  rw [List.length_append, List.length_cons] at hfuel
  obtain ⟨s₁, s', hwrite, hrun, h', hcalls⟩ :=
    adjust_timer_linked hP h.linked expire (by omega : B.length < fuel)
  rw [sorted_adjust_mid hnodup, insertEntry_append hA] at hasc' ⊢
  exact ⟨s₁, s', hwrite, hrun, h'.represents hasc', hcalls⟩

end Adjust

section Delete

variable {P : Nat → Option Nat → Prop} {s : SortTimerLst} {L A B : List Entry} {e a b : Entry}
  {nx pv : Nat → Option Nat}

/-- The only timer of a list is deleted. -/
theorem del_timer_run_only (hl : ListAt s nx pv [e] [e]) (hhead : s.head = some e.id) :
    ∃ s', (del_timer (some e.id)).run s = .ok ((), s') ∧ s'.head = none ∧ s'.calls = s.calls := by
  have hdel := deleteTimer_run hl.stored (List.mem_cons_self ..)
  have htail : s.tail = some e.id := hl.tail
  refine ⟨{ s.without e.id with head := none, tail := none }, ?_, rfl, rfl⟩
  rw [del_timer, if_neg (Option.some_ne_none _)]
  apply (run_bind_of_ok (run_get s) _).trans
  rw [if_pos ⟨hhead.symm, htail.symm⟩]
  exact run_bind_of_ok hdel _

/-- The head is deleted; the next timer becomes the head and loses its previous pointer. -/
theorem del_timer_run_head (hl : ListAt s nx pv (e :: b :: B) (e :: b :: B))
    (hnodup : (ids (e :: b :: B)).Nodup) (hhead : s.head = some e.id) :
    ∃ s' nx' pv', (del_timer (some e.id)).run s = .ok ((), s') ∧
      ListAt s' nx' pv' (b :: B) (b :: B) ∧ s'.head = some b.id ∧ s'.calls = s.calls ∧
      pv' b.id = none := by
  obtain ⟨he, hnodup'⟩ := List.nodup_cons.mp hnodup
  have hne : ∀ y ∈ ids (b :: B), y ≠ e.id := fun y hy heq => he (heq ▸ hy)
  have hbB : b.id ∉ ids B := (List.nodup_cons.mp hnodup').1
  have heM : e ∈ e :: b :: B := List.mem_cons_self ..
  have hbM : b ∈ e :: b :: B := List.mem_cons_of_mem _ (List.mem_cons_self ..)
  have hst0 : Stored { s with head := some b.id } nx pv (e :: b :: B) := hl.stored
  have hst1 := hst0.withPrev b.id none
  have hnext : nx e.id = some b.id := hl.threaded.next_head
  have htail : s.tail = (ids (b :: B)).getLast? := by
    rw [hl.tail, ids_cons, ids_cons, List.getLast?_cons_cons]
  -- the first test of `del_timer` fails: the timer is not the only one
  have hnotail : s.tail ≠ some e.id := by
    rw [htail]
    intro heq
    exact hne _ (List.mem_of_getLast? heq) rfl
  refine ⟨(({ s with head := some b.id } : SortTimerLst).withPrev b.id none).without e.id, nx, _,
    ?_,
    ⟨(hst1.mono fun x hx => List.mem_cons_of_mem _ hx).without fun x hx => hne _ (mem_ids hx), ?_,
      htail⟩, rfl, rfl, Function.update_self ..⟩
  · have hderef := deref_run hl.stored heM
    have hset := setPrev_run hst0 hbM none
    have hdel := deleteTimer_run hst1 heM
    rw [del_timer, if_neg (Option.some_ne_none _)]
    apply (run_bind_of_ok (run_get s) _).trans
    rw [if_neg (fun h => hnotail h.2.symm), if_pos hhead.symm, hhead]
    apply (run_bind_of_ok hderef _).trans
    show StateT.run (setHead (nx e.id) >>= fun _ => setPrev (nx e.id) none >>= _) s = _
    rw [hnext]
    apply (run_bind_of_ok (t := { s with head := some b.id }) rfl _).trans
    exact (run_bind_of_ok hset _).trans hdel
  · exact hl.threaded.tail_reset hbB fun y _ => rfl

/-- The last timer is deleted; the one before it becomes the last. -/
theorem del_timer_run_last (hl : ListAt s nx pv (A ++ [a, e]) (A ++ [a, e]))
    (hnodup : (ids (A ++ [a, e])).Nodup) (hhead : s.head ≠ some e.id) :
    ∃ s' nx', (del_timer (some e.id)).run s = .ok ((), s') ∧
      ListAt s' nx' pv (A ++ [a]) (A ++ [a]) ∧ s'.head = s.head ∧ s'.calls = s.calls := by
  have heM : e ∈ A ++ [a, e] := by simp
  have haM : a ∈ A ++ [a, e] := by simp
  have hnodup1 : (ids ((A ++ [a]) ++ [e])).Nodup := by simpa using hnodup
  obtain ⟨hAe, -⟩ := ne_of_nodup_mid hnodup1
  obtain ⟨hAa, -⟩ := ne_of_nodup_mid hnodup
  have ht : Threaded nx pv (ids A ++ a.id :: e.id :: []) := by simpa using hl.threaded
  have hprev : pv e.id = some a.id := ht.prev_mid
  have htail : s.tail = some e.id := by
    rw [hl.tail, ids_append]
    exact List.getLast?_append_of_ne_nil _ (List.cons_ne_nil _ _)
  have hst0 : Stored { s with tail := some a.id } nx pv (A ++ [a, e]) := hl.stored
  have hst1 := hst0.withNext a.id none
  have hsub : ∀ x ∈ A ++ [a], x ∈ A ++ [a, e] := by
    intro x hx
    simp only [List.mem_append, List.mem_cons] at hx ⊢
    tauto
  refine ⟨(({ s with tail := some a.id } : SortTimerLst).withNext a.id none).without e.id, _, ?_,
    ⟨(hst1.mono hsub).without fun x hx => hAe _ (mem_ids hx), ?_, ?_⟩, rfl, rfl⟩
  · have hderef := deref_run hl.stored heM
    have hset := setNext_run hst0 haM none
    have hdel := deleteTimer_run hst1 heM
    rw [del_timer, if_neg (Option.some_ne_none _)]
    apply (run_bind_of_ok (run_get s) _).trans
    rw [if_neg (fun h => hhead h.1.symm), if_neg (fun h => hhead h.symm), if_pos htail.symm, htail]
    apply (run_bind_of_ok hderef _).trans
    show StateT.run (setTail (pv e.id) >>= fun _ => setNext (pv e.id) none >>= _) s = _
    rw [hprev]
    apply (run_bind_of_ok (t := { s with tail := some a.id }) rfl _).trans
    exact (run_bind_of_ok hset _).trans hdel
  · rw [ids_append]
    apply ht.remove (B := [])
    case ha =>
      rw [Function.update_self]
      rfl
    case hB =>
      intro y hy
      cases hy
    case hnA =>
      intro y hy
      exact Function.update_of_ne (hAa y hy) _ _
    case hnB =>
      intro y hy
      cases hy
    case hpA => exact fun y _ => rfl
    case hpB => exact fun y _ => rfl
  · rw [ids_append]
    show some a.id = (ids A ++ [a.id]).getLast?
    rw [List.getLast?_append_of_ne_nil _ (List.cons_ne_nil _ _)]
    rfl

/-- A timer inside the list is deleted; its neighbours are linked with each other. -/
theorem del_timer_run_inner (hl : ListAt s nx pv (A ++ a :: e :: b :: B) (A ++ a :: e :: b :: B))
    (hnodup : (ids (A ++ a :: e :: b :: B)).Nodup) (hhead : s.head ≠ some e.id) :
    ∃ s' nx' pv', (del_timer (some e.id)).run s = .ok ((), s') ∧
      ListAt s' nx' pv' (A ++ a :: b :: B) (A ++ a :: b :: B) ∧ s'.head = s.head ∧
      s'.calls = s.calls ∧ ∀ y ∈ (ids (A ++ [a])).head?, pv' y = pv y := by
  obtain ⟨s₁, nx₁, pv₁, hunlink, hl₁, -, hhead₁, hcalls₁, hfirst₁⟩ := unlink_run hl hnodup
  have hnodup₁ : (ids ((A ++ [a]) ++ e :: b :: B)).Nodup := by simpa using hnodup
  obtain ⟨hAe, hBe, -, -⟩ := ne_of_nodup_mid hnodup₁
  have hdel := deleteTimer_run (e := e) hl₁.stored (by simp)
  have hkept : Stored (s₁.without e.id) nx₁ pv₁ (A ++ a :: b :: B) := by
    refine (hl₁.stored.mono ?_).without ?_
    · intro x hx
      simp only [List.mem_cons, List.mem_append] at hx ⊢
      tauto
    · intro x hx
      have hx' : x ∈ (A ++ [a]) ++ b :: B := by simpa using hx
      rcases List.mem_append.mp hx' with hx' | hx'
      · exact hAe _ (mem_ids hx')
      · exact hBe _ (mem_ids hx')
  -- the tests for the tail fail
  have hnotail : s.tail ≠ some e.id := by
    have htail : s.tail = (ids ((A ++ [a] ++ [e]) ++ b :: B)).getLast? := by
      simpa using hl.tail
    rw [htail, ids_append, ids_cons, List.getLast?_append_of_ne_nil _ (List.cons_ne_nil _ _)]
    intro heq
    exact hBe _ (List.mem_of_getLast? heq) rfl
  refine ⟨_, _, _, ?_, ⟨hkept, hl₁.threaded, hl₁.tail⟩, hhead₁, hcalls₁, hfirst₁⟩
  rw [del_timer, if_neg (Option.some_ne_none _)]
  apply (run_bind_of_ok (run_get s) _).trans
  rw [if_neg (fun h => hhead h.1.symm), if_neg (fun h => hhead h.symm),
    if_neg (fun h => hnotail h.symm)]
  exact (hunlink _).trans hdel

/-- `del_timer` on a member takes its entry out. The cases are those of the code: the only timer,
the head, the last, and one inside. -/
theorem del_timer_linked (hP : ∀ x, P x none) (h : Linked P s (A ++ e :: B)) :
    ∃ s', (del_timer (some e.id)).run s = .ok ((), s') ∧ Linked P s' (A ++ B) ∧
      s'.calls = s.calls := by
  have he : e ∈ A ++ e :: B := List.mem_append_right A (List.mem_cons_self ..)
  obtain ⟨nx, pv, hl, hfirst⟩ := h.list (List.ne_nil_of_mem he)
  have hhead := h.head
  have hnodup := h.nodup
  have hnodup' : (ids (A ++ B)).Nodup :=
    hnodup.sublist (((List.sublist_cons_self e B).append_left A).map Entry.id)
  rcases List.eq_nil_or_concat' A with rfl | ⟨A, a, rfl⟩
  · cases B with
    | nil =>
        obtain ⟨s', hrun, hhead', hcalls⟩ := del_timer_run_only hl hhead
        exact ⟨s', hrun, .empty P hhead', hcalls⟩
    | cons b B =>
        obtain ⟨s', nx', pv', hrun, hl', hhead', hcalls, hfirst'⟩ :=
          del_timer_run_head hl hnodup hhead
        refine ⟨s', hrun, .of_listAt hl' (fun x hx => hx) hnodup' hhead' ?_, hcalls⟩
        intro x hx
        cases hx
        rw [hfirst']
        exact hP _
  · -- a timer before it stays, and with it the head
    rw [List.append_assoc, List.singleton_append] at hl hnodup hhead hfirst hnodup' ⊢
    have hne := head_ne_of_before hnodup hhead
    cases B with
    | nil =>
        obtain ⟨s', nx', hrun, hl', hhead', hcalls⟩ := del_timer_run_last hl hnodup hne
        refine ⟨s', hrun, .of_listAt hl' (fun x hx => hx) hnodup' ?_ ?_, hcalls⟩
        · rw [hhead', hhead, head?_ids_mid]
        · intro x hx
          apply hfirst x
          rw [head?_ids_mid]
          exact hx
    | cons b B =>
        obtain ⟨s', nx', pv', hrun, hl', hhead', hcalls, hfirst'⟩ :=
          del_timer_run_inner hl hnodup hne
        refine ⟨s', hrun, .of_listAt hl' (fun x hx => hx) hnodup' ?_ ?_, hcalls⟩
        · rw [hhead', hhead, head?_ids_mid, head?_ids_mid A a (b :: B)]
        · intro x hx
          rw [head?_ids_mid] at hx
          rw [hfirst' x hx]
          apply hfirst x
          rw [head?_ids_mid]
          exact hx

theorem del_timer_run (hP : ∀ x, P x none) (h : Represents P s L) (he : e ∈ L) :
    ∃ s', (del_timer (some e.id)).run s = .ok ((), s') ∧
      Represents P s' (Op.sorted L (.del e.id)) ∧ s'.calls = s.calls := by
  have hallowed : (Op.del e.id).Allowed L := ⟨e, he, rfl⟩
  have hasc' := Op.sorted_ascending h.nodup h.ascending hallowed
  have hnodup := h.nodup
  obtain ⟨A, B, rfl⟩ := List.append_of_mem he
  have hresult : Op.sorted (A ++ e :: B) (.del e.id) = A ++ B := filter_mid hnodup
  obtain ⟨s', hrun, h', hcalls⟩ := del_timer_linked hP h.linked
  rw [hresult] at hasc' ⊢
  exact ⟨s', hrun, h'.represents hasc', hcalls⟩

end Delete

section Tick

variable {P : Nat → Option Nat → Prop} {s : SortTimerLst} {L : List Entry} {e b : Entry}
  {B : List Entry} {nx pv : Nat → Option Nat} {cur : Int} {fuel : Nat}

/-- A timer that is not due ends the loop. -/
theorem tickLoop_run_stop (hl : ListAt s nx pv (e :: B) (e :: B)) (hlt : cur < e.expire) :
    (tickLoop cur (fuel + 1) (some e.id)).run s = .ok ((), s) := by
  apply (run_bind_of_ok (deref_run hl.stored (List.mem_cons_self ..)) _).trans
  rw [if_pos (show cur < (e.timer nx pv).expire from hlt)]
  rfl

/-- The last timer fires; the tail pointer keeps its name. -/
theorem tickLoop_run_fire_last (fuel : Nat) (hl : ListAt s nx pv [e] [e]) (hle : e.expire ≤ cur) :
    ∃ s', (tickLoop cur (fuel + 1) (some e.id)).run s = (tickLoop cur fuel none).run s' ∧
      s'.head = none ∧ s'.calls = s.calls ++ [e.call] := by
  have hnext : nx e.id = none := hl.threaded.next_head
  have hge : ¬ cur < (e.timer nx pv).expire := not_lt.mpr hle
  have hst : Stored { s with head := none, calls := s.calls ++ [e.call] } nx pv [e] := hl.stored
  -- the branch on the new head is not taken, so the tail is not written
  refine ⟨({ s with head := none, calls := s.calls ++ [e.call] } : SortTimerLst).without e.id, ?_,
    rfl, rfl⟩
  apply (run_bind_of_ok (deref_run hl.stored (List.mem_cons_self ..)) _).trans
  rw [if_neg hge]
  apply (run_bind_of_ok (t := { s with calls := s.calls ++ [e.call] }) rfl _).trans
  show StateT.run (setHead (nx e.id) >>= fun _ => if nx e.id = none then _ else _) _ = _
  rw [hnext, if_pos rfl]
  refine (run_bind_of_ok
    (t := { s with head := none, calls := s.calls ++ [e.call] }) rfl _).trans ?_
  apply (run_bind_of_ok (deleteTimer_run hst (List.mem_cons_self ..)) _).trans
  show StateT.run (tickLoop cur fuel (nx e.id)) _ = _
  rw [hnext]

/-- The first of several timers fires; the next becomes the head and loses its previous pointer. -/
theorem tickLoop_run_fire (fuel : Nat) (hl : ListAt s nx pv (e :: b :: B) (e :: b :: B))
    (hnodup : (ids (e :: b :: B)).Nodup) (hle : e.expire ≤ cur) :
    ∃ s' nx' pv', (tickLoop cur (fuel + 1) (some e.id)).run s =
        (tickLoop cur fuel (some b.id)).run s' ∧
      ListAt s' nx' pv' (b :: B) (b :: B) ∧ s'.head = some b.id ∧
      s'.calls = s.calls ++ [e.call] ∧ pv' b.id = none := by
  obtain ⟨he, hnodup'⟩ := List.nodup_cons.mp hnodup
  have hne : ∀ y ∈ ids (b :: B), y ≠ e.id := fun y hy heq => he (heq ▸ hy)
  have hbB : b.id ∉ ids B := (List.nodup_cons.mp hnodup').1
  have hnext : nx e.id = some b.id := hl.threaded.next_head
  have hge : ¬ cur < (e.timer nx pv).expire := not_lt.mpr hle
  have heM : e ∈ e :: b :: B := List.mem_cons_self ..
  have hbM : b ∈ e :: b :: B := List.mem_cons_of_mem _ (List.mem_cons_self ..)
  have hst0 : Stored { s with head := some b.id, calls := s.calls ++ [e.call] } nx pv
      (e :: b :: B) := hl.stored
  have hst1 := hst0.withPrev b.id none
  refine ⟨(({ s with head := some b.id, calls := s.calls ++ [e.call] } : SortTimerLst).withPrev
    b.id none).without e.id, nx, _, ?_, ⟨(hst1.mono fun x hx => List.mem_cons_of_mem _ hx).without
      fun x hx => hne _ (mem_ids hx), ?_, ?_⟩, rfl, rfl, Function.update_self ..⟩
  · apply (run_bind_of_ok (deref_run hl.stored heM) _).trans
    rw [if_neg hge]
    apply (run_bind_of_ok (t := { s with calls := s.calls ++ [e.call] }) rfl _).trans
    show StateT.run (setHead (nx e.id) >>= fun _ => if nx e.id = none then _ else _) _ = _
    rw [hnext, if_neg (Option.some_ne_none _)]
    refine (run_bind_of_ok
      (t := { s with head := some b.id, calls := s.calls ++ [e.call] }) rfl _).trans ?_
    show StateT.run (setPrev (nx e.id) none >>= _) _ = _
    rw [hnext]
    apply (run_bind_of_ok (setPrev_run hst0 hbM none) _).trans
    apply (run_bind_of_ok (deleteTimer_run hst1 heM) _).trans
    show StateT.run (tickLoop cur fuel (nx e.id)) _ = _
    rw [hnext]
  · exact hl.threaded.tail_reset hbB fun y _ => rfl
  · show s.tail = _
    rw [hl.tail, ids_cons, ids_cons, List.getLast?_cons_cons]

/-- The loop fires the timers that are due, in the order of the list, and leaves the others. The
induction is on the entries. -/
theorem tickLoop_run (cur : Int) (hP : ∀ x, P x none) (L : List Entry) :
    ∀ (s : SortTimerLst) (fuel : Nat), L.length < fuel → Linked P s L →
      ∃ s', (tickLoop cur fuel s.head).run s = .ok ((), s') ∧
        Linked P s' (pending cur L) ∧ s'.calls = s.calls ++ (due cur L).map Entry.call := by
  induction L with
  | nil =>
      intro s fuel hfuel h
      obtain ⟨fuel, rfl⟩ := Nat.exists_eq_succ_of_ne_zero (Nat.ne_of_gt hfuel)
      refine ⟨s, ?_, h, (List.append_nil _).symm⟩
      rw [h.head]
      rfl
  | cons e L ih =>
      intro s fuel hfuel h
      obtain ⟨fuel, rfl⟩ := Nat.exists_eq_succ_of_ne_zero (Nat.ne_of_gt (Nat.zero_lt_of_lt hfuel))
      obtain ⟨nx, pv, hl, -⟩ := h.list (List.cons_ne_nil e L)
      have hhead : s.head = some e.id := h.head
      rw [List.length_cons] at hfuel
      rw [hhead]
      by_cases hlt : cur < e.expire
      · -- the first timer is not due: the loop breaks
        rw [pending_cons_of_lt hlt, due_cons_of_lt hlt]
        exact ⟨s, tickLoop_run_stop hl hlt, h, (List.append_nil _).symm⟩
      · have hle : e.expire ≤ cur := not_lt.mp hlt
        -- one turn fires it; it may be the last one
        have hstep : ∃ s₁, (tickLoop cur (fuel + 1) (some e.id)).run s =
              (tickLoop cur fuel s₁.head).run s₁ ∧ Linked P s₁ L ∧
              s₁.calls = s.calls ++ [e.call] := by
          cases L with
          | nil =>
              obtain ⟨s₁, hrun, hhead₁, hcalls₁⟩ := tickLoop_run_fire_last fuel hl hle
              exact ⟨s₁, by rw [hrun, hhead₁], .empty P hhead₁, hcalls₁⟩
          | cons b B =>
              obtain ⟨s₁, nx', pv', hrun, hl₁, hhead₁, hcalls₁, hfirst⟩ :=
                tickLoop_run_fire fuel hl h.nodup hle
              refine ⟨s₁, by rw [hrun, hhead₁], .of_listAt hl₁ (fun x hx => hx)
                (List.nodup_cons.mp h.nodup).2 hhead₁ ?_, hcalls₁⟩
              intro x hx
              cases hx
              rw [hfirst]
              exact hP _
        obtain ⟨s₁, hrun, h₁, hcalls₁⟩ := hstep
        obtain ⟨s', hrun', h', hcalls'⟩ := ih s₁ fuel (by omega) h₁
        rw [pending_cons_of_le hle, due_cons_of_le hle]
        refine ⟨s', hrun.trans hrun', h', ?_⟩
        rw [hcalls', hcalls₁, List.append_assoc]
        rfl

theorem tick_linked (hP : ∀ x, P x none) (h : Linked P s L) (hfuel : L.length < fuel) :
    ∃ s', (tick cur fuel).run s = .ok ((), s') ∧ Linked P s' (pending cur L) ∧
      s'.calls = s.calls ++ (due cur L).map Entry.call := by
  obtain ⟨s', hrun, h', hcalls⟩ := tickLoop_run cur hP L s fuel hfuel h
  refine ⟨s', ?_, h', hcalls⟩
  rw [tick]
  apply (run_bind_of_ok (run_get s) _).trans
  -- without a head `tick` returns at once, which the loop would do too
  by_cases hnone : s.head = none
  · rw [if_pos hnone]
    obtain ⟨fuel, rfl⟩ := Nat.exists_eq_succ_of_ne_zero (Nat.ne_of_gt (Nat.zero_lt_of_lt hfuel))
    rw [hnone] at hrun
    exact hrun
  · rw [if_neg hnone]
    exact hrun

theorem tick_run (hP : ∀ x, P x none) (h : Represents P s L) (hfuel : L.length < fuel) :
    ∃ s', (tick cur fuel).run s = .ok ((), s') ∧ Represents P s' (Op.sorted L (.tick cur)) ∧
      s'.calls = s.calls ++ Op.fired L (.tick cur) := by
  obtain ⟨s', hrun, h', hcalls⟩ := tick_linked hP h.linked hfuel
  exact ⟨s', hrun, h'.represents (h.ascending.sublist (List.dropWhile_sublist _)), hcalls⟩

end Tick

end CLanguageLearning.Timer
