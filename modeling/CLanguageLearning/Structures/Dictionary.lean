import CLanguageLearning.Foundation.CString
import CLanguageLearning.Foundation.Exec
import CLanguageLearning.Foundation.TailPointer

/-!
# The dictionary with cached hashes

`dictionary.cpp`: a linked list of pairs, each with the hash of its key. `push_back` appends, and
`operator[]` takes the first node whose hash is that of the key; the keys themselves are not
compared. The hash function is a parameter, since the language says no more of `std::hash` than that
it is a function.

`lookup_right_iff` says for which pairs and which key `operator[]` finds what it is asked for: no
pair before the first one with the key may have the same hash.
-/

set_option autoImplicit false

namespace CLanguageLearning.Structures

open CLanguageLearning.Foundation

/-- `pair`. -/
structure Pair where
  key : List UInt8
  value : Int32
  deriving DecidableEq

/-- `_node`, with `α` for addresses. -/
structure Node (α : Type) where
  data : Pair
  hash : UInt64
  next : Option α
  deriving DecidableEq

/-- `dictionary`, and the nodes that have been allocated. -/
structure Dictionary (α : Type) where
  node : α → Option (Node α)
  head : Option α
  tail : Option α
  size : UInt64

namespace Dictionary

variable {α : Type}

/-- After the default constructor. -/
def create : Dictionary α := ⟨fun _ => none, none, none, 0⟩

/-- Read the node a pointer points to. -/
def loadNode (p : Option α) : Exec (Dictionary α) (Node α) := do
  let s ← get
  match p.bind s.node with
  | none => throw .undefined
  | some n => return n

/-- What `operator[]` throws. -/
def missing (key : List UInt8) : List UInt8 := bytes "key '" ++ key ++ bytes "' doesn't exist."

section Operations

variable [DecidableEq α] (hash_fn : List UInt8 → UInt64)

/-- `p->next = v`. -/
def storeNext (p : Option α) (v : Option α) : Exec (Dictionary α) Unit := do
  match p with
  | none => throw .undefined
  | some x =>
      let n ← loadNode p
      modify fun s => { s with node := Function.update s.node x (some { n with next := v }) }

/-- `push_back`, with the address of the new node. -/
def push_back (d : Pair) (p : α) : Exec (Dictionary α) Unit := do
  modify fun s => { s with node := Function.update s.node p (some ⟨d, hash_fn d.key, none⟩) }
  let s ← get
  if s.head = none then modify fun s => { s with head := some p }
  else storeNext s.tail (some p)
  modify fun s => { s with tail := some p, size := s.size + 1 }

/-- The constructor with a list of pairs. -/
def dictionary : List (α × Pair) → Exec (Dictionary α) Unit
  | [] => return
  | (p, d) :: l => do
      push_back hash_fn d p
      dictionary l

/-- The loop of `operator[]`: the address of the node it refers to, or what it throws. -/
def findLoop (key : List UInt8) : Nat → Option α → Exec (Dictionary α) (Except (List UInt8) α)
  | 0, _ => throw .diverged
  | _ + 1, none => return .error (missing key)
  | fuel + 1, some p => do
      let n ← loadNode (some p)
      if hash_fn key = n.hash then return .ok p
      else findLoop key fuel n.next

/-- `operator[]`. -/
def index (key : List UInt8) (fuel : Nat) : Exec (Dictionary α) (Except (List UInt8) α) := do
  let s ← get
  findLoop hash_fn key fuel s.head

/-- Write through a reference to the value of the node at `p`. -/
def assign (p : α) (value : Int32) : Exec (Dictionary α) Unit := do
  let n ← loadNode (some p)
  modify fun s => { s with
    node := Function.update s.node p (some { n with data := { n.data with value := value } }) }

end Operations

/-- The next field of the node at an address. -/
def next (s : Dictionary α) (x : α) : Option α := (s.node x).bind Node.next

/-- The dictionary has the nodes `l`, each an address and a pair, in this order. -/
structure Holds (hash_fn : List UInt8 → UInt64) (s : Dictionary α) (l : List (α × Pair)) : Prop where
  queued : Queued s.head s.next (.behind s.tail) (l.map Prod.fst)
  node : ∀ p ∈ l, ∃ next, s.node p.1 = some ⟨p.2, hash_fn p.2.key, next⟩
  size : s.size = UInt64.ofNat l.length

/-- The pairs after the value of the one at `x` has been set. -/
def setValue [DecidableEq α] (l : List (α × Pair)) (x : α) (value : Int32) : List (α × Pair) :=
  l.map fun p => if p.1 = x then (x, { p.2 with value := value }) else p

/-- What `operator[]` answers: the first node with the hash of the key, or what it throws. -/
def answer (hash_fn : List UInt8 → UInt64) (l : List (α × Pair)) (key : List UInt8) :
    Except (List UInt8) α :=
  match l.find? fun p => hash_fn key = hash_fn p.2.key with
  | some p => .ok p.1
  | none => .error (missing key)

/-- `operator[]` refers to the value of the first pair with the key, and writing to it changes this
pair only; without such a pair it throws. -/
def LookupRight [DecidableEq α] (hash_fn : List UInt8 → UInt64) (s : Dictionary α)
    (l : List (α × Pair)) (key : List UInt8) : Prop :=
  match l.find? fun p => p.2.key = key with
  | some p => Returns (index hash_fn key) s (.ok p.1, s) ∧
      ∀ value, ∃ s', (assign p.1 value).run s = .ok ((), s') ∧ Holds hash_fn s' (setValue l p.1 value)
  | none => Returns (index hash_fn key) s (.error (missing key), s)

section Runs

variable {hash_fn : List UInt8 → UInt64} {s : Dictionary α} {l : List (α × Pair)} {x : α}
  {n : Node α} {d : Pair} {key : List UInt8}

theorem loadNode_run (h : s.node x = some n) : (loadNode (some x)).run s = .ok (n, s) := by
  simp [loadNode, h]

theorem next_eq (h : s.node x = some n) : s.next x = n.next := by
  simp [next, h]

theorem holds_create : Holds hash_fn (create : Dictionary α) [] :=
  ⟨.nil _, by simp, rfl⟩

/-- An address without a node is not in the list. -/
theorem Holds.notMem (h : Holds hash_fn s l) (hx : s.node x = none) : x ∉ l.map Prod.fst := by
  intro hmem
  obtain ⟨p, hp, rfl⟩ := List.mem_map.mp hmem
  obtain ⟨next, hn⟩ := h.node p hp
  rw [hx] at hn
  cases hn

/-- The nodes are compared one after another. -/
theorem findLoop_run {p : Option α} {fuel : Nat} (hfollows : Follows s.next p (l.map Prod.fst))
    (hnode : ∀ q ∈ l, ∃ next, s.node q.1 = some ⟨q.2, hash_fn q.2.key, next⟩)
    (hfuel : l.length < fuel) :
    (findLoop hash_fn key fuel p).run s = .ok (answer hash_fn l key, s) := by
  induction l generalizing p fuel with
  | nil =>
      obtain ⟨fuel, rfl⟩ := Nat.exists_eq_add_one.mpr hfuel
      cases hfollows
      rfl
  | cons q l ih =>
      obtain ⟨x, d⟩ := q
      obtain ⟨fuel, rfl⟩ := Nat.exists_eq_add_one.mpr (Nat.zero_lt_of_lt hfuel)
      obtain ⟨rfl, hrest⟩ := hfollows
      obtain ⟨next, hn⟩ := hnode (x, d) List.mem_cons_self
      rw [next_eq hn] at hrest
      rw [findLoop, run_bind_of_ok (loadNode_run hn)]
      by_cases hhash : hash_fn key = hash_fn d.key
      · simp [answer, hhash]
      · have htail := ih hrest (fun q hq => hnode q (List.mem_cons_of_mem _ hq))
          (Nat.lt_of_succ_lt_succ hfuel)
        simp [answer, hhash, htail]

theorem Holds.index_returns (h : Holds hash_fn s l) (key : List UInt8) :
    Returns (index hash_fn key) s (answer hash_fn l key, s) :=
  ⟨l.length + 1, fun _ hle => findLoop_run h.queued.follows h.node hle⟩

/-- Two searches, of which the second is the narrower one, find the same exactly when nothing that
only the first one is after comes before the end of the second. -/
theorem find?_eq_find?_iff {β : Type} {p q : β → Bool} {m : List β} (hqp : ∀ a, q a → p a) :
    m.find? p = m.find? q ↔ ∀ a ∈ m.takeWhile (fun a => !q a), p a = false := by
  induction m with
  | nil => simp
  | cons a m ih =>
      cases hq : q a with
      | true => simp [hq, hqp a hq]
      | false =>
          cases hp : p a with
          | false => simpa [hq, hp] using ih
          | true =>
              -- the second search goes on and does not end with `a`
              have hne : some a ≠ m.find? q := by
                intro he
                have ha := List.find?_some he.symm
                rw [hq] at ha
                cases ha
              simp [hq, hp, hne]

variable [DecidableEq α]

theorem storeNext_run (h : s.node x = some n) (v : Option α) :
    (storeNext (some x) v).run s =
      .ok ((), { s with node := Function.update s.node x (some { n with next := v }) }) := by
  simp only [storeNext]
  rw [run_bind_of_ok (loadNode_run h)]
  rfl

/-- The next fields after a node has been written. -/
theorem next_update (s : Dictionary α) (x : α) (n : Node α) :
    next { s with node := Function.update s.node x (some n) } =
      Function.update s.next x n.next :=
  bind_update Node.next s.node x (some n)

/-- What a pointer is set to leaves the pairs and their hashes as they are. -/
theorem node_update_next {node : α → Option (Node α)} {a : α}
    (h : ∀ p ∈ l, ∃ next, node p.1 = some ⟨p.2, hash_fn p.2.key, next⟩) (ha : node a = some n)
    (v : Option α) : ∀ p ∈ l, ∃ next,
      Function.update node a (some { n with next := v }) p.1 =
        some ⟨p.2, hash_fn p.2.key, next⟩ := by
  intro p hp
  obtain ⟨next, hn⟩ := h p hp
  rcases eq_or_ne p.1 a with he | hne
  · rw [he, ha] at hn
    cases hn
    exact ⟨v, by rw [he, Function.update_self]⟩
  · exact ⟨next, (Function.update_of_ne hne ..).trans hn⟩

/-- The state with a new node before `push_back` stores its address. -/
def withNode (s : Dictionary α) (p : α) (n : Node α) : Dictionary α :=
  { s with node := Function.update s.node p (some n) }

theorem push_back_run_first (hhead : s.head = none) :
    (push_back hash_fn d x).run s =
      .ok ((), { s.withNode x ⟨d, hash_fn d.key, none⟩ with
        head := some x
        tail := some x
        size := s.size + 1 }) := by
  simp only [push_back]
  simp [hhead]
  rfl

theorem push_back_run_last {a : α} (hhead : s.head ≠ none) (htail : s.tail = some a)
    (hn : (s.withNode x ⟨d, hash_fn d.key, none⟩).node a = some n) :
    (push_back hash_fn d x).run s =
      .ok ((), { s with
        node := Function.update (s.withNode x ⟨d, hash_fn d.key, none⟩).node a
          (some { n with next := some x })
        tail := some x
        size := s.size + 1 }) := by
  have hstore := storeNext_run hn (some x)
  simp only [withNode, htail] at hstore
  simp only [push_back]
  simp [hhead, htail, hstore]
  rfl

/-- `push_back` appends the pair. -/
theorem push_back_run (h : Holds hash_fn s l) (hx : s.node x = none) (d : Pair) :
    ∃ s', (push_back hash_fn d x).run s = .ok ((), s') ∧ Holds hash_fn s' (l ++ [(x, d)]) ∧
      ∀ y, y ≠ x → s.node y = none → s'.node y = none := by
  have hnotMem := h.notMem hx
  have hself : (s.withNode x ⟨d, hash_fn d.key, none⟩).node x = some ⟨d, hash_fn d.key, none⟩ :=
    Function.update_self ..
  have hother : ∀ y, y ≠ x → (s.withNode x ⟨d, hash_fn d.key, none⟩).node y = s.node y :=
    fun y hy => Function.update_of_ne hy ..
  have halloc : Queued s.head (s.withNode x ⟨d, hash_fn d.key, none⟩).next (.behind s.tail)
      (l.map Prod.fst) := by
    rw [withNode, next_update]
    exact h.queued.update hnotMem none
  have hpush := halloc.push hnotMem (next_eq hself)
  have hnode : ∀ p ∈ l ++ [(x, d)], ∃ next,
      (s.withNode x ⟨d, hash_fn d.key, none⟩).node p.1 = some ⟨p.2, hash_fn p.2.key, next⟩ := by
    intro p hp
    rcases List.mem_append.mp hp with hp | hp
    · obtain ⟨next, hn⟩ := h.node p hp
      have hne : p.1 ≠ x := fun he => hnotMem (he ▸ List.mem_map_of_mem hp)
      exact ⟨next, (hother p.1 hne).trans hn⟩
    · rw [List.mem_singleton.mp hp]
      exact ⟨none, hself⟩
  have hsize : s.size + 1 = UInt64.ofNat (l ++ [(x, d)]).length := by
    rw [h.size, List.length_append, List.length_singleton, UInt64.ofNat_add]
    rfl
  have hmap : (l ++ [(x, d)]).map Prod.fst = l.map Prod.fst ++ [x] := by simp
  rcases List.eq_nil_or_concat' l with rfl | ⟨l, ⟨a, u⟩, rfl⟩
  · have htail : s.tail = none := Slot.behind_injective h.queued.tail
    rw [htail] at hpush
    refine ⟨_, push_back_run_first h.queued.head_nil, ⟨hmap ▸ hpush, hnode, hsize⟩, ?_⟩
    exact fun y hy hnone => (hother y hy).trans hnone
  · have hhead : s.head ≠ none := by
      rw [h.queued.follows.head]
      simp
    have htail : s.tail = some a := by
      apply Slot.behind_injective
      rw [h.queued.tail, List.map_append]
      exact lastSlot_concat ..
    obtain ⟨next, hn⟩ := hnode (a, u) (by simp)
    rw [htail] at hpush
    have hnext := next_update (s.withNode x ⟨d, hash_fn d.key, none⟩) a
      ⟨u, hash_fn u.key, some x⟩
    refine ⟨_, push_back_run_last hhead htail hn,
      ⟨?_, node_update_next hnode hn (some x), hsize⟩, ?_⟩
    · rw [hmap]
      exact hnext ▸ hpush
    -- the last node was allocated before
    · intro y hy hnone
      have hne : y ≠ a := by
        rintro rfl
        rw [hother y hy, hnone] at hn
        cases hn
      exact (Function.update_of_ne hne ..).trans ((hother y hy).trans hnone)

/-- The pairs that are pushed are in the list, when each has an address of its own. -/
theorem dictionary_run {m : List (α × Pair)} (h : Holds hash_fn s m)
    (hnodup : (l.map Prod.fst).Nodup) (hnew : ∀ x ∈ l.map Prod.fst, s.node x = none) :
    ∃ s', (dictionary hash_fn l).run s = .ok ((), s') ∧ Holds hash_fn s' (m ++ l) := by
  induction l generalizing s m with
  | nil => exact ⟨s, rfl, by rwa [List.append_nil]⟩
  | cons p l ih =>
      obtain ⟨x, d⟩ := p
      rw [List.map_cons] at hnodup hnew
      obtain ⟨hx, hrest⟩ := List.nodup_cons.mp hnodup
      obtain ⟨t, hpush, ht, hframe⟩ := push_back_run h (hnew x List.mem_cons_self) d
      obtain ⟨s', hrun, hs'⟩ := ih ht hrest fun y hy => by
        apply hframe y
        · rintro rfl
          exact hx hy
        · exact hnew y (List.mem_cons_of_mem x hy)
      refine ⟨s', ?_, ?_⟩
      · rw [dictionary, run_bind_of_ok hpush]
        exact hrun
      · rw [List.append_assoc] at hs'
        exact hs'

omit [DecidableEq α] in
theorem Holds.eq_of_fst_eq {p q : α × Pair} (h : Holds hash_fn s l) (hp : p ∈ l) (hq : q ∈ l)
    (he : p.1 = q.1) : p = q :=
  List.inj_on_of_nodup_map h.queued.nodup hp hq he

theorem map_fst_setValue (l : List (α × Pair)) (x : α) (value : Int32) :
    (setValue l x value).map Prod.fst = l.map Prod.fst := by
  rw [setValue, List.map_map]
  apply List.map_congr_left
  intro p _
  by_cases hp : p.1 = x
  · simp [hp]
  · simp [hp]

/-- Writing through a reference sets the value of one pair. -/
theorem Holds.assign_run {p : α × Pair} (h : Holds hash_fn s l) (hp : p ∈ l) (value : Int32) :
    ∃ s', (assign p.1 value).run s = .ok ((), s') ∧ Holds hash_fn s' (setValue l p.1 value) := by
  obtain ⟨x, d⟩ := p
  obtain ⟨nx, hn⟩ := h.node (x, d) hp
  have hload := loadNode_run hn
  have hupdate := next_update s x ⟨{ d with value := value }, hash_fn d.key, nx⟩
  -- the links stay as they are
  rw [← next_eq hn, Function.update_eq_self] at hupdate
  refine ⟨{ s with
    node := Function.update s.node x (some ⟨{ d with value := value }, hash_fn d.key, nx⟩) },
    ?_, ⟨?_, ?_, ?_⟩⟩
  · rw [assign, run_bind_of_ok hload]
    rfl
  · rw [map_fst_setValue]
    exact hupdate.symm ▸ h.queued
  · intro q hq
    obtain ⟨p, hpl, rfl⟩ := List.mem_map.mp hq
    by_cases he : p.1 = x
    · have hpd : p = (x, d) := h.eq_of_fst_eq hpl hp he
      subst hpd
      exact ⟨nx, by simp⟩
    · obtain ⟨next, hnode⟩ := h.node p hpl
      refine ⟨next, ?_⟩
      rw [if_neg he]
      exact (Function.update_of_ne he ..).trans hnode
  · rw [h.size, setValue, List.length_map]

/-- `operator[]` is right when the search for the hash finds what a search for the key would. -/
theorem Holds.lookup_iff_find (h : Holds hash_fn s l) (key : List UInt8) :
    LookupRight hash_fn s l key ↔
      (l.find? fun p => hash_fn key = hash_fn p.2.key) = l.find? fun p => p.2.key = key := by
  have hindex := h.index_returns key
  rw [LookupRight]
  cases hkey : l.find? fun p => p.2.key = key with
  | none =>
      constructor
      · intro hright
        have hanswer := congrArg Prod.fst (hindex.unique hright)
        simp only [answer] at hanswer
        split at hanswer
        · cases hanswer
        · assumption
      · intro hfind
        rw [answer, hfind] at hindex
        exact hindex
  | some p =>
      have hp : p ∈ l := List.mem_of_find?_eq_some hkey
      constructor
      · rintro ⟨hright, -⟩
        have hanswer := congrArg Prod.fst (hindex.unique hright)
        simp only [answer] at hanswer
        split at hanswer
        next q hq =>
          rw [Except.ok.injEq] at hanswer
          rw [hq, h.eq_of_fst_eq (List.mem_of_find?_eq_some hq) hp hanswer]
        next => cases hanswer
      · intro hfind
        rw [answer, hfind] at hindex
        exact ⟨hindex, h.assign_run hp⟩

/-- For every hash function, every pairs and every key: after the pairs have been pushed,
`operator[]` is right exactly when no pair before the first one with the key, or no pair at all if
there is none, has the hash of the key. -/
theorem lookup_right_iff (hash_fn : List UInt8 → UInt64) {l : List (α × Pair)}
    (hnodup : (l.map Prod.fst).Nodup) (key : List UInt8) :
    ∃ s, (dictionary hash_fn l).run create = .ok ((), s) ∧ Holds hash_fn s l ∧
      (LookupRight hash_fn s l key ↔
        ∀ p ∈ l.takeWhile fun p => p.2.key ≠ key, hash_fn p.2.key ≠ hash_fn key) := by
  obtain ⟨s, hrun, hs⟩ := dictionary_run holds_create hnodup fun _ _ => rfl
  rw [List.nil_append] at hs
  refine ⟨s, hrun, hs, ?_⟩
  rw [hs.lookup_iff_find, find?_eq_find?_iff]
  · simp [eq_comm]
  · intro p hp
    simp only [decide_eq_true_eq] at hp
    simp [hp]

/-- The pairs of `main`, with a hash function that tells their keys apart. -/
theorem lookup_right_iff_four : ∃ s : Dictionary Nat,
    LookupRight (fun key => key.foldl (fun h c => 31 * h + c.toUInt64) 0) s
      [(8, ⟨bytes "one", 1⟩), (16, ⟨bytes "two", 2⟩), (24, ⟨bytes "three", 3⟩),
        (32, ⟨bytes "four", 4⟩)] (bytes "four") := by
  obtain ⟨s, -, -, hright⟩ := lookup_right_iff (fun key => key.foldl
    (fun h c => 31 * h + c.toUInt64) 0) (l := [(8, ⟨bytes "one", 1⟩), (16, ⟨bytes "two", 2⟩),
      (24, ⟨bytes "three", 3⟩), (32, ⟨bytes "four", 4⟩)]) (by decide) (bytes "four")
  exact ⟨s, hright.mpr (by decide)⟩

/-- With one hash for all keys, `two` is found at the pair of `one`. -/
theorem lookup_finds_other_key : ∃ s : Dictionary Nat,
    (dictionary (fun _ => 0) [(8, ⟨bytes "one", 1⟩), (16, ⟨bytes "two", 2⟩)]).run create =
        .ok ((), s) ∧
      Returns (index (fun _ => 0) (bytes "two")) s (.ok 8, s) ∧
      ¬ LookupRight (fun _ => 0) s [(8, ⟨bytes "one", 1⟩), (16, ⟨bytes "two", 2⟩)] (bytes "two") := by
  have hempty : Holds (fun _ => 0) (create : Dictionary Nat) [] := holds_create
  obtain ⟨s, hrun, hs⟩ := dictionary_run hempty
    (l := [(8, ⟨bytes "one", 1⟩), (16, ⟨bytes "two", 2⟩)]) (by decide) fun _ _ => rfl
  refine ⟨s, hrun, hs.index_returns (bytes "two"), fun hright => ?_⟩
  have hfind := (hs.lookup_iff_find (bytes "two")).mp hright
  revert hfind
  decide

end Runs

end Dictionary

end CLanguageLearning.Structures
