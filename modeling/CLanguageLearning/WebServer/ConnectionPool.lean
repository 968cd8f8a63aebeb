import Mathlib.Data.List.Duplicate
import CLanguageLearning.WebServer.RequestPool

/-!
# The database connection pool of the webserver

`connection_pool` and `connectionRAII` of the webserver: a list of connections under a lock, a
semaphore that counts them, and scopes that take a connection when they are built and give it back
when they end. The list and the semaphore change in separate steps, and the test for an empty list
is made without the lock. `Counted` says what the list, the semaphore, the two counters and the
scopes have to do with each other in every reachable state.

A step is the unlocked test, a call on the semaphore, or a whole critical section, so between two
steps the lock is free.
-/

set_option autoImplicit false

namespace CLanguageLearning.WebServer

open CLanguageLearning.Foundation

/-- The members of `connection_pool` that the lock protects. -/
structure ConnectionPool (C : Type) where
  connList : List C
  m_FreeConn : Int
  m_CurConn : Int
  m_MaxConn : Int
  deriving DecidableEq, Repr

namespace ConnectionPool

variable {C : Type}

/-- The pool after its construction, which does not set `m_MaxConn`. -/
def empty : ConnectionPool C := ⟨[], 0, 0, 0⟩

/-- The first `n` turns of the loop of `init`. `connect i` is what turn `i` gets from the database
library, `none` for a null pointer, after which the program exits. -/
def initLoop (connect : Nat → Option C) : Nat → Option (ConnectionPool C)
  | 0 => some empty
  | n + 1 =>
      (initLoop connect n).bind fun q =>
        (connect n).map fun con =>
          { q with connList := q.connList ++ [con], m_FreeConn := q.m_FreeConn + 1 }

/-- The critical section of `GetConnection`. -/
def takeConnection : Exec (ConnectionPool C) C := do
  let q ← get
  match q.connList with
  | [] => throw .undefined
  | con :: rest =>
      set { q with
        connList := rest
        m_FreeConn := q.m_FreeConn - 1
        m_CurConn := q.m_CurConn + 1 }
      return con

theorem takeConnection_run {q : ConnectionPool C} {con : C} {rest : List C}
    (hlist : q.connList = con :: rest) : (takeConnection (C := C)).run q = .ok (con, { q with
      connList := rest
      m_FreeConn := q.m_FreeConn - 1
      m_CurConn := q.m_CurConn + 1 }) := by
  simp [takeConnection, hlist]

/-- The critical section of `ReleaseConnection`. -/
def returnConnection (con : C) : Exec (ConnectionPool C) Unit :=
  modify fun q => { q with
    connList := q.connList ++ [con]
    m_FreeConn := q.m_FreeConn + 1
    m_CurConn := q.m_CurConn - 1 }

end ConnectionPool

/-- Where a thread is in `GetConnection` and `ReleaseConnection`. -/
inductive Borrower where
  | outside
  /-- The list was not empty; before the end of `reserve.wait()`. -/
  | waiting
  /-- With a permit, before the critical section of `GetConnection`. -/
  | popping
  /-- After the critical section of `ReleaseConnection`, before `reserve.post()`. -/
  | posting
  deriving DecidableEq, Repr

/-- A pool used by the threads `ι`. The scopes of a thread are those it has built and not yet left,
each with its `conRAII`, `none` for a null pointer. -/
structure Borrowers (ι C : Type) where
  pool : ConnectionPool C
  reserve : Nat
  point : ι → Borrower
  scopes : ι → List (Option C)

/-- What can happen next. A thread leaves its scope number `k`. -/
inductive BorrowEvent (ι : Type) where
  | test (i : ι)
  | wait (i : ι)
  | pop (i : ι)
  | release (i : ι) (k : Nat)
  | post (i : ι)
  deriving DecidableEq, Repr

namespace Borrowers

variable {ι C : Type}

/-- `init(MaxConn)`, before the first scope. -/
def init (ι : Type) (MaxConn : Int) (connect : Nat → Option C) : Option (Borrowers ι C) :=
  (ConnectionPool.initLoop connect MaxConn.toNat).map fun q =>
    { pool := { q with m_MaxConn := q.m_FreeConn }
      reserve := q.m_FreeConn.toNat
      point := fun _ => .outside
      scopes := fun _ => [] }

variable [DecidableEq ι]

/-- The thread `i` goes to the point `p` with the given scopes. -/
def move (s : Borrowers ι C) (i : ι) (p : Borrower) (scopes : List (Option C)) : Borrowers ι C :=
  { s with
    point := Function.update s.point i p
    scopes := Function.update s.scopes i scopes }

def step (s : Borrowers ι C) : BorrowEvent ι → Option (Borrowers ι C)
  | .test i =>
      if s.point i = .outside then
        -- with an empty list the scope is built around a null pointer
        if s.pool.connList.length = 0 then some (s.move i .outside (s.scopes i ++ [none]))
        else some (s.move i .waiting (s.scopes i))
      else none
  | .wait i =>
      if s.point i = .waiting ∧ 0 < s.reserve then
        some ({ s with reserve := s.reserve - 1 }.move i .popping (s.scopes i))
      else none
  | .pop i =>
      if s.point i = .popping then
        match (ConnectionPool.takeConnection (C := C)).run s.pool with
        | .error _ => none
        | .ok (con, pool) =>
            some ({ s with pool := pool }.move i .outside (s.scopes i ++ [some con]))
      else none
  | .release i k =>
      if s.point i = .outside then
        match (s.scopes i)[k]? with
        | none => none
        | some none => some (s.move i .outside ((s.scopes i).eraseIdx k))
        | some (some con) =>
            match (ConnectionPool.returnConnection con).run s.pool with
            | .error _ => none
            | .ok (_, pool) =>
                some ({ s with pool := pool }.move i .posting ((s.scopes i).eraseIdx k))
      else none
  | .post i =>
      if s.point i = .posting then
        some ({ s with reserve := min (s.reserve + 1) SEM_VALUE_MAX }.move i .outside (s.scopes i))
      else none

/-- The scope number `k` of the thread `i` holds the connection. -/
def Holds (s : Borrowers ι C) (i : ι) (k : Nat) (con : C) : Prop :=
  (s.scopes i)[k]? = some (some con)

/-- The number of scopes that hold a connection. -/
def held [Fintype ι] [DecidableEq C] (s : Borrowers ι C) (con : C) : Nat :=
  ∑ i, (s.scopes i).count (some con)

variable [Fintype ι] [DecidableEq C]

/-- The counts of a pool of the connections `conns`. Every connection in the list has a permit, or
a thread with a permit that is about to take one, or a thread that is about to post the permit of
the one it has given back. -/
structure Counted (conns : List C) (s : Borrowers ι C) : Prop where
  permits : s.pool.connList.length =
    s.reserve + countAt (· = .popping) s.point + countAt (· = .posting) s.point
  free : s.pool.m_FreeConn = s.pool.connList.length
  total : s.pool.m_FreeConn + s.pool.m_CurConn = s.pool.m_MaxConn
  max : s.pool.m_MaxConn = conns.length
  members : ∀ con, s.pool.connList.count con + s.held con = conns.count con

section Init

variable {MaxConn : Int} {connect : Nat → Option C} {s : Borrowers ι C} {n : Nat}

omit [DecidableEq C] in
/-- The pool after some turns of the loop holds what the library has returned so far. -/
theorem initLoop_eq {q : ConnectionPool C}
    (h : ConnectionPool.initLoop connect n = some q) :
    q.connList = (List.range n).filterMap connect ∧ q.m_FreeConn = q.connList.length ∧
      q.m_CurConn = 0 ∧ q.connList.length = n := by
  induction n generalizing q with
  | zero =>
      cases h
      exact ⟨rfl, rfl, rfl, rfl⟩
  | succ n ih =>
      rw [ConnectionPool.initLoop, Option.bind_eq_some_iff] at h
      obtain ⟨q', hq', h⟩ := h
      rw [Option.map_eq_some_iff] at h
      obtain ⟨con, hcon, rfl⟩ := h
      obtain ⟨hlist, hfree, hcur, hlen⟩ := ih hq'
      refine ⟨?_, ?_, hcur, ?_⟩
      · rw [List.range_succ, List.filterMap_append, ← hlist, List.filterMap_cons_some hcon,
          List.filterMap_nil]
      · show q'.m_FreeConn + 1 = _
        rw [hfree, List.length_append, List.length_singleton]
        push_cast
        rfl
      · rw [List.length_append, hlen, List.length_singleton]

omit [DecidableEq ι] in
theorem counted_init (h : init ι MaxConn connect = some s) :
    s.Counted ((List.range MaxConn.toNat).filterMap connect) ∧
      ((List.range MaxConn.toNat).filterMap connect).length = MaxConn.toNat := by
  rw [init, Option.map_eq_some_iff] at h
  obtain ⟨q, hq, rfl⟩ := h
  obtain ⟨hlist, hfree, hcur, hlen⟩ := initLoop_eq hq
  refine ⟨?_, hlist ▸ hlen⟩
  constructor
  case permits => simp [countAt, hfree]
  case free => exact hfree
  case total =>
    show q.m_FreeConn + q.m_CurConn = q.m_FreeConn
    rw [hcur, add_zero]
  case max => rw [← hlist]; exact hfree
  case members => simp [held, hlist]

end Init

section Steps

variable {conns : List C} {s t : Borrowers ι C} {i : ι} {k : Nat} {con : C}

omit [DecidableEq C] in
/-- Among the connections a pool hands out none comes twice, when the library never returns one that
it has returned before. -/
theorem nodup_connected {connect : Nat → Option C}
    (hfresh : ∀ m n con, connect m = some con → connect n = some con → m = n) (n : Nat) :
    ((List.range n).filterMap connect).Nodup :=
  List.Nodup.filterMap (fun m m' con hm hm' => hfresh m m' con hm hm') List.nodup_range

/-- The scopes of the other threads stay. -/
theorem held_move (s : Borrowers ι C) (i : ι) (p : Borrower) (l : List (Option C)) (con : C) :
    (s.move i p l).held con + (s.scopes i).count (some con) = s.held con + l.count (some con) :=
  sum_update_add (fun l => l.count (some con)) s.scopes i l

omit [DecidableEq ι] in
/-- A connection in the list of a pool whose connections are distinct is there once and in no scope;
one that is not in the list is in a scope. -/
theorem Counted.count_le_one (h : s.Counted conns) (hnodup : conns.Nodup) (con : C) :
    s.pool.connList.count con + s.held con ≤ 1 := by
  rw [h.members con]
  exact List.nodup_iff_count_le_one.mp hnodup con

/-- A thread moves, the permits follow it, and its scopes hold the connections they held. -/
theorem Counted.moved {p : Borrower} {reserve : Nat} {l : List (Option C)} (h : s.Counted conns)
    (hpermits : s.reserve + countAt (· = .popping) s.point + countAt (· = .posting) s.point =
      reserve + countAt (· = .popping) (Function.update s.point i p) +
        countAt (· = .posting) (Function.update s.point i p))
    (hl : ∀ con, l.count (some con) = (s.scopes i).count (some con)) :
    Counted conns ({ s with reserve := reserve }.move i p l) where
  permits := h.permits.trans hpermits
  free := h.free
  total := h.total
  max := h.max
  members := by
    intro con
    have hheld := held_move { s with reserve := reserve } i p l con
    have hmem := h.members con
    have hsame : held { s with reserve := reserve } con = s.held con := rfl
    have hcount := hl con
    show s.pool.connList.count con + _ = _
    dsimp only at hheld
    omega

/-- With a permit the list is not empty. -/
theorem Counted.connList_ne_nil (h : s.Counted conns) (hi : s.point i = .popping) :
    s.pool.connList ≠ [] := by
  have hleave : countAt (· = .popping) (Function.update s.point i .outside) + 1 =
      countAt (· = .popping) s.point := countAt_update_leave hi (by simp)
  have hpermits := h.permits
  intro hnil
  rw [hnil, List.length_nil] at hpermits
  omega

/-- The first connection goes into a new scope. -/
theorem Counted.pop {rest : List C} (h : s.Counted conns) (hi : s.point i = .popping)
    (hlist : s.pool.connList = con :: rest) :
    Counted conns ({ s with pool := { s.pool with
      connList := rest
      m_FreeConn := s.pool.m_FreeConn - 1
      m_CurConn := s.pool.m_CurConn + 1 } }.move i .outside (s.scopes i ++ [some con])) where
  permits := by
    have hpop : countAt (· = .popping) (Function.update s.point i .outside) + 1 =
        countAt (· = .popping) s.point := countAt_update_leave hi (by simp)
    have hpost : countAt (· = .posting) (Function.update s.point i .outside) =
        countAt (· = .posting) s.point := countAt_update_of_iff (by simp [hi])
    have hpermits := h.permits
    rw [hlist, List.length_cons] at hpermits
    simp only [move]
    omega
  free := by
    have hfree := h.free
    rw [hlist, List.length_cons] at hfree
    simp only [move]
    omega
  total := by
    have htotal := h.total
    simp only [move]
    omega
  max := h.max
  members := by
    intro c
    have hheld := held_move s i .outside (s.scopes i ++ [some con]) c
    have hmem := h.members c
    rw [List.count_append, List.count_singleton] at hheld
    rw [hlist, List.count_cons] at hmem
    show rest.count c + (s.move i .outside (s.scopes i ++ [some con])).held c = _
    -- the connection leaves the list and is counted in the scope
    by_cases hc : con = c
    · subst hc
      simp only [beq_self_eq_true, if_true] at hheld hmem
      omega
    · rw [if_neg (by simpa using hc)] at hheld hmem
      omega

/-- The connection of a scope that ends goes back to the list. -/
theorem Counted.push (h : s.Counted conns) (hi : s.point i = .outside)
    (hk : (s.scopes i)[k]? = some (some con)) :
    Counted conns ({ s with pool := { s.pool with
      connList := s.pool.connList ++ [con]
      m_FreeConn := s.pool.m_FreeConn + 1
      m_CurConn := s.pool.m_CurConn - 1 } }.move i .posting ((s.scopes i).eraseIdx k)) where
  permits := by
    have hpop : countAt (· = .popping) (Function.update s.point i .posting) =
        countAt (· = .popping) s.point := countAt_update_of_iff (by simp [hi])
    have hpost : countAt (· = .posting) (Function.update s.point i .posting) =
        countAt (· = .posting) s.point + 1 := countAt_update_enter (by simp [hi]) rfl
    have hpermits := h.permits
    simp only [move, List.length_append, List.length_singleton]
    omega
  free := by
    have hfree := h.free
    simp only [move, List.length_append, List.length_singleton]
    omega
  total := by
    have htotal := h.total
    simp only [move]
    omega
  max := h.max
  members := by
    intro c
    obtain ⟨hlt, hget⟩ := List.getElem?_eq_some_iff.mp hk
    have hperm := (List.getElem_cons_eraseIdx_perm hlt).count_eq (some c)
    rw [hget, List.count_cons] at hperm
    have hheld := held_move s i .posting ((s.scopes i).eraseIdx k) c
    have hmem := h.members c
    show (s.pool.connList ++ [con]).count c +
      (s.move i .posting ((s.scopes i).eraseIdx k)).held c = _
    rw [List.count_append, List.count_singleton]
    by_cases hc : con = c
    · subst hc
      simp only [beq_self_eq_true, if_true] at hperm ⊢
      omega
    · rw [if_neg (by simpa using hc)] at hperm ⊢
      omega

/-- Nothing else is counted when a thread stays outside. -/
theorem Counted.stay {l : List (Option C)} (h : s.Counted conns) (hi : s.point i = .outside)
    (hl : ∀ con, l.count (some con) = (s.scopes i).count (some con)) :
    (s.move i .outside l).Counted conns := by
  apply h.moved _ hl
  rw [countAt_update_of_iff (by simp [hi]), countAt_update_of_iff (by simp [hi])]

/-- There are no more permits than connections, and so no more than a semaphore can have. -/
theorem Counted.reserve_lt (h : s.Counted conns) (hi : s.point i = .posting) :
    s.reserve < conns.length := by
  have hsub : s.pool.connList.Subperm conns := by
    rw [List.subperm_ext_iff]
    intro con _
    have := h.members con
    omega
  have hleave : countAt (· = .posting) (Function.update s.point i .outside) + 1 =
      countAt (· = .posting) s.point := countAt_update_leave hi (by simp)
  have hlen := hsub.length_le
  have hpermits := h.permits
  omega

/-- A permit goes to the thread that waits for it. -/
theorem Counted.takePermit (h : s.Counted conns) (hi : s.point i = .waiting)
    (hpos : 0 < s.reserve) :
    Counted conns ({ s with reserve := s.reserve - 1 }.move i .popping (s.scopes i)) := by
  apply h.moved _ fun con => rfl
  have hpop : countAt (· = .popping) (Function.update s.point i .popping) =
      countAt (· = .popping) s.point + 1 := countAt_update_enter (by simp [hi]) rfl
  have hpost : countAt (· = Borrower.posting) (Function.update s.point i .popping) =
      countAt (· = Borrower.posting) s.point := countAt_update_of_iff (by simp [hi])
  rw [hpop, hpost]
  omega

/-- The permit of a connection that is in the list again is posted. -/
theorem Counted.postPermit (h : s.Counted conns) (hint : conns.length ≤ INT_MAX)
    (hi : s.point i = .posting) :
    Counted conns
      ({ s with reserve := min (s.reserve + 1) SEM_VALUE_MAX }.move i .outside (s.scopes i)) := by
  have hlen : s.reserve + 1 ≤ SEM_VALUE_MAX := (h.reserve_lt hi).trans_le hint
  apply h.moved _ fun con => rfl
  have hpop : countAt (· = Borrower.popping) (Function.update s.point i .outside) =
      countAt (· = Borrower.popping) s.point := countAt_update_of_iff (by simp [hi])
  have hpost : countAt (· = .posting) (Function.update s.point i .outside) + 1 =
      countAt (· = .posting) s.point := countAt_update_leave hi (by simp)
  rw [hpop, Nat.min_eq_left hlen]
  omega

/-- A scope around a null pointer ends. -/
theorem Counted.dropNull (h : s.Counted conns) (hi : s.point i = .outside)
    (hk : (s.scopes i)[k]? = some none) :
    (s.move i .outside ((s.scopes i).eraseIdx k)).Counted conns := by
  obtain ⟨hlt, hget⟩ := List.getElem?_eq_some_iff.mp hk
  apply h.stay hi
  intro con
  have hperm := (List.getElem_cons_eraseIdx_perm hlt).count_eq (some con)
  rwa [hget, List.count_cons, if_neg (by simp), Nat.add_zero] at hperm

/-- Every step keeps the counts. -/
theorem Counted.step {e : BorrowEvent ι} (h : s.Counted conns) (hint : conns.length ≤ INT_MAX)
    (hstep : s.step e = some t) : t.Counted conns := by
  cases e with
  | test i =>
      rw [Borrowers.step] at hstep
      split at hstep
      · next hi =>
          split at hstep
          · cases hstep
            exact h.stay hi fun con => by simp [List.count_append]
          · cases hstep
            apply h.moved _ fun con => rfl
            rw [countAt_update_of_iff (by simp [hi]), countAt_update_of_iff (by simp [hi])]
      · cases hstep
  | wait i =>
      rw [Borrowers.step] at hstep
      split at hstep
      · next hi =>
          cases hstep
          exact h.takePermit hi.1 hi.2
      · cases hstep
  | pop i =>
      rw [Borrowers.step] at hstep
      split at hstep
      · next hi =>
          cases hlist : s.pool.connList with
          | nil => exact absurd hlist (h.connList_ne_nil hi)
          | cons con rest =>
              rw [ConnectionPool.takeConnection_run hlist] at hstep
              cases hstep
              exact h.pop hi hlist
      · cases hstep
  | release i k =>
      rw [Borrowers.step] at hstep
      split at hstep
      · next hi =>
          split at hstep
          · cases hstep
          · next hk =>
              cases hstep
              exact h.dropNull hi hk
          · next con hk =>
              cases hstep
              exact h.push hi hk
      · cases hstep
  | post i =>
      rw [Borrowers.step] at hstep
      split at hstep
      · next hi =>
          cases hstep
          exact h.postPermit hint hi
      · cases hstep

end Steps

section Runs

variable {s t : Borrowers ι C}

omit [DecidableEq ι] in
/-- No connection is held twice. -/
theorem Counted.holds_unique {conns : List C} (h : s.Counted conns) (hnodup : conns.Nodup)
    {i j : ι} {k m : Nat} {con : C} (hk : s.Holds i k con) (hm : s.Holds j m con) :
    i = j ∧ k = m := by
  classical
  have hle := h.count_le_one hnodup con
  have hcount : ∀ i k, s.Holds i k con → 1 ≤ (s.scopes i).count (some con) := fun i k hk =>
    List.one_le_count_iff.mpr (List.mem_of_getElem? hk)
  by_cases hij : i = j
  · subst hij
    refine ⟨rfl, ?_⟩
    have hsingle : (s.scopes i).count (some con) ≤ s.held con :=
      Finset.single_le_sum (f := fun i => (s.scopes i).count (some con)) (fun _ _ => Nat.zero_le _)
        (Finset.mem_univ i)
    obtain ⟨hk, hgetk⟩ := List.getElem?_eq_some_iff.mp hk
    obtain ⟨hm, hgetm⟩ := List.getElem?_eq_some_iff.mp hm
    -- two places of one list would count twice
    have hno : ∀ a b : Fin (s.scopes i).length, (s.scopes i).get a = some con →
        (s.scopes i).get b = some con → ¬ a < b := by
      intro a b ha hb hab
      have hdup : List.Duplicate (some con) (s.scopes i) :=
        List.duplicate_iff_exists_distinct_get.mpr ⟨a, b, hab, ha.symm, hb.symm⟩
      have htwo : 2 ≤ (s.scopes i).count (some con) :=
        List.replicate_sublist_iff.mp (List.duplicate_iff_sublist.mp hdup)
      omega
    have hkm := hno ⟨k, hk⟩ ⟨m, hm⟩ hgetk hgetm
    have hmk := hno ⟨m, hm⟩ ⟨k, hk⟩ hgetm hgetk
    simp only [Fin.mk_lt_mk] at hkm hmk
    omega
  · have hpair : ∑ a ∈ {i, j}, (s.scopes a).count (some con) ≤ s.held con :=
      Finset.sum_le_sum_of_subset (Finset.subset_univ _)
    rw [Finset.sum_pair hij] at hpair
    have hi := hcount i k hk
    have hj := hcount j m hm
    omega

omit [DecidableEq ι] in
/-- A connection of the pool is in the list, once and in no scope, or in exactly one scope. -/
theorem Counted.somewhere {conns : List C} (h : s.Counted conns) (hnodup : conns.Nodup) {con : C}
    (hcon : con ∈ conns) :
    (s.pool.connList.count con = 1 ∧ ∀ i k, ¬ s.Holds i k con) ∨
      (con ∉ s.pool.connList ∧ ∃ i k, s.Holds i k con) := by
  have hone : s.pool.connList.count con + s.held con = 1 := by
    rw [h.members con]
    exact List.count_eq_one_of_mem hnodup hcon
  by_cases hlist : con ∈ s.pool.connList
  · have hpos := List.one_le_count_iff.mpr hlist
    refine Or.inl ⟨by omega, ?_⟩
    intro i k hk
    have hzero : s.held con = 0 := by omega
    have hcount := Finset.sum_eq_zero_iff.mp hzero i (Finset.mem_univ i)
    exact List.count_eq_zero.mp hcount (List.mem_of_getElem? hk)
  · have hzero := List.count_eq_zero.mpr hlist
    refine Or.inr ⟨hlist, ?_⟩
    obtain ⟨i, -, hi⟩ := Finset.exists_ne_zero_of_sum_ne_zero
      (show ∑ i, (s.scopes i).count (some con) ≠ 0 by rw [held] at hone; omega)
    have hmem : some con ∈ s.scopes i := by
      by_contra hno
      exact hi (List.count_eq_zero.mpr hno)
    obtain ⟨k, hk⟩ := List.mem_iff_getElem?.mp hmem
    exact ⟨i, k, hk⟩

/-- For any number of threads and every interleaving: a thread that is about to take a connection
finds one, no connection is held by two scopes, every connection is in the list once or held by one
scope, and the counters of the pool are right. -/
theorem exclusive {MaxConn : Int} {connect : Nat → Option C} (hint : MaxConn ≤ INT_MAX)
    (hfresh : ∀ m n con, connect m = some con → connect n = some con → m = n)
    (hinit : init ι MaxConn connect = some s) {l : List (BorrowEvent ι)}
    (hrun : runEvents step s l = some t) :
    (∀ i, t.point i = .popping → t.pool.connList ≠ []) ∧
      (∀ i j k m con, t.Holds i k con → t.Holds j m con → i = j ∧ k = m) ∧
      (∀ n con, n < MaxConn.toNat → connect n = some con →
        (t.pool.connList.count con = 1 ∧ ∀ i k, ¬ t.Holds i k con) ∨
          (con ∉ t.pool.connList ∧ ∃ i k, t.Holds i k con)) ∧
      t.pool.m_FreeConn = t.pool.connList.length ∧
      t.pool.m_FreeConn + t.pool.m_CurConn = t.pool.m_MaxConn ∧
      t.pool.m_MaxConn = max MaxConn 0 := by
  obtain ⟨hs, hlen⟩ := counted_init hinit
  have hnodup := nodup_connected hfresh MaxConn.toNat
  have hle : ((List.range MaxConn.toNat).filterMap connect).length ≤ INT_MAX := by omega
  have h := invariant (I := Counted _) (fun _ _ _ h hstep => h.step hle hstep) hs hrun
  refine ⟨fun i => h.connList_ne_nil, fun i j k m con => h.holds_unique hnodup, ?_, h.free,
    h.total, ?_⟩
  · intro n con hn hcon
    exact h.somewhere hnodup (List.mem_filterMap.mpr ⟨n, List.mem_range.mpr hn, hcon⟩)
  · rw [h.max, hlen]
    omega

/-- One connection and two threads: the second thread has found the list with a connection, but
waits until the first one has given it back. -/
theorem exclusive_one_connection :
    ∃ s t : Borrowers (Fin 2) Nat, init (Fin 2) 1 (fun n => some n) = some s ∧
      runEvents step s [.test 0, .test 1, .wait 0, .pop 0, .release 0 0, .post 0, .wait 1,
        .pop 1] = some t ∧ t.Holds 1 0 0 ∧ t.pool.m_FreeConn = 0 ∧ t.pool.m_CurConn = 1 ∧
      (∀ i k, t.Holds i k 0 → i = 1 ∧ k = 0) := by
  have hfresh : ∀ m n con, (fun n : Nat => some n) m = some con → some n = some con → m = n :=
    fun m n con hm hn => Option.some.inj (hm.trans hn.symm)
  have hrun := @exclusive (Fin 2) Nat _ _ _ _ _ 1 (fun n => some n) (by decide) hfresh rfl
    [.test 0, .test 1, .wait 0, .pop 0, .release 0 0, .post 0, .wait 1, .pop 1] rfl
  exact ⟨_, _, rfl, rfl, rfl, rfl, rfl, fun i k hk => hrun.2.1 i 1 k 0 0 hk rfl⟩

end Runs

end Borrowers

end CLanguageLearning.WebServer
