import Mathlib.Data.List.Sort

/-!
# What a timer container holds

An `Entry` is a timer without its links: its name, expiry time and callback. The purpose of a timer
container is told on lists of entries: insertion behind all entries that expire no later, removal,
and the split of a sorted list at a time. `live` keeps the entries a history of operations leaves,
in no particular order.
-/

set_option autoImplicit false

namespace CLanguageLearning.Timer

/-- A timer without its links. -/
structure Entry where
  id : Nat
  expire : Int
  cb_func : Nat
  user_data : Nat
  deriving DecidableEq, Repr

/-- One call `cb_func(user_data)` made for a timer. -/
structure Call where
  timer : Nat
  cb_func : Nat
  user_data : Nat
  deriving DecidableEq, Repr

/-- The call made when the timer fires. -/
def Entry.call (e : Entry) : Call := ⟨e.id, e.cb_func, e.user_data⟩

/-- The names of entries. -/
def ids (L : List Entry) : List Nat := L.map Entry.id

/-- In the order of expiry. -/
def Ascending (L : List Entry) : Prop := L.Pairwise fun a b => a.expire ≤ b.expire

/-- Insertion before the first entry that expires later. -/
def insertEntry (e : Entry) (L : List Entry) : List Entry :=
  L.orderedInsert (fun a b => a.expire < b.expire) e

/-- The entries that are not due at the time `cur`, in a list in the order of expiry. -/
def pending (cur : Int) (L : List Entry) : List Entry := L.dropWhile fun e => e.expire ≤ cur

/-- The entries that are due. -/
def due (cur : Int) (L : List Entry) : List Entry := L.takeWhile fun e => e.expire ≤ cur

section Lists

variable {e x : Entry} {A B L : List Entry} {cur : Int}

@[simp] theorem ids_nil : ids [] = [] := rfl

@[simp] theorem ids_cons (e : Entry) (L : List Entry) : ids (e :: L) = e.id :: ids L := rfl

@[simp] theorem ids_append (A B : List Entry) : ids (A ++ B) = ids A ++ ids B :=
  List.map_append

theorem mem_ids (h : e ∈ L) : e.id ∈ ids L := List.mem_map_of_mem h

theorem perm_insertEntry (e : Entry) (L : List Entry) : (insertEntry e L).Perm (e :: L) :=
  List.perm_orderedInsert _ e L

theorem insertEntry_cons_of_lt (h : e.expire < x.expire) :
    insertEntry e (x :: L) = e :: x :: L := by
  rw [insertEntry, List.orderedInsert_cons, if_pos h]

theorem insertEntry_cons_of_le (h : x.expire ≤ e.expire) :
    insertEntry e (x :: L) = x :: insertEntry e L := by
  rw [insertEntry, List.orderedInsert_cons, if_neg (by omega)]
  rfl

/-- Entries that expire no later stay in front. -/
theorem insertEntry_append (h : ∀ a ∈ A, a.expire ≤ e.expire) :
    insertEntry e (A ++ B) = A ++ insertEntry e B := by
  induction A with
  | nil => rfl
  | cons a A ih =>
      rw [List.cons_append, insertEntry_cons_of_le (h a (List.mem_cons_self ..)),
        ih fun b hb => h b (List.mem_cons_of_mem a hb), List.cons_append]

theorem ascending_insertEntry (h : Ascending L) : Ascending (insertEntry e L) := by
  induction L with
  | nil => exact List.pairwise_singleton _ _
  | cons a L ih =>
      obtain ⟨ha, hL⟩ := List.pairwise_cons.mp h
      by_cases hlt : e.expire < a.expire
      · rw [insertEntry_cons_of_lt hlt]
        refine List.pairwise_cons.mpr ⟨?_, h⟩
        intro b hb
        rcases List.mem_cons.mp hb with rfl | hb
        · omega
        · have := ha b hb
          omega
      · rw [insertEntry_cons_of_le (by omega)]
        refine List.pairwise_cons.mpr ⟨?_, ih hL⟩
        intro b hb
        rcases List.mem_cons.mp ((perm_insertEntry e L).mem_iff.mp hb) with rfl | hb
        · omega
        · exact ha b hb

theorem pending_cons_of_le (h : e.expire ≤ cur) : pending cur (e :: L) = pending cur L :=
  List.dropWhile_cons_of_pos (by simpa using h)

theorem due_cons_of_le (h : e.expire ≤ cur) : due cur (e :: L) = e :: due cur L :=
  List.takeWhile_cons_of_pos (by simpa using h)

theorem pending_cons_of_lt (h : cur < e.expire) : pending cur (e :: L) = e :: L :=
  List.dropWhile_cons_of_neg (by simpa using h)

theorem due_cons_of_lt (h : cur < e.expire) : due cur (e :: L) = [] :=
  List.takeWhile_cons_of_neg (by simpa using h)

/-- At a time, a list in the order of expiry splits into what is due and what is not. -/
theorem pending_eq_filter (h : Ascending L) :
    pending cur L = L.filter fun e => cur < e.expire := by
  induction L with
  | nil => rfl
  | cons a L ih =>
      obtain ⟨ha, hL⟩ := List.pairwise_cons.mp h
      by_cases hdue : a.expire ≤ cur
      · rw [pending_cons_of_le hdue, List.filter_cons_of_neg (by simpa using hdue)]
        exact ih hL
      · rw [pending_cons_of_lt (not_le.mp hdue), eq_comm, List.filter_eq_self]
        intro b hb
        rcases List.mem_cons.mp hb with rfl | hb
        · simpa using hdue
        · have := ha b hb
          simp only [decide_eq_true_eq]
          omega

theorem due_eq_filter (h : Ascending L) : due cur L = L.filter fun e => e.expire ≤ cur := by
  induction L with
  | nil => rfl
  | cons a L ih =>
      obtain ⟨ha, hL⟩ := List.pairwise_cons.mp h
      by_cases hdue : a.expire ≤ cur
      · rw [due_cons_of_le hdue, List.filter_cons_of_pos (by simpa using hdue)]
        exact congrArg _ (ih hL)
      · rw [due_cons_of_lt (not_le.mp hdue), eq_comm, List.filter_eq_nil_iff]
        intro b hb
        rcases List.mem_cons.mp hb with rfl | hb
        · simpa using hdue
        · have := ha b hb
          simp only [decide_eq_true_eq]
          omega

end Lists

/-! ## Operations -/

/-- The operations on a timer container. -/
inductive Op where
  | add (e : Entry)
  | adjust (x : Nat) (expire : Int)
  | del (x : Nat)
  | tick (cur : Int)
  deriving DecidableEq, Repr

namespace Op

/-- The entry with a new expiry time for the timer `x`. -/
def retime (x : Nat) (expire : Int) (e : Entry) : Entry :=
  if e.id = x then { e with expire := expire } else e

/-- The live entries after an operation. -/
def live (L : List Entry) : Op → List Entry
  | add e => e :: L
  | adjust x expire => L.map (retime x expire)
  | del x => L.filter fun e => e.id ≠ x
  | tick cur => L.filter fun e => cur < e.expire

/-- The order in which a sorted list holds the live entries after an operation. -/
def sorted (L : List Entry) : Op → List Entry
  | add e => insertEntry e L
  | adjust x expire =>
      match L.find? fun e => e.id = x with
      | some e => insertEntry { e with expire := expire } (L.filter fun e => e.id ≠ x)
      | none => L
  | del x => L.filter fun e => e.id ≠ x
  | tick cur => pending cur L

/-- The calls an operation makes. -/
def fired (L : List Entry) : Op → List Call
  | tick cur => (due cur L).map Entry.call
  | _ => []

/-- What a user has to provide, the freshness of a new timer left aside: members to adjust and
delete, and expiry times that do not decrease. -/
def Allowed (L : List Entry) : Op → Prop
  | add _ => True
  | adjust x expire => ∃ e ∈ L, e.id = x ∧ e.expire ≤ expire
  | del x => ∃ e ∈ L, e.id = x
  | tick _ => True

end Op

section Split

variable {e : Entry} {A B L : List Entry}

/-- Around the middle of a list without repeated names other names are found. -/
theorem id_ne_mid (h : (ids (A ++ e :: B)).Nodup) :
    (∀ a ∈ A, a.id ≠ e.id) ∧ ∀ b ∈ B, b.id ≠ e.id := by
  rw [ids_append, ids_cons] at h
  obtain ⟨-, hB, hAB⟩ := List.nodup_append.mp h
  exact ⟨fun a ha => hAB _ (mem_ids ha) _ (List.mem_cons_self ..),
    fun b hb he => (List.nodup_cons.mp hB).1 (he ▸ mem_ids hb)⟩

/-- Removing the entry in the middle. -/
theorem filter_mid (h : (ids (A ++ e :: B)).Nodup) :
    ((A ++ e :: B).filter fun a => a.id ≠ e.id) = A ++ B := by
  obtain ⟨hA, hB⟩ := id_ne_mid h
  rw [List.filter_append, List.filter_cons_of_neg (by simp),
    List.filter_eq_self.mpr fun a ha => by simpa using hA a ha,
    List.filter_eq_self.mpr fun b hb => by simpa using hB b hb]

theorem find_mid (h : (ids (A ++ e :: B)).Nodup) :
    ((A ++ e :: B).find? fun a => a.id = e.id) = some e := by
  obtain ⟨hA, -⟩ := id_ne_mid h
  rw [List.find?_append, List.find?_eq_none.mpr fun a ha => by simpa using hA a ha]
  simp

theorem retime_mid (h : (ids (A ++ e :: B)).Nodup) (expire : Int) :
    (A ++ e :: B).map (Op.retime e.id expire) = A ++ { e with expire := expire } :: B := by
  obtain ⟨hA, hB⟩ := id_ne_mid h
  have hself : Op.retime e.id expire e = { e with expire := expire } := if_pos rfl
  have hkeep : ∀ M : List Entry, (∀ a ∈ M, a.id ≠ e.id) → M.map (Op.retime e.id expire) = M := by
    intro M hM
    have hid : M.map (Op.retime e.id expire) = M.map id :=
      List.map_congr_left fun a ha => if_neg (hM a ha)
    rw [hid, List.map_id]
  rw [List.map_append, List.map_cons, hself, hkeep A hA, hkeep B hB]

theorem sorted_adjust_mid (h : (ids (A ++ e :: B)).Nodup) (expire : Int) :
    Op.sorted (A ++ e :: B) (.adjust e.id expire) =
      insertEntry { e with expire := expire } (A ++ B) := by
  rw [Op.sorted, find_mid h]
  exact congrArg _ (filter_mid h)

/-- The sorted order holds exactly the live entries. -/
theorem Op.sorted_perm_live {live : List Entry} {op : Op} (hnodup : (ids L).Nodup)
    (hasc : Ascending L) (hop : op.Allowed L) (h : L.Perm live) :
    (op.sorted L).Perm (op.live live) := by
  cases op with
  | add e => exact (perm_insertEntry e L).trans (h.cons e)
  | adjust x expire =>
      obtain ⟨e, he, rfl, -⟩ := hop
      obtain ⟨A, B, rfl⟩ := List.append_of_mem he
      rw [sorted_adjust_mid hnodup]
      refine (perm_insertEntry _ _).trans (List.Perm.trans ?_ (h.map (Op.retime e.id expire)))
      rw [retime_mid hnodup]
      exact List.perm_middle.symm
  | del x => exact h.filter _
  | tick cur =>
      show (pending cur L).Perm _
      rw [pending_eq_filter hasc]
      exact h.filter _

theorem Op.sorted_ascending {op : Op} (hnodup : (ids L).Nodup) (hasc : Ascending L)
    (hop : op.Allowed L) : Ascending (op.sorted L) := by
  cases op with
  | add e => exact ascending_insertEntry hasc
  | adjust x expire =>
      obtain ⟨e, he, rfl, -⟩ := hop
      obtain ⟨A, B, rfl⟩ := List.append_of_mem he
      rw [sorted_adjust_mid hnodup]
      refine ascending_insertEntry (List.Pairwise.sublist ?_ hasc)
      exact (List.sublist_cons_self e B).append_left A
  | del x => exact List.Pairwise.sublist List.filter_sublist hasc
  | tick cur => exact List.Pairwise.sublist (List.dropWhile_sublist _) hasc

/-- No name is used twice, when a new timer has a new name. -/
theorem Op.sorted_nodup {op : Op} (hnodup : (ids L).Nodup) (hop : op.Allowed L)
    (hnew : ∀ e, op = .add e → e.id ∉ ids L) : (ids (op.sorted L)).Nodup := by
  cases op with
  | add e =>
      have hp : (ids (insertEntry e L)).Perm (e.id :: ids L) := (perm_insertEntry e L).map _
      exact hp.nodup_iff.mpr (List.nodup_cons.mpr ⟨hnew e rfl, hnodup⟩)
  | adjust x expire =>
      obtain ⟨e, he, rfl, -⟩ := hop
      obtain ⟨A, B, rfl⟩ := List.append_of_mem he
      have hp : (ids (Op.sorted (A ++ e :: B) (.adjust e.id expire))).Perm (ids (A ++ e :: B)) := by
        rw [sorted_adjust_mid hnodup]
        apply ((perm_insertEntry _ _).map _).trans
        show (e.id :: ids (A ++ B)).Perm (ids (A ++ e :: B))
        rw [ids_append, ids_append, ids_cons]
        exact List.perm_middle.symm
      exact hp.nodup_iff.mpr hnodup
  | del x => exact List.Nodup.sublist (List.filter_sublist.map _) hnodup
  | tick cur => exact List.Nodup.sublist ((List.dropWhile_sublist _).map _) hnodup

end Split

end CLanguageLearning.Timer
