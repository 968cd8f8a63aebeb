import CLanguageLearning.Foundation.BinaryHeap
import CLanguageLearning.Foundation.Exec
import CLanguageLearning.Timer.Entries

/-!
# The time heap

`time_heap` of `11-6time_heap.h`: an array of pointers to timers, ordered as a binary heap by expiry
time. A timer is deleted lazily: it stays in the array without a callback. As for the sorted lists,
a timer is named by a number that stands for its address and calls are recorded. An access outside
the array and a product that does not fit in an `int` stop the run.
-/

set_option autoImplicit false

namespace CLanguageLearning.Timer

open CLanguageLearning.Foundation

/-- `heap_timer`. -/
structure HeapTimer where
  expire : Int
  cb_func : Option Nat
  user_data : Nat
  deriving DecidableEq, Repr

/-- A `time_heap` and the memory its timers are in. -/
structure TimeHeap where
  timers : Nat → Option HeapTimer
  array : Nat → Option Nat
  capacity : Nat
  cur_size : Nat
  calls : List Call

namespace TimeHeap

/-! ## Memory -/

/-- `*p`, for a pointer to a live timer. -/
def deref (p : Option Nat) : Exec TimeHeap HeapTimer := do
  let s ← get
  match p with
  | none => throw .undefined
  | some x =>
      match s.timers x with
      | none => throw .undefined
      | some t => return t

/-- `new heap_timer`, at an address without a live timer. -/
def newTimer (x : Nat) (t : HeapTimer) : Exec TimeHeap Unit :=
  modify fun s => { s with timers := Function.update s.timers x (some t) }

/-- `delete p`, for a pointer to a live timer. -/
def deleteTimer (p : Option Nat) : Exec TimeHeap Unit := do
  let _ ← deref p
  match p with
  | none => throw .undefined
  | some x => modify fun s => { s with timers := Function.update s.timers x none }

/-- `array[i]`. -/
def slot (i : Nat) : Exec TimeHeap (Option Nat) := do
  let s ← get
  if i < s.capacity then return s.array i else throw .undefined

/-- `array[i] = p`. -/
def setSlot (i : Nat) (p : Option Nat) : Exec TimeHeap Unit := do
  let s ← get
  if i < s.capacity then modify fun s => { s with array := Function.update s.array i p }
  else throw .undefined

/-! ## The member functions -/

def empty : Exec TimeHeap Bool := do
  let s ← get
  return s.cur_size = 0

/-- The child of the hole that `percolate_down` compares with, from the left one. -/
def smallerChild (child : Nat) : Exec TimeHeap Nat := do
  let s ← get
  if child < s.cur_size - 1 then do
    let q ← slot (child + 1)
    let r ← deref q
    let p ← slot child
    let l ← deref p
    if r.expire < l.expire then return child + 1 else return child
  else return child

/-- The loop of `percolate_down`; it returns the hole. -/
def percolateLoop (temp : Option Nat) : Nat → Nat → Exec TimeHeap Nat
  | 0, _ => throw .diverged
  | fuel + 1, hole => do
      let left ← intValue (hole * 2 + 1)
      let s ← get
      if left ≤ s.cur_size - 1 then do
        let child ← smallerChild left
        let p ← slot child
        let c ← deref p
        let t ← deref temp
        if c.expire < t.expire then do
          setSlot hole p
          percolateLoop temp fuel child
        else return hole
      else return hole

def percolate_down (fuel hole : Nat) : Exec TimeHeap Unit := do
  let temp ← slot hole
  let hole ← percolateLoop temp fuel hole
  setSlot hole temp

/-- `resize`: the slots in use are copied to an array of twice the size. -/
def resize : Exec TimeHeap Unit := do
  let s ← get
  let doubled ← intValue (2 * s.capacity)
  if s.cur_size ≤ s.capacity then
    set { s with
      capacity := doubled
      array := fun i => if i < s.cur_size then s.array i else none }
  else throw .undefined

/-- The loop of `add_timer`; it returns the hole. -/
def siftLoop (timer : Option Nat) : Nat → Nat → Exec TimeHeap Nat
  | 0, _ => throw .diverged
  | fuel + 1, hole =>
      if hole = 0 then return hole
      else do
        let p ← slot ((hole - 1) / 2)
        let q ← deref p
        let t ← deref timer
        if q.expire ≤ t.expire then return hole
        else do
          setSlot hole p
          siftLoop timer fuel ((hole - 1) / 2)

def add_timer (fuel : Nat) (timer : Option Nat) : Exec TimeHeap Unit := do
  if timer = none then return ()
  else do
    let s ← get
    (if s.capacity ≤ s.cur_size then resize else return ())
    modify fun s => { s with cur_size := s.cur_size + 1 }
    let hole ← siftLoop timer fuel s.cur_size
    setSlot hole timer

/-- `del_timer`: the timer only loses its callback. -/
def del_timer (timer : Option Nat) : Exec TimeHeap Unit := do
  match timer with
  | none => return ()
  | some x => do
      let t ← deref timer
      modify fun s =>
        { s with timers := Function.update s.timers x (some { t with cb_func := none }) }

def top : Exec TimeHeap (Option Nat) := do
  let e ← empty
  if e then return none else slot 0

def pop_timer (fuel : Nat) : Exec TimeHeap Unit := do
  let e ← empty
  if e then return ()
  else do
    let p ← slot 0
    if p = none then return ()
    else do
      deleteTimer p
      modify fun s => { s with cur_size := s.cur_size - 1 }
      let s ← get
      let q ← slot s.cur_size
      setSlot 0 q
      percolate_down fuel 0

/-- The call of the callback of the timer at `p`, unless it is null. -/
def callTimer (p : Option Nat) : Exec TimeHeap Unit := do
  let t ← deref p
  match p, t.cb_func with
  | some x, some f => modify fun s => { s with calls := s.calls ++ [⟨x, f, t.user_data⟩] }
  | _, _ => return ()

/-- The loop of `tick`. -/
def tickLoop (cur : Int) : Nat → Option Nat → Exec TimeHeap Unit
  | 0, _ => throw .diverged
  | fuel + 1, tmp => do
      let e ← empty
      if e then return ()
      else if tmp = none then return ()
      else do
        let t ← deref tmp
        if cur < t.expire then return ()
        else do
          let p ← slot 0
          callTimer p
          pop_timer fuel
          let tmp ← slot 0
          tickLoop cur fuel tmp

/-- `tick` at the time `cur`. -/
def tick (cur : Int) (fuel : Nat) : Exec TimeHeap Unit := do
  let tmp ← slot 0
  tickLoop cur fuel tmp

/-! ## Construction -/

/-- The constructor of an empty heap. -/
def ofCapacity (cap : Nat) : Exec TimeHeap Unit :=
  modify fun s => { s with array := fun _ => none, capacity := cap, cur_size := 0 }

/-- The loop of the second constructor, from slot `i` down to the first. -/
def heapify (fuel : Nat) : Nat → Exec TimeHeap Unit
  | 0 => percolate_down fuel 0
  | i + 1 => do
      percolate_down fuel (i + 1)
      heapify fuel i

/-- The constructor of a heap from `size` timers. -/
def ofArray (fuel : Nat) (init_array : Nat → Option Nat) (size capacity : Nat) :
    Exec TimeHeap Unit := do
  if capacity < size then throw .exception
  else do
    modify fun s =>
      { s with
        array := fun i => if i < size then init_array i else none
        capacity := capacity
        cur_size := size }
    (if size = 0 then return () else heapify fuel ((size - 1) / 2))

end TimeHeap

end CLanguageLearning.Timer
