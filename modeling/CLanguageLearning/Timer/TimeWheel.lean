import CLanguageLearning.Foundation.Exec
import CLanguageLearning.Timer.Entries
import Mathlib.Logic.Function.Basic

/-!
# The time wheel

`time_wheel` of `11-5tw_timer.h`: a circle of slots, each with a list of timers linked both ways and
in no particular order. A timer has the number of rotations it still waits for. A timer is named by
a number that stands for its address; the null pointer is `none`. The constructor of a timer leaves
callback and data unset, for the user to set them.
-/

set_option autoImplicit false

namespace CLanguageLearning.Timer

open CLanguageLearning.Foundation

/-- `tw_timer`. -/
structure TwTimer where
  rotation : Nat
  time_slot : Nat
  cb_func : Option Nat
  user_data : Option Nat
  next : Option Nat
  prev : Option Nat
  deriving DecidableEq, Repr

/-- A `time_wheel`, the memory its timers are in, and the calls of callbacks. -/
structure TimeWheel where
  timers : Nat → Option TwTimer
  slots : Nat → Option Nat
  cur_slot : Nat
  calls : List Call

namespace TimeWheel

/-- The number of slots. -/
def N : Nat := 60

/-- The interval of a slot. -/
def TI : Nat := 1

/-- The wheel after construction, in memory without timers. -/
def empty : TimeWheel := ⟨fun _ => none, fun _ => none, 0, []⟩

/-! ## Memory -/

/-- `*p`, for a pointer to a live timer. -/
def deref (p : Option Nat) : Exec TimeWheel TwTimer := do
  let s ← get
  match p with
  | none => throw .undefined
  | some x =>
      match s.timers x with
      | none => throw .undefined
      | some t => return t

/-- Write to the timer at `p`. -/
def writeTimer (p : Option Nat) (f : TwTimer → TwTimer) : Exec TimeWheel Unit := do
  let t ← deref p
  match p with
  | none => throw .undefined
  | some x => modify fun s => { s with timers := Function.update s.timers x (some (f t)) }

/-- `p->next = q`. -/
def setNext (p q : Option Nat) : Exec TimeWheel Unit := writeTimer p fun t => { t with next := q }

/-- `p->prev = q`. -/
def setPrev (p q : Option Nat) : Exec TimeWheel Unit := writeTimer p fun t => { t with prev := q }

/-- `new tw_timer(rot, ts)`, at an address without a live timer. -/
def newTimer (x rot ts : Nat) : Exec TimeWheel Unit :=
  modify fun s =>
    { s with timers := Function.update s.timers x (some ⟨rot, ts, none, none, none, none⟩) }

/-- `delete p`, for a pointer to a live timer. -/
def deleteTimer (p : Option Nat) : Exec TimeWheel Unit := do
  let _ ← deref p
  match p with
  | none => throw .undefined
  | some x => modify fun s => { s with timers := Function.update s.timers x none }

/-- `slots[i]`. -/
def slot (i : Nat) : Exec TimeWheel (Option Nat) := do
  let s ← get
  if i < N then return s.slots i else throw .undefined

/-- `slots[i] = p`. -/
def setSlot (i : Nat) (p : Option Nat) : Exec TimeWheel Unit :=
  if i < N then modify fun s => { s with slots := Function.update s.slots i p }
  else throw .undefined

/-! ## The member functions -/

/-- `ticks`, for a timeout that is not negative. -/
def ticksOf (timeout : Int) : Nat := if timeout < TI then 1 else timeout.toNat / TI

/-- The last part of `add_timer`: a new timer at the address `x` in slot `ts`. -/
def insertTimer (x rotation ts : Nat) : Exec TimeWheel (Option Nat) := do
  newTimer x rotation ts
  let head ← slot ts
  (if head = none then setSlot ts (some x)
  else do
    setNext (some x) head
    setPrev head (some x)
    setSlot ts (some x))
  return some x

/-- `add_timer(timeout)`, when `new` answers the address `x`. -/
def add_timer (x : Nat) (timeout : Int) : Exec TimeWheel (Option Nat) := do
  if timeout < 0 then return none
  else
    let ticks := ticksOf timeout
    let rotation := ticks / N
    let s ← get
    -- a timeout of whole turns comes back to the current slot
    let ts := (s.cur_slot + ticks % N) % N
    insertTimer x rotation ts

def del_timer (timer : Option Nat) : Exec TimeWheel Unit := do
  if timer = none then return ()
  else
    let t ← deref timer
    let ts := t.time_slot
    let head ← slot ts
    if timer = head then do
      let h ← deref head
      setSlot ts h.next
      (if h.next = none then return () else setPrev h.next none)
      deleteTimer timer
    else do
      setNext t.prev t.next
      -- the pointers are read again, behind the write to the timer before it
      let t ← deref timer
      (if t.next = none then return () else setPrev t.next t.prev)
      deleteTimer timer

/-- `tmp->cb_func(tmp->user_data)`. -/
def callTimer (x : Nat) : Exec TimeWheel Unit := do
  let t ← deref (some x)
  match t.cb_func, t.user_data with
  | some f, some d => modify fun s => { s with calls := s.calls ++ [⟨x, f, d⟩] }
  | _, _ => throw .undefined

/-- The removal of the expired timer `tmp` from the current slot, with the next `tmp`. -/
def removeExpired (x : Nat) : Exec TimeWheel (Option Nat) := do
  let s ← get
  let head ← slot s.cur_slot
  if some x = head then do
    let t ← deref (some x)
    setSlot s.cur_slot t.next
    deleteTimer (some x)
    let head ← slot s.cur_slot
    (if head = none then return () else setPrev head none)
    slot s.cur_slot
  else do
    let t ← deref (some x)
    setNext t.prev t.next
    let t ← deref (some x)
    (if t.next = none then return () else setPrev t.next t.prev)
    let t ← deref (some x)
    deleteTimer (some x)
    return t.next

/-- The loop of `tick`. -/
def tickLoop : Nat → Option Nat → Exec TimeWheel Unit
  | 0, _ => throw .diverged
  | _ + 1, none => return ()
  | fuel + 1, some x => do
      let t ← deref (some x)
      if 0 < t.rotation then do
        -- one turn less to wait
        writeTimer (some x) fun t => { t with rotation := t.rotation - 1 }
        let t ← deref (some x)
        tickLoop fuel t.next
      else do
        callTimer x
        let tmp ← removeExpired x
        tickLoop fuel tmp

def tick (fuel : Nat) : Exec TimeWheel Unit := do
  let s ← get
  let head ← slot s.cur_slot
  tickLoop fuel head
  modify fun s => { s with cur_slot := (s.cur_slot + 1) % N }

end TimeWheel

end CLanguageLearning.Timer
