import CLanguageLearning.Foundation.Exec
import CLanguageLearning.Timer.Entries

/-!
# The sorted timer list

`sort_timer_lst` of `11-2lst_timer.h` and of the webserver's `lst_timer.cpp`: timers in memory,
linked both ways, in the order of their expiry times. The two classes differ in the public
`add_timer` only. A timer is named by a number that stands for its address; the null pointer is
`none`. Calls of callbacks are recorded in the order in which they are made, each with the timer it
is made for. The callbacks do not touch the list.
-/

set_option autoImplicit false

namespace CLanguageLearning.Timer

open CLanguageLearning.Foundation

/-- `util_timer`. -/
structure UtilTimer where
  expire : Int
  cb_func : Nat
  user_data : Nat
  prev : Option Nat
  next : Option Nat
  deriving DecidableEq, Repr

/-- A `sort_timer_lst` and the memory its timers are in. -/
structure SortTimerLst where
  timers : Nat → Option UtilTimer
  head : Option Nat
  tail : Option Nat
  calls : List Call

namespace SortTimerLst

/-- The list after construction, in memory without timers. -/
def empty : SortTimerLst := ⟨fun _ => none, none, none, []⟩

/-- Apply `f` to the timer named `x`. -/
def mapTimer (s : SortTimerLst) (x : Nat) (f : UtilTimer → UtilTimer) : SortTimerLst :=
  { s with timers := fun y => if y = x then (s.timers x).map f else s.timers y }

end SortTimerLst

/-! ## Memory -/

/-- `*p`, for a pointer to a live timer. -/
def deref (p : Option Nat) : Exec SortTimerLst UtilTimer := do
  let s ← get
  match p with
  | none => throw .undefined
  | some x =>
      match s.timers x with
      | none => throw .undefined
      | some t => return t

/-- Write to the timer at `p`. -/
def writeTimer (p : Option Nat) (f : UtilTimer → UtilTimer) : Exec SortTimerLst Unit := do
  let _ ← deref p
  match p with
  | none => throw .undefined
  | some x => modify fun s => s.mapTimer x f

/-- `p->next = q`. -/
def setNext (p q : Option Nat) : Exec SortTimerLst Unit :=
  writeTimer p fun t => { t with next := q }

/-- `p->prev = q`. -/
def setPrev (p q : Option Nat) : Exec SortTimerLst Unit :=
  writeTimer p fun t => { t with prev := q }

def setHead (p : Option Nat) : Exec SortTimerLst Unit := modify fun s => { s with head := p }

def setTail (p : Option Nat) : Exec SortTimerLst Unit := modify fun s => { s with tail := p }

/-- `delete p`, for a pointer to a live timer. -/
def deleteTimer (p : Option Nat) : Exec SortTimerLst Unit := do
  let _ ← deref p
  modify fun s => { s with timers := fun y => if some y = p then none else s.timers y }

/-- `new util_timer`, at an address without a live timer, with the fields the caller sets. -/
def newTimer (x : Nat) (expire : Int) (cb_func user_data : Nat) : Exec SortTimerLst Unit :=
  modify fun s =>
    { s with timers := fun y =>
        if y = x then some ⟨expire, cb_func, user_data, none, none⟩ else s.timers y }

/-! ## The member functions -/

/-- The loop of the private `add_timer` and what follows it. -/
def insertLoop (timer : Option Nat) : Nat → Option Nat → Option Nat → Exec SortTimerLst Unit
  | 0, _, _ => throw .diverged
  | fuel + 1, prev, tmp =>
      if tmp = none then do
        setNext prev timer
        setPrev timer prev
        setNext timer none
        setTail timer
      else do
        let t ← deref timer
        let n ← deref tmp
        if t.expire < n.expire then do
          setNext prev timer
          setNext timer tmp
          setPrev tmp timer
          setPrev timer prev
        else insertLoop timer fuel tmp n.next

/-- The private `add_timer(timer, lst_head)`. -/
def add_timer_from (fuel : Nat) (timer lst_head : Option Nat) : Exec SortTimerLst Unit := do
  let h ← deref lst_head
  insertLoop timer fuel lst_head h.next

/-- `add_timer` of `11-2lst_timer.h`. -/
def add_timer (fuel : Nat) (timer : Option Nat) : Exec SortTimerLst Unit := do
  if timer = none then return ()
  else
    let s ← get
    if s.head = none then do
      setHead timer
      setTail timer
    else
      let t ← deref timer
      let h ← deref s.head
      if t.expire < h.expire then do
        setNext timer s.head
        setPrev s.head timer
        setHead timer
      else add_timer_from fuel timer s.head

/-- `add_timer` of the webserver: after inserting at the head it goes on to the general
insertion. -/
def Webserver.add_timer (fuel : Nat) (timer : Option Nat) : Exec SortTimerLst Unit := do
  if timer = none then return ()
  else
    let s ← get
    if s.head = none then do
      setHead timer
      setTail timer
    else
      let t ← deref timer
      let h ← deref s.head
      if t.expire < h.expire then do
        setNext timer s.head
        setPrev s.head timer
        setHead timer
        add_timer_from fuel timer timer
      else add_timer_from fuel timer s.head

/-- The part of `adjust_timer` that takes the timer out and inserts it again. -/
def moveTimer (fuel : Nat) (timer : Option Nat) : Exec SortTimerLst Unit := do
  let s ← get
  if timer = s.head then do
    let h ← deref s.head
    setHead h.next
    setPrev h.next none
    setNext timer none
    add_timer_from fuel timer h.next
  else do
    let t ← deref timer
    setNext t.prev t.next
    let t ← deref timer
    setPrev t.next t.prev
    let t ← deref timer
    add_timer_from fuel timer t.next

def adjust_timer (fuel : Nat) (timer : Option Nat) : Exec SortTimerLst Unit := do
  if timer = none then return ()
  else
    let t ← deref timer
    if t.next = none then return ()
    else
      let n ← deref t.next
      if t.expire < n.expire then return () else moveTimer fuel timer

def del_timer (timer : Option Nat) : Exec SortTimerLst Unit := do
  if timer = none then return ()
  else
    let s ← get
    if timer = s.head ∧ timer = s.tail then do
      deleteTimer timer
      setHead none
      setTail none
    else if timer = s.head then do
      let h ← deref s.head
      setHead h.next
      setPrev h.next none
      deleteTimer timer
    else if timer = s.tail then do
      let t ← deref s.tail
      setTail t.prev
      setNext t.prev none
      deleteTimer timer
    else do
      let t ← deref timer
      setNext t.prev t.next
      let t ← deref timer
      setPrev t.next t.prev
      deleteTimer timer

/-- The loop of `tick`. -/
def tickLoop (cur : Int) : Nat → Option Nat → Exec SortTimerLst Unit
  | 0, _ => throw .diverged
  | _ + 1, none => return ()
  | fuel + 1, some x => do
      let t ← deref (some x)
      if cur < t.expire then return ()
      else
        modify fun s => { s with calls := s.calls ++ [⟨x, t.cb_func, t.user_data⟩] }
        setHead t.next
        if t.next = none then do
          deleteTimer (some x)
          tickLoop cur fuel t.next
        else do
          setPrev t.next none
          deleteTimer (some x)
          tickLoop cur fuel t.next

/-- `tick` at the time `cur`. -/
def tick (cur : Int) (fuel : Nat) : Exec SortTimerLst Unit := do
  let s ← get
  if s.head = none then return () else tickLoop cur fuel s.head

end CLanguageLearning.Timer
