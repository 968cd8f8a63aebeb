import CLanguageLearning.Foundation.Transitions

/-!
# Two threads and two semaphores

`semaphore.c`: `read` fills `number` and `accumulate` adds it to its sum, `N` times each. `sem_two`
lets the reader go on, `sem_one` the other one. `accumulates` says that they alternate whatever the
order of their steps: every number is added once, and neither waits for ever.
-/

set_option autoImplicit false

namespace CLanguageLearning.Processes

open CLanguageLearning.Foundation

namespace NumberReader

/-- Where `read` is in its loop. -/
inductive ReadPoint where
  /-- Before `sem_wait(&sem_two)`. -/
  | wait
  | scan
  /-- Before `sem_post(&sem_one)`. -/
  | post
  deriving DecidableEq, Repr

/-- Where `accumulate` is in its loop. -/
inductive AddPoint where
  /-- Before `sem_wait(&sem_one)`. -/
  | wait
  | add
  /-- Before `sem_post(&sem_two)`. -/
  | post
  deriving DecidableEq, Repr

/-- The two threads, their semaphores and `number`; `log` has what `number` was after each
`scanf`. -/
structure Threads where
  sem_one : Nat
  sem_two : Nat
  number : Int
  reader : ReadPoint
  /-- `i` of `read`. -/
  reads : Nat
  adder : AddPoint
  /-- `i` of `accumulate`. -/
  adds : Nat
  sum : Int
  log : List Int
  deriving DecidableEq, Repr

inductive Event where
  | waitTwo
  /-- `scanf`, which leaves the number alone when there is none. -/
  | scan (v : Option Int)
  | postOne
  | waitOne
  | add
  | postTwo
  deriving DecidableEq, Repr

/-- A value of type `int`. -/
def IsInt (v : Int) : Prop := -2 ^ 31 ≤ v ∧ v < 2 ^ 31

instance (v : Int) : Decidable (IsInt v) := inferInstanceAs (Decidable (_ ∧ _))

namespace Threads

def start : Threads := ⟨0, 1, 0, .wait, 0, .wait, 0, 0, []⟩

/-- A sum that is no `int` has no meaning, and the program goes nowhere from there. -/
def step (N : Nat) (s : Threads) : Event → Option Threads
  | .waitTwo =>
      if s.reader = .wait ∧ s.reads < N ∧ 0 < s.sem_two then
        some { s with sem_two := s.sem_two - 1, reader := .scan }
      else none
  | .scan v =>
      if s.reader = .scan then
        some { s with number := v.getD s.number, log := s.log ++ [v.getD s.number], reader := .post }
      else none
  | .postOne =>
      if s.reader = .post then
        some { s with sem_one := s.sem_one + 1, reader := .wait, reads := s.reads + 1 }
      else none
  | .waitOne =>
      if s.adder = .wait ∧ s.adds < N ∧ 0 < s.sem_one then
        some { s with sem_one := s.sem_one - 1, adder := .add }
      else none
  | .add =>
      if s.adder = .add ∧ IsInt (s.sum + s.number) then
        some { s with sum := s.sum + s.number, adder := .post }
      else none
  | .postTwo =>
      if s.adder = .post then
        some { s with sem_two := s.sem_two + 1, adder := .wait, adds := s.adds + 1 }
      else none

/-- The states of a run, after the numbers `log` have been added. -/
inductive Turn (N : Nat) : Threads → Prop
  | idle (number : Int) (log : List Int) (h : log.length ≤ N) :
      Turn N ⟨0, 1, number, .wait, log.length, .wait, log.length, log.sum, log⟩
  | scanning (number : Int) (log : List Int) (h : log.length < N) :
      Turn N ⟨0, 0, number, .scan, log.length, .wait, log.length, log.sum, log⟩
  | scanned (v : Int) (log : List Int) (h : log.length < N) :
      Turn N ⟨0, 0, v, .post, log.length, .wait, log.length, log.sum, log ++ [v]⟩
  | handed (v : Int) (log : List Int) (h : log.length < N) :
      Turn N ⟨1, 0, v, .wait, log.length + 1, .wait, log.length, log.sum, log ++ [v]⟩
  | adding (v : Int) (log : List Int) (h : log.length < N) :
      Turn N ⟨0, 0, v, .wait, log.length + 1, .add, log.length, log.sum, log ++ [v]⟩
  | added (v : Int) (log : List Int) (h : log.length < N) :
      Turn N ⟨0, 0, v, .wait, log.length + 1, .post, log.length, log.sum + v, log ++ [v]⟩

variable {N : Nat} {s t : Threads} {e : Event} {l : List Event}

/-- In every state one thread can go on, by one event. -/
theorem Turn.step (h : s.Turn N) (hstep : s.step N e = some t) : t.Turn N := by
  cases h with
  | idle number log hN =>
      cases e <;> simp [Threads.step] at hstep
      obtain ⟨hlt, rfl⟩ := hstep
      exact .scanning number log hlt
  | scanning number log hN =>
      cases e <;> simp [Threads.step] at hstep
      subst hstep
      exact .scanned _ log hN
  | scanned v log hN =>
      cases e <;> simp [Threads.step] at hstep
      subst hstep
      exact .handed v log hN
  | handed v log hN =>
      cases e <;> simp [Threads.step] at hstep
      obtain ⟨-, rfl⟩ := hstep
      exact .adding v log hN
  | adding v log hN =>
      cases e <;> simp [Threads.step] at hstep
      obtain ⟨-, rfl⟩ := hstep
      exact .added v log hN
  | added v log hN =>
      cases e <;> simp [Threads.step] at hstep
      subst hstep
      have hidle := Turn.idle v (log ++ [v]) (N := N) (by simpa using hN)
      simpa using hidle

/-- Both loops are done. -/
def Done (N : Nat) (s : Threads) : Prop := s.reads = N ∧ s.adds = N

/-- A thread can go on unless the loops are done or the sum is out of the range of `int`. -/
theorem Turn.goes_on (h : s.Turn N) :
    s.Done N ∨ (s.adder = .add ∧ ¬IsInt (s.sum + s.number)) ∨ ∃ e, (s.step N e).isSome := by
  cases h with
  | idle number log hN =>
      rcases Nat.eq_or_lt_of_le hN with heq | hlt
      · exact Or.inl ⟨heq, heq⟩
      · exact Or.inr (Or.inr ⟨.waitTwo, by simp [Threads.step, hlt]⟩)
  | scanning number log hN => exact Or.inr (Or.inr ⟨.scan none, by simp [Threads.step]⟩)
  | scanned v log hN => exact Or.inr (Or.inr ⟨.postOne, by simp [Threads.step]⟩)
  | handed v log hN => exact Or.inr (Or.inr ⟨.waitOne, by simp [Threads.step, hN]⟩)
  | adding v log hN =>
      by_cases hint : IsInt (log.sum + v)
      · exact Or.inr (Or.inr ⟨.add, by simp [Threads.step, hint]⟩)
      · exact Or.inr (Or.inl ⟨rfl, hint⟩)
  | added v log hN => exact Or.inr (Or.inr ⟨.postTwo, by simp [Threads.step]⟩)

/-- When the loops are done, every number that was read has been added once. -/
theorem Turn.done (h : s.Turn N) (hdone : s.Done N) : s.sum = s.log.sum ∧ s.log.length = N := by
  obtain ⟨hreads, hadds⟩ := hdone
  cases h with
  | idle number log hN => exact ⟨rfl, hreads⟩
  | scanning number log hN => exact absurd hreads (Nat.ne_of_lt hN)
  | scanned v log hN => exact absurd hreads (Nat.ne_of_lt hN)
  | handed v log hN => exact absurd hadds (Nat.ne_of_lt hN)
  | adding v log hN => exact absurd hadds (Nat.ne_of_lt hN)
  | added v log hN => exact absurd hadds (Nat.ne_of_lt hN)

/-- For any number of turns, every input and every interleaving: the reader never overwrites a number
that has not been added, each is added once, in its order, and the threads go on until both are done
unless the sum is out of the range of `int`. -/
theorem accumulates (hrun : runEvents (step N) start l = some t) :
    t.Turn N ∧ (t.Done N → t.sum = t.log.sum ∧ t.log.length = N) ∧
      (t.Done N ∨ (t.adder = .add ∧ ¬IsInt (t.sum + t.number)) ∨ ∃ e, (t.step N e).isSome) := by
  have hturn : t.Turn N :=
    invariant (fun s e u h hs => h.step hs) (.idle 0 [] (Nat.zero_le N)) hrun
  exact ⟨hturn, hturn.done, hturn.goes_on⟩

/-- Two numbers are read, and a third `scanf` fails. -/
theorem accumulates_three : ∃ t, runEvents (step 3) start [.waitTwo, .scan (some 5), .postOne,
    .waitOne, .add, .postTwo, .waitTwo, .scan (some (-2)), .postOne, .waitOne, .add, .postTwo,
    .waitTwo, .scan none, .postOne, .waitOne, .add, .postTwo] = some t ∧ t.sum = 1 := by
  have hall : ∀ t, runEvents (step 3) start [.waitTwo, .scan (some 5), .postOne, .waitOne, .add,
      .postTwo, .waitTwo, .scan (some (-2)), .postOne, .waitOne, .add, .postTwo, .waitTwo, .scan none,
      .postOne, .waitOne, .add, .postTwo] = some t → t.Done 3 → t.sum = t.log.sum :=
    fun t hrun hdone => ((accumulates hrun).2.1 hdone).1
  exact ⟨_, rfl, hall _ rfl ⟨rfl, rfl⟩⟩

end Threads

end NumberReader

end CLanguageLearning.Processes
