import CLanguageLearning.Foundation.LockedSections

/-!
# Threads that add to a shared number

`mutex.c` and `thread4.c`: half of the threads increase `number`, the other half decrease it, each of
them `N` times. `number += 1` loads the number and stores it again. In `mutex.c` this is under the
mutex and no update is lost (`mutex_result`); in `thread4.c` it is not, and the updates of all the
threads of one kind may be lost (`lost_updates`).

`number` is a `long long`, and the threads and the turns are counted in `int`s. So it stays below
`2 ^ 62` and does not overflow; here it is an `Int`.
-/

set_option autoImplicit false

namespace CLanguageLearning.Processes

open CLanguageLearning.Foundation

/-- What `main` starts as the thread `i`: `thread_increse` or `thread_decrease`. -/
def delta {n : Nat} (i : Fin n) : Int := if i.val % 2 ≠ 0 then 1 else -1

/-- `number`, and how many turns of its loop each thread has behind it. -/
structure SharedNumber (κ : Type) where
  number : Int
  turns : κ → Nat

namespace SharedNumber

variable {κ : Type}

def start : SharedNumber κ := ⟨0, fun _ => 0⟩

section Steps

variable [DecidableEq κ]

/-- A thread has stored the number and goes on with its loop. -/
def turned (s : SharedNumber κ) (k : κ) : SharedNumber κ :=
  { s with turns := Function.update s.turns k (s.turns k + 1) }

variable {s : SharedNumber κ} {k : κ}

@[simp] theorem turned_number (s : SharedNumber κ) (k : κ) : (s.turned k).number = s.number := rfl

@[simp] theorem turned_turns (s : SharedNumber κ) (k : κ) : (s.turned k).turns k = s.turns k + 1 :=
  Function.update_self ..

theorem turned_of_ne {j : κ} (h : j ≠ k) (s : SharedNumber κ) :
    (s.turned k).turns j = s.turns j :=
  Function.update_of_ne h ..

/-- One more turn of a thread, in a sum over the turns of all threads. -/
theorem sum_turned [Fintype κ] (g : κ → Int) (s : SharedNumber κ) (k : κ) :
    ∑ j, g j * (s.turned k).turns j = (∑ j, g j * s.turns j) + g k := by
  have hrest : ∀ j ∈ Finset.univ.erase k, g j * ((s.turned k).turns j : Int) = g j * s.turns j := by
    intro j hj
    rw [turned_of_ne (Finset.ne_of_mem_erase hj)]
  rw [← Finset.add_sum_erase _ _ (Finset.mem_univ k), Finset.sum_congr rfl hrest,
    ← Finset.add_sum_erase _ (fun j => g j * (s.turns j : Int)) (Finset.mem_univ k), turned_turns]
  push_cast
  ring

end Steps

/-! ## With the mutex -/

/-- Where a thread is between `pthread_mutex_lock` and `pthread_mutex_unlock`. -/
inductive AddPoint where
  | load
  | store (v : Int)
  | unlock
  deriving DecidableEq, Repr

section Mutex

variable [DecidableEq κ] (d : κ → Int) (N : Nat)

/-- The loop of a thread of `mutex.c` that adds `d k`, `N` times. -/
def underMutex : LockedCode (SharedNumber κ) Empty κ AddPoint where
  outside _ e := nomatch e
  enter k s := if s.turns k < N then some .load else none
  micro k p s :=
    match p with
    | .load => some (.store s.number, s)
    | .store v => some (.unlock, { s with number := v + d k })
    | .unlock => none
  leave k p s :=
    match p with
    | .unlock => some (s.turned k)
    | _ => none

variable {d N} {c s t : SharedNumber κ} {k : κ} {p : AddPoint} {n : Nat}

/-- What a thread has done in its section. -/
inductive Begun (c : SharedNumber κ) (x : Int) : AddPoint → SharedNumber κ → Prop
  | load : Begun c x .load c
  | store : Begun c x (.store c.number) c
  | unlock : Begun c x .unlock { c with number := c.number + x }

omit [DecidableEq κ] in
theorem Begun.turns_eq {x : Int} (h : Begun c x p s) : s.turns = c.turns := by
  cases h with
  | load => rfl
  | store => rfl
  | unlock => rfl

theorem part_begun (h : (underMutex d N).part k n c = some (p, s)) :
    c.turns k < N ∧ Begun c (d k) p s := by
  induction n generalizing p s with
  | zero =>
      obtain ⟨r, hr, he⟩ := Option.map_eq_some_iff.mp h
      cases he
      simp only [underMutex] at hr
      split at hr
      · next hlt =>
          cases hr
          exact ⟨hlt, .load⟩
      · cases hr
  | succ n ih =>
      obtain ⟨⟨p₀, s₀⟩, hpart, hmicro⟩ := Option.bind_eq_some_iff.mp h
      obtain ⟨hlt, hbegun⟩ := ih hpart
      refine ⟨hlt, ?_⟩
      cases hbegun with
      | load =>
          cases hmicro
          exact .store
      | store =>
          cases hmicro
          exact .unlock
      | unlock => cases hmicro

/-- The number is the sum of what the turns have added. -/
def Summed [Fintype κ] (d : κ → Int) (N : Nat) (s : SharedNumber κ) : Prop :=
  s.number = ∑ k, d k * s.turns k ∧ ∀ k, s.turns k ≤ N

/-- A section adds what its thread adds. -/
theorem Summed.whole [Fintype κ] {e : SerialEvent Empty κ} (h : Summed d N s)
    (hstep : (underMutex d N).serialStep s e = some t) : Summed d N t := by
  cases e with
  | outside e => exact nomatch e
  | whole k n =>
      obtain ⟨⟨p, u⟩, hpart, hleave⟩ := Option.bind_eq_some_iff.mp hstep
      obtain ⟨hlt, hbegun⟩ := part_begun hpart
      cases hbegun with
      | load => cases hleave
      | store => cases hleave
      | unlock =>
          cases hleave
          constructor
          · have hsum := sum_turned d { s with number := s.number + d k } k
            rw [hsum]
            simp [h.1]
          · intro j
            rcases eq_or_ne j k with rfl | hne
            · rw [turned_turns]
              exact hlt
            · rw [turned_of_ne hne]
              exact h.2 j

/-- With the mutex, some thread can go on until all loops are done, and then the number is the sum of
all updates. -/
theorem number_of_run [Fintype κ] {t : Locked (SharedNumber κ) κ AddPoint}
    {l : List (LockedEvent Empty κ)}
    (hrun : runEvents (underMutex d N).step ⟨start, none⟩ l = some t) :
    ((∃ k, t.shared.turns k ≠ N) → ∃ e, ((underMutex d N).step t e).isSome) ∧
      ((∀ k, t.shared.turns k = N) → t.inside = none ∧ t.shared.number = N * ∑ k, d k) := by
  have hstart : Summed d N (start : SharedNumber κ) := ⟨by simp [start], fun k => Nat.zero_le N⟩
  obtain ⟨c, -, hsummed, hahead⟩ := LockedCode.runEvents_serial
    (LockedCode.commutes_of_isEmpty (I := Summed d N)) (fun s e u h hs => h.whole hs) hstart
    (p := none) rfl hrun
  cases hpending : LockedCode.pending none l with
  | none =>
      rw [hpending] at hahead
      obtain rfl := hahead
      constructor
      · rintro ⟨k, hk⟩
        have hlt : c.turns k < N := lt_of_le_of_ne (hsummed.2 k) hk
        exact ⟨.enter k, by simp [LockedCode.step, underMutex, hlt]⟩
      · intro hall
        refine ⟨rfl, ?_⟩
        rw [hsummed.1, Finset.mul_sum]
        refine Finset.sum_congr rfl fun k _ => ?_
        rw [hall k, mul_comm]
  | some q =>
      rw [hpending] at hahead
      obtain ⟨p, hpart, hinside⟩ := hahead
      obtain ⟨hlt, hbegun⟩ := part_begun hpart
      have hturns := hbegun.turns_eq
      constructor
      · intro _
        cases p with
        | load => exact ⟨.micro, by simp [LockedCode.step, hinside, underMutex]⟩
        | store v => exact ⟨.micro, by simp [LockedCode.step, hinside, underMutex]⟩
        | unlock => exact ⟨.leave, by simp [LockedCode.step, hinside, underMutex]⟩
      · intro hall
        -- a thread in its section is not done
        have hdone := hall q.1
        rw [hturns] at hdone
        exact absurd hdone (Nat.ne_of_lt hlt)

end Mutex

/-! ## Without the mutex -/

/-- The threads of `thread4.c`, with the number that each of them has loaded and not yet stored. -/
structure Unlocked (κ : Type) where
  shared : SharedNumber κ
  loaded : κ → Option Int

inductive NumberEvent (κ : Type) where
  | load (k : κ)
  | store (k : κ)
  deriving DecidableEq, Repr

namespace Unlocked

variable {d : κ → Int} {N m : Nat}

def start : Unlocked κ := ⟨.start, fun _ => none⟩

variable [DecidableEq κ]

def step (d : κ → Int) (N : Nat) (s : Unlocked κ) : NumberEvent κ → Option (Unlocked κ)
  | .load k =>
      if s.loaded k = none ∧ s.shared.turns k < N then
        some { s with loaded := Function.update s.loaded k (some s.shared.number) }
      else none
  | .store k =>
      match s.loaded k with
      | none => none
      | some v => some ⟨{ s.shared with number := v + d k }.turned k, Function.update s.loaded k none⟩

/-- All loops are done. -/
def Finished (N : Nat) (s : Unlocked κ) : Prop := ∀ k, s.shared.turns k = N

variable {s t : Unlocked κ} {k a : κ} {l : List (NumberEvent κ)}

section Bounds

variable [Fintype κ]

/-- The largest and the smallest number that the turns so far can have made. -/
def most (d : κ → Int) (s : SharedNumber κ) : Int := ∑ k, max (d k) 0 * s.turns k

def least (d : κ → Int) (s : SharedNumber κ) : Int := ∑ k, min (d k) 0 * s.turns k

/-- The number and what the threads have loaded are not beyond these. -/
structure Between (d : κ → Int) (N : Nat) (s : Unlocked κ) : Prop where
  number : least d s.shared ≤ s.shared.number ∧ s.shared.number ≤ most d s.shared
  loaded : ∀ k v, s.loaded k = some v → least d s.shared ≤ v ∧ v ≤ most d s.shared

omit [DecidableEq κ] in
theorem between_start : Between d N (start : Unlocked κ) where
  number := by simp [start, SharedNumber.start, least, most]
  loaded k v h := by cases h

/-- A store makes a number that one more turn can make. -/
theorem Between.store (h : Between d N s) {v : Int} (hk : s.loaded k = some v) :
    Between d N ⟨{ s.shared with number := v + d k }.turned k, Function.update s.loaded k none⟩ := by
  have hmost : most d ({ s.shared with number := v + d k }.turned k) =
      most d s.shared + max (d k) 0 := sum_turned (fun k => max (d k) 0) _ k
  have hleast : least d ({ s.shared with number := v + d k }.turned k) =
      least d s.shared + min (d k) 0 := sum_turned (fun k => min (d k) 0) _ k
  have hpos : 0 ≤ max (d k) 0 := le_max_right ..
  have hneg : min (d k) 0 ≤ 0 := min_le_right ..
  constructor
  case number =>
    obtain ⟨hlow, hhigh⟩ := h.loaded k v hk
    rw [hmost, hleast]
    exact ⟨Int.add_le_add hlow (min_le_left ..), Int.add_le_add hhigh (le_max_left ..)⟩
  case loaded =>
    intro j w hj
    change Function.update s.loaded k none j = some w at hj
    rcases eq_or_ne j k with rfl | hne
    · rw [Function.update_self] at hj
      cases hj
    · rw [Function.update_of_ne hne] at hj
      obtain ⟨hlow, hhigh⟩ := h.loaded j w hj
      rw [hmost, hleast]
      constructor
      · linarith
      · linarith

theorem Between.step {e : NumberEvent κ} (h : Between d N s) (hstep : s.step d N e = some t) :
    Between d N t := by
  cases e with
  | load k =>
      simp only [Unlocked.step] at hstep
      split at hstep
      · cases hstep
        refine ⟨h.number, fun j v hj => ?_⟩
        change Function.update s.loaded k (some s.shared.number) j = some v at hj
        rcases eq_or_ne j k with rfl | hne
        · rw [Function.update_self] at hj
          cases hj
          exact h.number
        · rw [Function.update_of_ne hne] at hj
          exact h.loaded j v hj
      · cases hstep
  | store k =>
      simp only [Unlocked.step] at hstep
      split at hstep
      · cases hstep
      · next v hk =>
          cases hstep
          exact h.store hk

end Bounds

/-! The number that is left when the threads of one kind have the last word. -/

/-- A turn of a thread that nobody disturbs. -/
def turn (k : κ) : List (NumberEvent κ) := [.load k, .store k]

/-- The state after undisturbed turns. -/
def after (d : κ → Int) (s : Unlocked κ) (k : κ) (m : Nat) : Unlocked κ :=
  { s with shared := ⟨s.shared.number + m * d k,
    Function.update s.shared.turns k (s.shared.turns k + m)⟩ }

theorem runEvents_turn (hk : s.loaded k = none) (hlt : s.shared.turns k < N) :
    runEvents (step d N) s (turn k) = some (s.after d k 1) := by
  have hload : step d N s (.load k) =
      some { s with loaded := Function.update s.loaded k (some s.shared.number) } := by
    simp [step, hk, hlt]
  refine runEvents_cons_eq_some.mpr ⟨_, hload, ?_⟩
  have hback : Function.update s.loaded k none = s.loaded := by
    rw [← hk, Function.update_eq_self]
  simp [runEvents, step, after, turned, hback]

theorem runEvents_turns (hk : s.loaded k = none) (hle : s.shared.turns k + m ≤ N) :
    ∃ l, runEvents (step d N) s l = some (s.after d k m) := by
  induction m with
  | zero => exact ⟨[], by simp [runEvents, after]⟩
  | succ m ih =>
      obtain ⟨l, hl⟩ := ih (by omega)
      refine ⟨l ++ turn k, runEvents_append.mpr ⟨_, hl, ?_⟩⟩
      have hlt : (s.after d k m).shared.turns k < N := by
        simp only [after, Function.update_self]
        omega
      rw [runEvents_turn (s := s.after d k m) hk hlt]
      simp only [after, Function.update_self, Function.update_idem]
      congr 3
      push_cast
      ring

/-- The state after whole loops of the threads in `S`. -/
def afterLoops [Fintype κ] (d : κ → Int) (N : Nat) (s : Unlocked κ) (S : Finset κ) : Unlocked κ :=
  { s with shared := ⟨s.shared.number + N * ∑ k ∈ S, d k,
    fun k => if k ∈ S then N else s.shared.turns k⟩ }

/-- Threads that have not begun run their loops one after the other. -/
theorem runEvents_loops [Fintype κ] (S : Finset κ)
    (hS : ∀ k ∈ S, s.loaded k = none ∧ s.shared.turns k = 0) :
    ∃ l, runEvents (step d N) s l = some (s.afterLoops d N S) := by
  induction S using Finset.induction_on with
  | empty => exact ⟨[], by simp [runEvents, afterLoops]⟩
  | insert k S hk ih =>
      obtain ⟨l, hl⟩ := ih fun j hj => hS j (Finset.mem_insert_of_mem hj)
      obtain ⟨hloaded, hturns⟩ := hS k (Finset.mem_insert_self ..)
      have hzero : (s.afterLoops d N S).shared.turns k = 0 := by
        simp [afterLoops, hk, hturns]
      obtain ⟨l', hl'⟩ := runEvents_turns (d := d) (m := N) (s := s.afterLoops d N S)
        hloaded (by rw [hzero, Nat.zero_add])
      refine ⟨l ++ l', runEvents_append.mpr ⟨_, hl, ?_⟩⟩
      rw [hl', after, hzero, Nat.zero_add, afterLoops, afterLoops, Finset.sum_insert hk]
      congr 3
      · ring
      · funext j
        rcases eq_or_ne j k with rfl | hne
        · simp
        · simp [hne]

/-- The threads that add something else than `a` run while `a` has the first number loaded, and their
updates are lost. -/
theorem last_word [Fintype κ] (hN : 0 < N) (a : κ) :
    ∃ l t, runEvents (step d N) start l = some t ∧ t.Finished N ∧
      t.shared.number = N * ∑ k with d k = d a, d k := by
  let s₁ : Unlocked κ := ⟨.start, Function.update (fun _ => none) a (some 0)⟩
  have hload : step d N start (.load a) = some s₁ := by
    simp [step, start, SharedNumber.start, hN, s₁]
  -- the others
  have hothers : ∀ k ∈ Finset.univ.filter fun k => d k ≠ d a,
      s₁.loaded k = none ∧ s₁.shared.turns k = 0 := by
    intro k hk
    have hne : k ≠ a := fun he => (Finset.mem_filter.mp hk).2 (by rw [he])
    exact ⟨by simp [s₁, hne], rfl⟩
  obtain ⟨l₂, hl₂⟩ := runEvents_loops (d := d) (N := N) _ hothers
  let s₃ : Unlocked κ := ⟨⟨d a, fun k => if k = a then 1 else if d k ≠ d a then N else 0⟩,
    fun _ => none⟩
  have hstore : step d N (s₁.afterLoops d N (Finset.univ.filter fun k => d k ≠ d a)) (.store a) =
      some s₃ := by
    have hloaded : s₁.loaded a = some 0 := by simp [s₁]
    simp only [step, afterLoops, hloaded, turned]
    congr 2
    · congr 1
      · exact Int.zero_add (d a)
      · funext k
        rcases eq_or_ne k a with rfl | hne
        · simp [s₁, SharedNumber.start]
        · simp [s₁, SharedNumber.start, hne]
    · simp [s₁]
  -- the rest of the loop of `a`
  have hrest : s₃.shared.turns a + (N - 1) ≤ N := by
    simp only [s₃, if_true]
    omega
  obtain ⟨l₄, hl₄⟩ := runEvents_turns (d := d) rfl hrest
  have hsame : ∀ k ∈ (Finset.univ.filter fun k => d k = d a).erase a,
      (s₃.after d a (N - 1)).loaded k = none ∧ (s₃.after d a (N - 1)).shared.turns k = 0 := by
    intro k hk
    obtain ⟨hne, hk⟩ := Finset.mem_erase.mp hk
    have hd := (Finset.mem_filter.mp hk).2
    exact ⟨rfl, by simp [after, s₃, hne, hd]⟩
  obtain ⟨l₅, hl₅⟩ := runEvents_loops (d := d) (N := N) _ hsame
  refine ⟨.load a :: (l₂ ++ (.store a :: (l₄ ++ l₅))), _,
    runEvents_cons_eq_some.mpr ⟨s₁, hload, runEvents_append.mpr ⟨_, hl₂,
      runEvents_cons_eq_some.mpr ⟨s₃, hstore, runEvents_append.mpr ⟨_, hl₄, hl₅⟩⟩⟩⟩, ?_, ?_⟩
  · intro k
    have hone : 1 + (N - 1) = N := by omega
    rcases eq_or_ne k a with rfl | hne
    · simp [afterLoops, after, s₃, hone]
    · by_cases hd : d k = d a
      · simp [afterLoops, after, s₃, hne, hd]
      · simp [afterLoops, after, s₃, hne, hd]
  · have hmem : a ∈ Finset.univ.filter fun k => d k = d a := by simp
    rw [← Finset.add_sum_erase _ _ hmem]
    simp only [afterLoops, after, s₃]
    push_cast [Nat.cast_sub (Nat.one_le_iff_ne_zero.mpr hN.ne')]
    ring

end Unlocked

/-! ## The threads of `main` -/

section Main

variable {n N : Nat}

theorem delta_eq (i : Fin n) : delta i = 1 ∨ delta i = -1 := by
  rw [delta]
  split
  · exact Or.inl rfl
  · exact Or.inr rfl

/-- The odd threads increase the number. -/
theorem sum_increase (n : Nat) : ∑ i : Fin n, max (delta i) 0 = (n / 2 : Nat) := by
  induction n with
  | zero => rfl
  | succ n ih =>
      have hlast : max (delta (Fin.last n)) 0 = (n % 2 : Nat) := by
        rcases Nat.mod_two_eq_zero_or_one n with h | h <;> simp [delta, h]
      have hinit : ∀ i : Fin n, delta i.castSucc = delta i := fun i => rfl
      rw [Fin.sum_univ_castSucc, hlast]
      simp only [hinit, ih]
      omega

/-- The even threads decrease it. -/
theorem sum_decrease (n : Nat) : ∑ i : Fin n, min (delta i) 0 = -((n + 1) / 2 : Nat) := by
  induction n with
  | zero => rfl
  | succ n ih =>
      have hlast : min (delta (Fin.last n)) 0 = (n % 2 : Nat) - 1 := by
        rcases Nat.mod_two_eq_zero_or_one n with h | h <;> simp [delta, h]
      have hinit : ∀ i : Fin n, delta i.castSucc = delta i := fun i => rfl
      rw [Fin.sum_univ_castSucc, hlast]
      simp only [hinit, ih]
      omega

/-- For any number of threads and turns and every interleaving: without the mutex the number is
between the sum of all decreases and the sum of all increases when the loops are done, and it can be
either of them. -/
theorem lost_updates (hn : 2 ≤ n) (hN : 0 < N) :
    (∀ l t, runEvents (Unlocked.step (delta (n := n)) N) .start l = some t → t.Finished N →
      -(N * ((n + 1) / 2 : Nat) : Int) ≤ t.shared.number ∧ t.shared.number ≤ N * (n / 2 : Nat)) ∧
    (∃ l t, runEvents (Unlocked.step (delta (n := n)) N) .start l = some t ∧ t.Finished N ∧
      t.shared.number = N * (n / 2 : Nat)) ∧
    ∃ l t, runEvents (Unlocked.step (delta (n := n)) N) .start l = some t ∧ t.Finished N ∧
      t.shared.number = -(N * ((n + 1) / 2 : Nat) : Int) := by
  refine ⟨fun l t hrun hall => ?_, ?_, ?_⟩
  · have hbetween : Unlocked.Between delta N t :=
      invariant (fun s e u h hs => h.step hs) Unlocked.between_start hrun
    have hmost : Unlocked.most delta t.shared = N * (n / 2 : Nat) := by
      rw [← sum_increase n, Finset.mul_sum]
      exact Finset.sum_congr rfl fun k _ => by rw [hall k, mul_comm]
    have hleast : Unlocked.least delta t.shared = -(N * ((n + 1) / 2 : Nat) : Int) := by
      rw [← mul_neg, ← sum_decrease n, Finset.mul_sum]
      exact Finset.sum_congr rfl fun k _ => by rw [hall k, mul_comm]
    rw [← hmost, ← hleast]
    exact hbetween.number
  · -- the thread 1 has the last word
    obtain ⟨l, t, hrun, hall, hnumber⟩ :=
      Unlocked.last_word (d := delta (n := n)) hN ⟨1, by omega⟩
    refine ⟨l, t, hrun, hall, hnumber.trans ?_⟩
    rw [← sum_increase n, Finset.sum_filter]
    refine congrArg _ (Finset.sum_congr rfl fun k _ => ?_)
    have hone : delta (⟨1, by omega⟩ : Fin n) = 1 := rfl
    rcases delta_eq k with hk | hk <;> simp [hone, hk]
  · obtain ⟨l, t, hrun, hall, hnumber⟩ :=
      Unlocked.last_word (d := delta (n := n)) hN ⟨0, by omega⟩
    refine ⟨l, t, hrun, hall, hnumber.trans ?_⟩
    rw [← mul_neg, ← sum_decrease n, Finset.sum_filter]
    refine congrArg _ (Finset.sum_congr rfl fun k _ => ?_)
    have hneg : delta (⟨0, by omega⟩ : Fin n) = -1 := rfl
    rcases delta_eq k with hk | hk <;> simp [hneg, hk]

/-- The 100 threads of the program, with 50000000 turns each. -/
theorem lost_updates_hundred : ∃ l t,
    runEvents (Unlocked.step (delta (n := 100)) 50000000) .start l = some t ∧
      t.Finished 50000000 ∧ t.shared.number = 2500000000 := by
  obtain ⟨l, t, hrun, hall, hnumber⟩ :=
    (lost_updates (n := 100) (N := 50000000) (by decide) (by decide)).2.1
  exact ⟨l, t, hrun, hall, hnumber⟩

theorem sum_delta (n : Nat) : ∑ i : Fin n, delta i = -(n % 2 : Nat) := by
  have hsplit : ∀ i : Fin n, delta i = max (delta i) 0 + min (delta i) 0 := by
    intro i
    rcases delta_eq i with h | h <;> simp [h]
  rw [Finset.sum_congr rfl fun i _ => hsplit i, Finset.sum_add_distrib, sum_increase, sum_decrease]
  omega

/-- For any number of threads and turns and every interleaving of the loads and stores: with the
mutex some thread can go on until all loops are done, and then the number is 0 if as many threads
increase it as decrease it; an odd number of threads leaves the updates of one more decreasing
thread. -/
theorem mutex_result {t : Locked (SharedNumber (Fin n)) (Fin n) AddPoint}
    {l : List (LockedEvent Empty (Fin n))}
    (hrun : runEvents (underMutex delta N).step ⟨start, none⟩ l = some t) :
    ((∃ k, t.shared.turns k ≠ N) → ∃ e, ((underMutex delta N).step t e).isSome) ∧
      ((∀ k, t.shared.turns k = N) →
        t.inside = none ∧ t.shared.number = -(N * (n % 2 : Nat) : Int)) := by
  obtain ⟨hgoes, hdone⟩ := number_of_run hrun
  refine ⟨hgoes, fun hall => ?_⟩
  obtain ⟨hfree, hnumber⟩ := hdone hall
  rw [sum_delta, mul_neg] at hnumber
  exact ⟨hfree, hnumber⟩

/-- The second thread has its turn first. -/
theorem mutex_result_two : ∃ t : Locked (SharedNumber (Fin 2)) (Fin 2) AddPoint,
    runEvents (underMutex delta 1).step ⟨start, none⟩ [.enter 1, .micro, .micro, .leave, .enter 0,
      .micro, .micro, .leave] = some t ∧ t.shared.number = 0 := by
  have hall : ∀ t : Locked (SharedNumber (Fin 2)) (Fin 2) AddPoint,
      runEvents (underMutex delta 1).step ⟨start, none⟩ [.enter 1, .micro, .micro, .leave, .enter 0,
        .micro, .micro, .leave] = some t → (∀ k, t.shared.turns k = 1) → t.shared.number = 0 :=
    fun t hrun hturns => ((mutex_result hrun).2 hturns).2
  exact ⟨_, rfl, hall _ rfl (by decide)⟩

end Main

end SharedNumber

end CLanguageLearning.Processes
