import CLanguageLearning.Foundation.LockedSections

/-!
# The spinlock

`spinlock.h` around any code: a word that is 0 or 1, an exchange that takes the lock when it finds 0,
and in the version with `stdatomic.h` a loop of plain loads after an exchange that has found 1. Every
access to the word is a step of its own. That threads exclude each other is not built in: a thread is
in its section because its exchange has returned 0, whoever else is in one (`spinlock_excludes`).

The accesses happen in one order, which is what `memory_order_acquire` and `memory_order_release`
give to what is under the lock; the relaxed load only leads back to the exchange.
-/

set_option autoImplicit false

namespace CLanguageLearning.ThreadPool

open CLanguageLearning.Foundation

/-- The two versions of `struct spinlock`, without and with `stdatomic.h`. -/
inductive SpinVersion where
  | sync
  | atomics
  deriving DecidableEq, Repr

/-- Where a thread is in the functions of `spinlock.h`. -/
inductive SpinPoint (ρ : Type) where
  | outside
  /-- In `spinlock_lock`, before `atomic_test_and_set_`. -/
  | exchange
  /-- In the inner loop of `spinlock_lock`, before `atomic_load_relaxed_`. -/
  | pause
  /-- In `spinlock_trylock`, before `atomic_load_relaxed_`. -/
  | tryLoad
  /-- In `spinlock_trylock`, before `atomic_test_and_set_`. -/
  | tryExchange
  /-- The lock was taken; before `spinlock_unlock`. -/
  | inside (r : ρ)
  deriving DecidableEq, Repr

/-- The shared state with the word of the lock. -/
structure SpinLocked (σ κ ρ : Type) where
  shared : σ
  lock : Nat
  point : κ → SpinPoint ρ

inductive SpinlockEvent (ο κ : Type) where
  | outside (e : ο)
  | lock (k : κ)
  | trylock (k : κ)
  | exchange (k : κ)
  | load (k : κ)
  | micro (k : κ)
  | unlock (k : κ)
  deriving DecidableEq, Repr

namespace SpinLocked

variable {σ ο κ ρ : Type}

/-- After `spinlock_init`. -/
def init (c : σ) : SpinLocked σ κ ρ := ⟨c, 0, fun _ => .outside⟩

section Steps

variable [DecidableEq κ] (code : LockedCode σ ο κ ρ) (version : SpinVersion)

def move (s : SpinLocked σ κ ρ) (k : κ) (p : SpinPoint ρ) : SpinLocked σ κ ρ :=
  { s with point := Function.update s.point k p }

/-- The exchange has returned 0. -/
def taken (s : SpinLocked σ κ ρ) (k : κ) : Option (SpinLocked σ κ ρ) :=
  (code.enter k s.shared).map fun r => { s with lock := 1 }.move k (.inside r)

/-- The exchange of a thread that goes to `p` when it returns 1. -/
def testAndSet (s : SpinLocked σ κ ρ) (k : κ) (p : SpinPoint ρ) : Option (SpinLocked σ κ ρ) :=
  if s.lock = 0 then s.taken code k else some ({ s with lock := 1 }.move k p)

def step (s : SpinLocked σ κ ρ) : SpinlockEvent ο κ → Option (SpinLocked σ κ ρ)
  | .outside e => (code.outside s.shared e).map fun t => { s with shared := t }
  | .lock k =>
      match s.point k, code.enter k s.shared with
      | .outside, some _ => some (s.move k .exchange)
      | _, _ => none
  | .trylock k =>
      match s.point k, code.enter k s.shared with
      | .outside, some _ =>
          some (s.move k (match version with | .sync => .tryExchange | .atomics => .tryLoad))
      | _, _ => none
  | .exchange k =>
      match s.point k with
      | .exchange =>
          s.testAndSet code k (match version with | .sync => .exchange | .atomics => .pause)
      -- `spinlock_trylock` returns 0
      | .tryExchange => s.testAndSet code k .outside
      | _ => none
  | .load k =>
      match s.point k with
      | .pause => some (if s.lock = 0 then s.move k .exchange else s)
      | .tryLoad => some (s.move k (if s.lock = 0 then .tryExchange else .outside))
      | _ => none
  | .micro k =>
      match s.point k with
      | .inside r =>
          (code.micro k r s.shared).map fun p => { s with shared := p.2 }.move k (.inside p.1)
      | _ => none
  | .unlock k =>
      match s.point k with
      | .inside r =>
          (code.leave k r s.shared).map fun t => { s with shared := t, lock := 0 }.move k .outside
      | _ => none

/-- What a step can do to the word and to the thread that takes it. -/
inductive Moved (s : SpinLocked σ κ ρ) : SpinLocked σ κ ρ → Prop
  | outside (e : ο) (t : σ) (h : code.outside s.shared e = some t) : Moved s { s with shared := t }
  /-- A thread goes on that neither had the lock nor gets it. -/
  | stay (k : κ) (p : SpinPoint ρ) (hk : ∀ r, s.point k ≠ .inside r) (hp : ∀ r, p ≠ .inside r) :
      Moved s (s.move k p)
  /-- An exchange has returned 1. -/
  | refused (k : κ) (p : SpinPoint ρ) (hk : ∀ r, s.point k ≠ .inside r) (hp : ∀ r, p ≠ .inside r)
      (hlock : s.lock ≠ 0) : Moved s ({ s with lock := 1 }.move k p)
  | take (k : κ) (r : ρ) (hk : ∀ r, s.point k ≠ .inside r) (hlock : s.lock = 0)
      (h : code.enter k s.shared = some r) : Moved s ({ s with lock := 1 }.move k (.inside r))
  | micro (k : κ) (r r' : ρ) (t : σ) (hk : s.point k = .inside r)
      (h : code.micro k r s.shared = some (r', t)) :
      Moved s ({ s with shared := t }.move k (.inside r'))
  | unlock (k : κ) (r : ρ) (t : σ) (hk : s.point k = .inside r)
      (h : code.leave k r s.shared = some t) :
      Moved s ({ s with shared := t, lock := 0 }.move k .outside)

end Steps

/-- At most one thread is in a section, and the word says whether one is. -/
structure Excluded (s : SpinLocked σ κ ρ) : Prop where
  one : ∀ j k r r', s.point j = .inside r → s.point k = .inside r' → j = k
  free : s.lock = 0 ↔ ∀ k r, s.point k ≠ .inside r
  word : s.lock ≤ 1

/-- The same state for a lock that is what it should be. -/
def Shows (s : SpinLocked σ κ ρ) (h : Locked σ κ ρ) : Prop :=
  h.shared = s.shared ∧ ∀ k r, s.point k = .inside r ↔ h.inside = some (k, r)

section Runs

variable [DecidableEq κ] {code : LockedCode σ ο κ ρ} {version : SpinVersion}
  {s t : SpinLocked σ κ ρ} {k : κ} {p : SpinPoint ρ} {c : σ}

@[simp] theorem move_self (s : SpinLocked σ κ ρ) (k : κ) (p : SpinPoint ρ) :
    (s.move k p).point k = p :=
  Function.update_self ..

theorem move_of_ne {j : κ} (h : j ≠ k) (s : SpinLocked σ κ ρ) (p : SpinPoint ρ) :
    (s.move k p).point j = s.point j :=
  Function.update_of_ne h ..

@[simp] theorem move_lock (s : SpinLocked σ κ ρ) (k : κ) (p : SpinPoint ρ) :
    (s.move k p).lock = s.lock := rfl

@[simp] theorem move_shared (s : SpinLocked σ κ ρ) (k : κ) (p : SpinPoint ρ) :
    (s.move k p).shared = s.shared := rfl

/-- Who is in a section after a thread has moved. -/
theorem move_inside_iff {j : κ} {r : ρ} : (s.move k p).point j = .inside r ↔
    (j = k ∧ p = .inside r) ∨ (j ≠ k ∧ s.point j = .inside r) := by
  by_cases hjk : j = k
  · subst hjk
    simp
  · simp [move_of_ne hjk, hjk]

/-- An exchange takes the lock or finds it taken. -/
theorem Moved.of_testAndSet (hk : ∀ r, s.point k ≠ .inside r) (hp : ∀ r, p ≠ .inside r)
    (h : s.testAndSet code k p = some t) : s.Moved code t := by
  rw [testAndSet] at h
  split at h
  · next hlock =>
      obtain ⟨r, hr, rfl⟩ := Option.map_eq_some_iff.mp h
      exact .take k r hk hlock hr
  · next hlock =>
      cases h
      exact .refused k p hk hp hlock

theorem Moved.of_step {e : SpinlockEvent ο κ} (h : s.step code version e = some t) :
    s.Moved code t := by
  cases e with
  | outside e =>
      obtain ⟨u, hu, rfl⟩ := Option.map_eq_some_iff.mp h
      exact .outside e u hu
  | lock k =>
      simp only [step] at h
      split at h
      · next hk _ =>
          cases h
          exact .stay k _ (by simp [hk]) (by simp)
      · cases h
  | trylock k =>
      simp only [step] at h
      split at h
      · next hk _ =>
          cases h
          exact .stay k _ (by simp [hk]) (by cases version <;> simp)
      · cases h
  | exchange k =>
      simp only [step] at h
      split at h
      · next hk => exact .of_testAndSet (by simp [hk]) (by cases version <;> simp) h
      · next hk => exact .of_testAndSet (by simp [hk]) (by simp) h
      · cases h
  | load k =>
      simp only [step] at h
      split at h
      · next hk =>
          cases h
          split
          · exact .stay k _ (by simp [hk]) (by simp)
          · -- the loop goes on
            have hsame : s.move k .pause = s := by
              simp [move, ← hk]
            have hstay : s.Moved code (s.move k .pause) := .stay k _ (by simp [hk]) (by simp)
            rwa [hsame] at hstay
      · next hk =>
          cases h
          exact .stay k _ (by simp [hk]) (by split <;> simp)
      · cases h
  | micro k =>
      simp only [step] at h
      split at h
      · next r hk =>
          obtain ⟨⟨r', u⟩, hu, rfl⟩ := Option.map_eq_some_iff.mp h
          exact .micro k r r' u hk hu
      · cases h
  | unlock k =>
      simp only [step] at h
      split at h
      · next r hk =>
          obtain ⟨u, hu, rfl⟩ := Option.map_eq_some_iff.mp h
          exact .unlock k r u hk hu
      · cases h

omit [DecidableEq κ] in
theorem excluded_init : (init c : SpinLocked σ κ ρ).Excluded where
  one j k r r' h := by cases h
  free := by simp [init]
  word := Nat.zero_le 1

omit [DecidableEq κ] in
/-- A thread that is in its section is alone there. -/
theorem Excluded.eq_of_inside (h : s.Excluded) {r : ρ} (hk : s.point k = .inside r) {j : κ} {r' : ρ}
    (hj : s.point j = .inside r') : j = k :=
  h.one j k r' r hj hk

/-- A thread moves that neither had the lock nor gets it. -/
theorem inside_stay_iff (hk : ∀ r, s.point k ≠ .inside r) (hp : ∀ r, p ≠ .inside r) {j : κ} {r : ρ} :
    (s.move k p).point j = .inside r ↔ s.point j = .inside r := by
  rw [move_inside_iff]
  constructor
  · rintro (⟨-, h⟩ | ⟨-, h⟩)
    · exact absurd h (hp r)
    · exact h
  · exact fun h => Or.inr ⟨fun hjk => hk r (hjk ▸ h), h⟩

theorem Excluded.stay (h : s.Excluded) (hk : ∀ r, s.point k ≠ .inside r)
    (hp : ∀ r, p ≠ .inside r) : (s.move k p).Excluded where
  one := by simpa only [inside_stay_iff hk hp] using h.one
  free := by simpa only [ne_eq, inside_stay_iff hk hp, move_lock] using h.free
  word := h.word

theorem Excluded.moved (h : s.Excluded) (hmoved : s.Moved code t) : t.Excluded := by
  cases hmoved with
  | outside e u hu => exact ⟨h.one, h.free, h.word⟩
  | stay k p hk hp => exact h.stay hk hp
  | refused k p hk hp hlock =>
      have hone : s.lock = 1 := by
        have := h.word
        omega
      have hsame : { s with lock := 1 } = s := by rw [← hone]
      rw [hsame]
      exact h.stay hk hp
  | take k r hk hlock hr =>
      have hnobody := h.free.mp hlock
      have hinside : ∀ j r', ({ s with lock := 1 }.move k (.inside r)).point j = .inside r' →
          j = k := by
        intro j r' hj
        rcases move_inside_iff.mp hj with ⟨hjk, -⟩ | ⟨-, hj⟩
        · exact hjk
        · exact absurd hj (hnobody j r')
      constructor
      case one => exact fun i j a b hi hj => (hinside i a hi).trans (hinside j b hj).symm
      case free =>
        refine iff_of_false (by simp) fun hno => ?_
        exact hno k r (move_self ..)
      case word => exact le_refl 1
  | micro k r r' u hk hu =>
      have hinside : ∀ j a, ({ s with shared := u }.move k (.inside r')).point j = .inside a →
          ∃ b, s.point j = .inside b := by
        intro j a hj
        rcases move_inside_iff.mp hj with ⟨rfl, -⟩ | ⟨-, hj⟩
        · exact ⟨r, hk⟩
        · exact ⟨a, hj⟩
      constructor
      case one =>
        intro i j a b hi hj
        obtain ⟨a', hi⟩ := hinside i a hi
        obtain ⟨b', hj⟩ := hinside j b hj
        exact h.one i j a' b' hi hj
      case free =>
        refine iff_of_false (fun hlock => ?_) fun hno => ?_
        · exact h.free.mp hlock k r hk
        · exact hno k r' (move_self ..)
      case word => exact h.word
  | unlock k r u hk hu =>
      have hinside : ∀ j a,
          ({ s with shared := u, lock := 0 }.move k .outside).point j ≠ .inside a := by
        intro j a hj
        rcases move_inside_iff.mp hj with ⟨-, hp⟩ | ⟨hjk, hj⟩
        · cases hp
        · exact hjk (h.eq_of_inside hk hj)
      exact ⟨fun i j a b hi => absurd hi (hinside i a), by simpa using hinside, Nat.zero_le 1⟩

/-- A step of the spinlock is a step of a lock that is what it should be, or none. -/
theorem Shows.moved {h : Locked σ κ ρ} (hs : s.Excluded) (hshows : s.Shows h)
    (hmoved : s.Moved code t) : ∃ l h', runEvents code.step h l = some h' ∧ t.Shows h' := by
  obtain ⟨hshared, hinside⟩ := hshows
  cases hmoved with
  | outside e u hu =>
      refine ⟨[.outside e], ⟨u, h.inside⟩, ?_, rfl, hinside⟩
      simp [runEvents, LockedCode.step, hshared, hu]
  | stay k p hk hp =>
      exact ⟨[], h, rfl, hshared, fun j r => (inside_stay_iff hk hp).trans (hinside j r)⟩
  | refused k p hk hp hlock =>
      refine ⟨[], h, rfl, hshared, fun j r => Iff.trans ?_ (hinside j r)⟩
      exact inside_stay_iff (s := { s with lock := 1 }) hk hp
  | take k r hk hlock hr =>
      have hnobody := hs.free.mp hlock
      have hnone : h.inside = none := by
        cases hin : h.inside with
        | none => rfl
        | some q => exact absurd ((hinside q.1 q.2).mpr hin) (hnobody q.1 q.2)
      refine ⟨[.enter k], ⟨s.shared, some (k, r)⟩, ?_, rfl, fun j r' => ?_⟩
      · simp [runEvents, LockedCode.step, hnone, hshared, hr]
      · rw [move_inside_iff]
        simp [hnobody j r', eq_comm]
  | micro k r r' u hk hu =>
      have hin := (hinside k r).mp hk
      refine ⟨[.micro], ⟨u, some (k, r')⟩, ?_, rfl, fun j a => ?_⟩
      · simp [runEvents, LockedCode.step, hin, hshared, hu]
      · rw [move_inside_iff]
        constructor
        · rintro (⟨rfl, hp⟩ | ⟨hjk, hj⟩)
          · cases hp
            rfl
          · exact absurd (hs.eq_of_inside hk hj) hjk
        · intro hsome
          cases hsome
          exact Or.inl ⟨rfl, rfl⟩
  | unlock k r u hk hu =>
      have hin := (hinside k r).mp hk
      refine ⟨[.leave], ⟨u, none⟩, ?_, rfl, fun j a => ?_⟩
      · simp [runEvents, LockedCode.step, hin, hshared, hu]
      · rw [move_inside_iff]
        constructor
        · rintro (⟨-, hp⟩ | ⟨hjk, hj⟩)
          · cases hp
          · exact absurd (hs.eq_of_inside hk hj) hjk
        · intro hsome
          cases hsome

/-- A run of the spinlock is a run of a lock that is what it should be. -/
theorem run_shows {l : List (SpinlockEvent ο κ)}
    (hrun : runEvents (step code version) (init c) l = some t) :
    t.Excluded ∧ ∃ l' h, runEvents code.step ⟨c, none⟩ l' = some h ∧ t.Shows h := by
  refine invariant (I := fun s : SpinLocked σ κ ρ => s.Excluded ∧ ∃ l' h,
    runEvents code.step ⟨c, none⟩ l' = some h ∧ s.Shows h) ?_ ⟨excluded_init, ?_⟩ hrun
  · rintro s e u ⟨hs, l', h, hl', hshows⟩ hstep
    have hmoved := Moved.of_step hstep
    obtain ⟨l'', h', hl'', hshows'⟩ := hshows.moved hs hmoved
    exact ⟨hs.moved hmoved, l' ++ l'', h', runEvents_append.mpr ⟨h, hl', hl''⟩, hshows'⟩
  · exact ⟨[], ⟨c, none⟩, rfl, rfl, fun k r => by simp [init]⟩

/-- With the lock free, a thread in `spinlock_lock` takes it after at most two steps of its own. -/
def Obtains (code : LockedCode σ ο κ ρ) (version : SpinVersion) (s : SpinLocked σ κ ρ) (k : κ) :
    Prop :=
  ∃ l : List (SpinlockEvent ο κ), l.length ≤ 2 ∧ (∀ e ∈ l, e = .load k ∨ e = .exchange k) ∧
    ∃ u r, runEvents (step code version) s l = some u ∧ u.point k = .inside r

theorem obtains_of_exchange {r : ρ} (hlock : s.lock = 0) (hk : s.point k = .exchange)
    (hr : code.enter k s.shared = some r) :
    ∃ u, step code version s (.exchange k) = some u ∧ u.point k = .inside r := by
  refine ⟨{ s with lock := 1 }.move k (.inside r), ?_, move_self ..⟩
  simp [step, hk, testAndSet, hlock, taken, hr]

theorem obtains_of_free {r : ρ} (hlock : s.lock = 0)
    (hk : s.point k = .exchange ∨ s.point k = .pause) (hr : code.enter k s.shared = some r) :
    Obtains code version s k := by
  rcases hk with hk | hk
  · have hexchange : ∃ u, step code version s (.exchange k) = some u ∧ u.point k = .inside r :=
      obtains_of_exchange hlock hk hr
    obtain ⟨u, hu, hin⟩ := hexchange
    exact ⟨[.exchange k], by simp, by simp, u, r, by simp [runEvents, hu], hin⟩
  · have hload : step code version s (.load k) = some (s.move k .exchange) := by
      simp [step, hk, hlock]
    have hexchange : ∃ u, step code version (s.move k .exchange) (.exchange k) = some u ∧
        u.point k = .inside r := obtains_of_exchange hlock (move_self ..) hr
    obtain ⟨u, hu, hin⟩ := hexchange
    exact ⟨[.load k, .exchange k], by simp, by simp, u, r, by simp [runEvents, hload, hu], hin⟩

/-- For either version of the lock, any code around it, any number of threads and every order of the
single accesses to its word: at most one thread is in its section, the word is 0 exactly when none
is, the run is one of a lock whose holder is known, and a thread that waits for a free lock has it
after two steps of its own. -/
theorem spinlock_excludes {l : List (SpinlockEvent ο κ)}
    (hrun : runEvents (step code version) (init c) l = some t) :
    t.Excluded ∧ (∃ l' h, runEvents code.step ⟨c, none⟩ l' = some h ∧ t.Shows h) ∧
      ∀ k r, (∀ j r', t.point j ≠ .inside r') → (t.point k = .exchange ∨ t.point k = .pause) →
        code.enter k t.shared = some r → Obtains code version t k := by
  obtain ⟨hexcluded, hshows⟩ := run_shows hrun
  refine ⟨hexcluded, hshows, fun k r hfree hk hr => ?_⟩
  exact obtains_of_free (hexcluded.free.mpr hfree) hk hr

/-- A thread is alone with code that has nothing to do under the lock. -/
def bare : LockedCode Unit Empty κ Unit where
  outside _ e := nomatch e
  enter _ _ := some ()
  micro _ _ _ := none
  leave _ _ s := some s

/-- A thread has the lock, another one finds it taken and waits, and the first one gives it up. -/
theorem spinlock_excludes_two : ∃ t : SpinLocked Unit Bool Unit,
    runEvents (step bare .atomics) (init ()) [.lock false, .lock true, .exchange false,
      .exchange true, .load true, .unlock false] = some t ∧ t.lock = 0 ∧
      Obtains bare .atomics t true := by
  have hall : ∀ t : SpinLocked Unit Bool Unit,
      runEvents (step bare .atomics) (init ()) [.lock false, .lock true, .exchange false,
        .exchange true, .load true, .unlock false] = some t →
      ∀ k r, (∀ j r', t.point j ≠ .inside r') → (t.point k = .exchange ∨ t.point k = .pause) →
        bare.enter k t.shared = some r → Obtains bare .atomics t k :=
    fun t hrun => (spinlock_excludes hrun).2.2
  exact ⟨_, rfl, rfl, hall _ rfl true () (by decide) (by decide) rfl⟩

/-- A run of the spinlock ends in a state of the system that takes whole sections, with the first
steps of the section of the thread that has the lock. -/
theorem run_serial {I : σ → Prop} (hcommutes : code.Commutes I)
    (hinv : ∀ s e t, I s → code.serialStep s e = some t → I t) (hc : I c)
    {l : List (SpinlockEvent ο κ)} (hrun : runEvents (step code version) (init c) l = some t) :
    ∃ l' d, runEvents code.serialStep c l' = some d ∧ I d ∧ (t.lock = 0 → t.shared = d) ∧
      ∀ k r, t.point k = .inside r → ∃ n, code.part k n d = some (r, t.shared) := by
  obtain ⟨hexcluded, l', h, hl', hshared, hinside⟩ := run_shows hrun
  obtain ⟨d, hd, hI, hahead⟩ :=
    LockedCode.runEvents_serial hcommutes hinv hc (p := none) rfl hl'
  refine ⟨_, d, hd, hI, fun hlock => ?_, fun k r hk => ?_⟩
  · cases hp : LockedCode.pending none l' with
    | none =>
        rw [hp] at hahead
        rw [← hshared, hahead]
    | some q =>
        rw [hp] at hahead
        obtain ⟨r, -, hin⟩ := hahead
        exact absurd ((hinside q.1 r).mpr hin) (hexcluded.free.mp hlock q.1 r)
  · have hin := (hinside k r).mp hk
    cases hp : LockedCode.pending none l' with
    | none =>
        rw [hp] at hahead
        rw [hahead.inside_none] at hin
        cases hin
    | some q =>
        rw [hp] at hahead
        obtain ⟨r', hpart, hin'⟩ := hahead
        rw [hin] at hin'
        cases hin'
        exact ⟨q.2, hshared ▸ hpart⟩

end Runs

end SpinLocked

end CLanguageLearning.ThreadPool
