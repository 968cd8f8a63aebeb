import CLanguageLearning.Foundation.Transitions
import Mathlib.Data.Finset.Range

/-!
# Copying a file with several processes

`mmap-multiprocess-copy.c`: the parent forks four children, and each of the five processes copies its
part of the source mapping to the target mapping. The loop variable `i` of `main` says which part
that is; the parent has the last one. Where `fork` fails the loop goes on, so the part of that child
is copied by nobody.

A step of `memcpy` copies one byte, in any order, and the processes take their steps in any order.
`copy_complete_iff` says when the target is the source after all of them have finished.
-/

set_option autoImplicit false

namespace CLanguageLearning.Processes

open CLanguageLearning.Foundation

namespace MultiprocessCopy

def num_process : Nat := 5

section Parts

variable (byte_num : Nat)

def each_process_byte : Nat := byte_num / num_process

def last_process_byte : Nat := byte_num - each_process_byte byte_num * (num_process - 1)

/-- Where the part of the process with the loop variable `i` begins. -/
def partStart (i : Nat) : Nat := each_process_byte byte_num * i

/-- How many bytes the process with the loop variable `i` copies. -/
def partSize (i : Nat) : Nat :=
  if i = num_process - 1 then last_process_byte byte_num else each_process_byte byte_num

end Parts

section Tiling

variable {byte_num i j k m : Nat}

theorem partSize_last : partSize byte_num (num_process - 1) = last_process_byte byte_num := if_pos rfl

theorem partSize_of_ne (h : i ≠ num_process - 1) :
    partSize byte_num i = each_process_byte byte_num := if_neg h

theorem partStart_succ (byte_num i : Nat) :
    partStart byte_num (i + 1) = partStart byte_num i + each_process_byte byte_num :=
  Nat.mul_succ ..

theorem partStart_mono (h : i ≤ j) : partStart byte_num i ≤ partStart byte_num j :=
  Nat.mul_le_mul_left _ h

/-- The last part reaches to the end of the file. -/
theorem partStart_last_add (byte_num : Nat) :
    partStart byte_num (num_process - 1) + last_process_byte byte_num = byte_num := by
  apply Nat.add_sub_of_le
  calc
    each_process_byte byte_num * (num_process - 1) ≤ each_process_byte byte_num * num_process :=
      Nat.mul_le_mul_left _ (Nat.sub_le ..)
    _ ≤ byte_num := Nat.div_mul_le_self ..

/-- A part ends where the next one begins, or before. -/
theorem part_end_le (byte_num : Nat) (h : i < j) (hj : j < num_process) :
    partStart byte_num i + partSize byte_num i ≤ partStart byte_num j := by
  have hi : i ≠ num_process - 1 := by omega
  rw [partSize_of_ne hi, ← partStart_succ]
  exact partStart_mono h

/-- Every part is inside the file. -/
theorem part_end_le_byte_num (byte_num : Nat) (hi : i < num_process) :
    partStart byte_num i + partSize byte_num i ≤ byte_num := by
  rcases Nat.lt_or_eq_of_le (Nat.le_sub_one_of_lt hi) with hlt | rfl
  · have hlast : num_process - 1 < num_process := by decide
    refine (part_end_le byte_num hlt hlast).trans ?_
    exact (Nat.le_add_right ..).trans (partStart_last_add byte_num).le
  · rw [partSize_last, partStart_last_add]

/-- No byte is in two parts. -/
theorem part_inj (hi : i < num_process) (hj : j < num_process) (hk : k < partSize byte_num i)
    (hm : m < partSize byte_num j) (he : partStart byte_num i + k = partStart byte_num j + m) :
    i = j ∧ k = m := by
  rcases Nat.lt_trichotomy i j with hlt | rfl | hlt
  · have hend := part_end_le byte_num hlt hj
    omega
  · exact ⟨rfl, Nat.add_left_cancel he⟩
  · have hend := part_end_le byte_num hlt hi
    omega

/-- Every byte is in a part. -/
theorem exists_part {a : Nat} (ha : a < byte_num) :
    ∃ i k, i < num_process ∧ k < partSize byte_num i ∧ a = partStart byte_num i + k := by
  rcases Nat.lt_or_ge a (partStart byte_num (num_process - 1)) with hlt | hge
  -- in the part of a child: the quotient and the remainder
  · have hpos : 0 < each_process_byte byte_num := by
      apply Nat.pos_of_ne_zero
      intro hzero
      rw [partStart, hzero, Nat.zero_mul] at hlt
      exact Nat.not_lt_zero a hlt
    have hquot : a / each_process_byte byte_num < num_process - 1 :=
      (Nat.div_lt_iff_lt_mul hpos).mpr (by rwa [Nat.mul_comm])
    refine ⟨_, a % each_process_byte byte_num, hquot.trans (by decide), ?_,
      (Nat.div_add_mod ..).symm⟩
    rw [partSize_of_ne (Nat.ne_of_lt hquot)]
    exact Nat.mod_lt a hpos
  · obtain ⟨k, rfl⟩ := Nat.exists_eq_add_of_le hge
    refine ⟨num_process - 1, k, by decide, ?_, rfl⟩
    have hend := partStart_last_add byte_num
    rw [partSize_last]
    omega

end Tiling

/-- Where a process is behind the loop of `fork`. -/
inductive Process where
  | absent
  /-- In `memcpy`, with the bytes of its part that are left. -/
  | copying (left : Finset Nat)
  /-- It has returned 0. -/
  | finished
  deriving DecidableEq

/-- The byte at `k` has been copied. -/
def Process.Copied (k : Nat) : Process → Prop
  | absent => False
  | copying left => k ∉ left
  | finished => True

/-- The program. `i` is the loop variable of the parent, and a process is told by its own. -/
structure Program where
  /-- The bytes of the target mapping. -/
  target : Nat → UInt8
  i : Nat
  process : Nat → Process

/-- What can happen next. -/
inductive Event where
  /-- `fork`, which may fail. -/
  | fork (ok : Bool)
  /-- The parent comes to its `memcpy`. -/
  | leave
  | copy (i k : Nat)
  | ret (i : Nat)
  deriving DecidableEq, Repr

namespace Program

/-- Before the loop. `ftruncate` has filled the target with zeros. -/
def start : Program := ⟨fun _ => 0, 0, fun _ => .absent⟩

section Steps

variable (source : Nat → UInt8) (byte_num : Nat)

def step (s : Program) : Event → Option Program
  | .fork ok =>
      if s.i < num_process - 1 then
        some { s with
          i := s.i + 1
          process :=
            if ok then
              Function.update s.process s.i (.copying (Finset.range (partSize byte_num s.i)))
            -- `perror`, and the loop goes on
            else s.process }
      else none
  | .leave =>
      if s.i = num_process - 1 ∧ s.process s.i = .absent then
        some { s with
          process := Function.update s.process s.i
            (.copying (Finset.range (partSize byte_num s.i))) }
      else none
  | .copy i k =>
      match s.process i with
      | .copying left =>
          if k ∈ left then
            some { s with
              target := Function.update s.target (partStart byte_num i + k)
                (source (partStart byte_num i + k))
              process := Function.update s.process i (.copying (left.erase k)) }
          else none
      | _ => none
  | .ret i =>
      match s.process i with
      | .copying left =>
          if left = ∅ then some { s with process := Function.update s.process i .finished }
          else none
      | _ => none

/-- A `fork` fails only where the part of the child has nothing but zeros, or no byte at all. -/
def ForkSpared (s : Program) : Event → Prop
  | .fork ok => ok = false → ∀ k < partSize byte_num s.i, source (partStart byte_num s.i + k) = 0
  | _ => True

end Steps

/-- The parent has returned, and so has every child that was created. -/
def Done (s : Program) : Prop :=
  s.process (num_process - 1) = .finished ∧
    ∀ i, s.process i = .absent ∨ s.process i = .finished

/-- The part of a process in the target: the bytes of the source where it has copied them, and zeros
elsewhere. -/
structure PartRight (source : Nat → UInt8) (byte_num : Nat) (target : Nat → UInt8) (i : Nat)
    (p : Process) : Prop where
  left : ∀ left, p = .copying left → left ⊆ Finset.range (partSize byte_num i)
  copied : ∀ k < partSize byte_num i, p.Copied k →
    target (partStart byte_num i + k) = source (partStart byte_num i + k)
  rest : ∀ k < partSize byte_num i, ¬ p.Copied k → target (partStart byte_num i + k) = 0

/-- The loop with the variable `i` has passed the process `j`: it is a child, or the parent behind its
loop. -/
def Passed (i j : Nat) : Prop := j < i ∨ j = i ∧ i = num_process - 1

/-- What holds all along: the processes that exist are those the loop has passed, and their parts are
right. -/
structure Copying (source : Nat → UInt8) (byte_num : Nat) (s : Program) : Prop where
  i_le : s.i ≤ num_process - 1
  passed : ∀ j, s.process j ≠ .absent → Passed s.i j
  part : ∀ j, j < num_process → PartRight source byte_num s.target j (s.process j)

/-- The parts of the children that were not created are zeros in the source. -/
def Spared (source : Nat → UInt8) (byte_num : Nat) (s : Program) : Prop :=
  ∀ j < s.i, s.process j = .absent →
    ∀ k < partSize byte_num j, source (partStart byte_num j + k) = 0

/-- What a step does. -/
inductive Stepped (source : Nat → UInt8) (byte_num : Nat) (s : Program) : Event → Program → Prop where
  | refused (hi : s.i < num_process - 1) :
      Stepped source byte_num s (.fork false) { s with i := s.i + 1 }
  | forked (hi : s.i < num_process - 1) :
      Stepped source byte_num s (.fork true) { s with
        i := s.i + 1
        process := Function.update s.process s.i
          (.copying (Finset.range (partSize byte_num s.i))) }
  | left (hi : s.i = num_process - 1) (habsent : s.process s.i = .absent) :
      Stepped source byte_num s .leave { s with
        process := Function.update s.process s.i
          (.copying (Finset.range (partSize byte_num s.i))) }
  | copied {i k : Nat} {left : Finset Nat} (hprocess : s.process i = .copying left)
      (hk : k ∈ left) : Stepped source byte_num s (.copy i k) { s with
        target := Function.update s.target (partStart byte_num i + k)
          (source (partStart byte_num i + k))
        process := Function.update s.process i (.copying (left.erase k)) }
  | returned {i : Nat} (hprocess : s.process i = .copying ∅) :
      Stepped source byte_num s (.ret i) { s with
        process := Function.update s.process i .finished }

section Runs

variable {source target : Nat → UInt8} {byte_num : Nat} {s t : Program} {e : Event} {l : List Event}
  {p : Process} {left : Finset Nat} {i j k : Nat}

namespace PartRight

theorem absent (i : Nat) : PartRight source byte_num (fun _ => 0) i .absent where
  left := by
    intro left h
    cases h
  copied := fun _ _ h => h.elim
  rest := fun _ _ _ => rfl

/-- A process begins with its whole part. -/
theorem begin (h : PartRight source byte_num target i .absent) :
    PartRight source byte_num target i (.copying (Finset.range (partSize byte_num i))) where
  left := by
    intro left hleft
    cases hleft
    exact Finset.Subset.refl _
  copied := fun k hk hcopied => absurd (Finset.mem_range.mpr hk) hcopied
  rest := fun k hk _ => h.rest k hk id

theorem copy (h : PartRight source byte_num target i (.copying left)) :
    PartRight source byte_num (Function.update target (partStart byte_num i + k)
      (source (partStart byte_num i + k))) i (.copying (left.erase k)) where
  left := by
    intro left' hleft
    cases hleft
    exact (Finset.erase_subset k left).trans (h.left left rfl)
  copied := by
    intro m hm hcopied
    rcases eq_or_ne m k with rfl | hne
    · exact Function.update_self ..
    · have hmem : m ∉ left := fun hmem => hcopied (Finset.mem_erase.mpr ⟨hne, hmem⟩)
      rw [Function.update_of_ne (fun he => hne (Nat.add_left_cancel he))]
      exact h.copied m hm hmem
  rest := by
    intro m hm hcopied
    obtain ⟨hne, hmem⟩ := Finset.mem_erase.mp (not_not.mp hcopied)
    rw [Function.update_of_ne (fun he => hne (Nat.add_left_cancel he))]
    exact h.rest m hm (not_not.mpr hmem)

/-- What another process copies is in another part. -/
theorem other {v : UInt8} (h : PartRight source byte_num target j p) (hne : j ≠ i)
    (hj : j < num_process) (hi : i < num_process) (hk : k < partSize byte_num i) :
    PartRight source byte_num (Function.update target (partStart byte_num i + k) v) j p := by
  have hkeep : ∀ m < partSize byte_num j,
      Function.update target (partStart byte_num i + k) v (partStart byte_num j + m) =
        target (partStart byte_num j + m) := by
    intro m hm
    apply Function.update_of_ne
    intro he
    exact hne (part_inj hj hi hm hk he).1
  refine ⟨h.left, fun m hm hcopied => ?_, fun m hm hcopied => ?_⟩
  · rw [hkeep m hm]
    exact h.copied m hm hcopied
  · rw [hkeep m hm]
    exact h.rest m hm hcopied

theorem finish (h : PartRight source byte_num target i (.copying ∅)) :
    PartRight source byte_num target i .finished where
  left := by
    intro left hleft
    cases hleft
  copied := fun k hk _ => h.copied k hk (Finset.notMem_empty k)
  rest := fun _ _ hcopied => absurd trivial hcopied

end PartRight

theorem copying_start : start.Copying source byte_num :=
  ⟨Nat.zero_le _, fun _ h => absurd rfl h, fun j _ => .absent j⟩

theorem spared_start : start.Spared source byte_num := fun _ h => absurd h (Nat.not_lt_zero _)

/-- A process that exists has a part. -/
theorem Copying.lt_num_process (h : s.Copying source byte_num) (hj : s.process j ≠ .absent) :
    j < num_process := by
  have hi := h.i_le
  have hpos : 0 < num_process := by decide
  rcases h.passed j hj with hlt | ⟨rfl, heq⟩
  · omega
  · omega

/-- In the loop the next child does not exist. -/
theorem Copying.absent_of_lt (h : s.Copying source byte_num) (hi : s.i < num_process - 1) :
    s.process s.i = .absent := by
  by_contra hne
  rcases h.passed s.i hne with hlt | ⟨-, heq⟩
  · exact Nat.lt_irrefl _ hlt
  · exact absurd heq (Nat.ne_of_lt hi)

/-- One process moves on. -/
theorem Copying.move (hi : i ≤ num_process - 1) (hj : Passed i j)
    (hpassed : ∀ m, s.process m ≠ .absent → Passed i m)
    (hself : j < num_process → PartRight source byte_num target j p)
    (hother : ∀ m, m ≠ j → m < num_process → PartRight source byte_num target m (s.process m)) :
    Copying source byte_num ⟨target, i, Function.update s.process j p⟩ where
  i_le := hi
  passed := (Function.forall_update_iff _ fun m q => q ≠ Process.absent → Passed i m).mpr
    ⟨fun _ => hj, fun m _ => hpassed m⟩
  part := (Function.forall_update_iff _ fun m q => m < num_process →
    PartRight source byte_num target m q).mpr ⟨hself, hother⟩

theorem Stepped.of_step (hstep : s.step source byte_num e = some t) :
    s.Stepped source byte_num e t := by
  cases e with
  | fork ok =>
      obtain ⟨hi, ht⟩ := Option.ite_none_right_eq_some.mp hstep
      cases ht
      cases ok with
      | false => exact .refused hi
      | true => exact .forked hi
  | leave =>
      obtain ⟨⟨hi, habsent⟩, ht⟩ := Option.ite_none_right_eq_some.mp hstep
      cases ht
      exact .left hi habsent
  | copy i k =>
      simp only [step] at hstep
      split at hstep
      next left hprocess =>
        obtain ⟨hk, ht⟩ := Option.ite_none_right_eq_some.mp hstep
        cases ht
        exact .copied hprocess hk
      next => cases hstep
  | ret i =>
      simp only [step] at hstep
      split at hstep
      next left hprocess =>
        obtain ⟨rfl, ht⟩ := Option.ite_none_right_eq_some.mp hstep
        cases ht
        exact .returned hprocess
      next => cases hstep

theorem Copying.step (h : s.Copying source byte_num)
    (hstep : s.step source byte_num e = some t) : t.Copying source byte_num := by
  have hpassed : s.i < num_process - 1 → ∀ j, s.process j ≠ .absent → Passed (s.i + 1) j := by
    intro hi j hj
    rcases h.passed j hj with hlt | ⟨-, heq⟩
    · exact Or.inl (Nat.lt_succ_of_lt hlt)
    · exact absurd heq (Nat.ne_of_lt hi)
  cases Stepped.of_step hstep with
  | refused hi => exact ⟨hi, hpassed hi, h.part⟩
  | forked hi =>
      refine .move hi (Or.inl (Nat.lt_succ_self _)) (hpassed hi) ?_ fun m _ => h.part m
      exact fun hnumber => (h.absent_of_lt hi ▸ h.part s.i hnumber).begin
  | left hi habsent =>
      refine .move h.i_le (Or.inr ⟨rfl, hi⟩) h.passed ?_ fun m _ => h.part m
      exact fun hnumber => (habsent ▸ h.part s.i hnumber).begin
  | @copied i k left hprocess hk =>
      have hne : s.process i ≠ .absent := by simp [hprocess]
      have hnumber := h.lt_num_process hne
      have hpart : PartRight source byte_num s.target i (.copying left) :=
        hprocess ▸ h.part i hnumber
      have hsize := Finset.mem_range.mp (hpart.left left rfl hk)
      refine .move h.i_le (h.passed i hne) h.passed (fun _ => hpart.copy) ?_
      exact fun m hmi hm => (h.part m hm).other hmi hm hnumber hsize
  | @returned i hprocess =>
      have hne : s.process i ≠ .absent := by simp [hprocess]
      refine .move h.i_le (h.passed i hne) h.passed ?_ fun m _ => h.part m
      exact fun hnumber => (hprocess ▸ h.part i hnumber).finish

/-- A process that exists goes on existing. -/
theorem absent_update_iff (hi : s.process i ≠ .absent) (hp : p ≠ .absent) (j : Nat) :
    Function.update s.process i p j = .absent ↔ s.process j = .absent := by
  rcases eq_or_ne j i with rfl | hne
  · simp [hi, hp]
  · rw [Function.update_of_ne hne]

/-- A child that the loop has passed is created or never will be. -/
theorem absent_iff (hstep : s.step source byte_num e = some t) (hj : j < s.i) :
    t.process j = .absent ↔ s.process j = .absent := by
  have hne : j ≠ s.i := Nat.ne_of_lt hj
  cases Stepped.of_step hstep with
  | refused => rfl
  | forked | left => simp [Function.update_of_ne hne]
  | copied hprocess | returned hprocess => exact absent_update_iff (by simp [hprocess]) (by simp) j

theorem i_eq (hstep : s.step source byte_num e = some t) :
    t.i = match e with
      | .fork _ => s.i + 1
      | _ => s.i := by
  cases Stepped.of_step hstep with
  | refused | forked | left | copied | returned => rfl

/-- A step that is not a `fork` decides nothing about the children. -/
theorem spared_congr (hi : t.i = s.i) (hstep : s.step source byte_num e = some t) :
    t.Spared source byte_num ↔ s.Spared source byte_num := by
  rw [Spared, hi]
  constructor
  · intro h j hj habsent
    exact h j hj ((absent_iff hstep hj).mpr habsent)
  · intro h j hj habsent
    exact h j hj ((absent_iff hstep hj).mp habsent)

theorem spared_step_iff (h : s.Copying source byte_num) (hs : s.Spared source byte_num)
    (hstep : s.step source byte_num e = some t) :
    t.Spared source byte_num ↔ s.ForkSpared source byte_num e := by
  have habsent_iff := fun j => absent_iff (j := j) hstep
  cases Stepped.of_step hstep with
  | refused hi =>
      constructor
      · intro hspared _
        exact hspared s.i (Nat.lt_succ_self _) (h.absent_of_lt hi)
      · intro hfork j hj hj'
        rcases Nat.lt_succ_iff_lt_or_eq.mp hj with hlt | rfl
        · exact hs j hlt ((habsent_iff j hlt).mp hj')
        · exact hfork rfl
  | forked hi =>
      refine iff_of_true (fun j hj hj' => ?_) (by simp [ForkSpared])
      rcases Nat.lt_succ_iff_lt_or_eq.mp hj with hlt | rfl
      · exact hs j hlt ((habsent_iff j hlt).mp hj')
      · simp at hj'
  | left | copied | returned =>
      exact iff_of_true ((spared_congr (i_eq hstep) hstep).mpr hs) trivial

theorem spared_back (hstep : s.step source byte_num e = some t) (ht : t.Spared source byte_num) :
    s.Spared source byte_num := by
  have hle : s.i ≤ t.i := by
    rw [i_eq hstep]
    cases e with
    | fork => exact Nat.le_succ s.i
    | leave | copy | ret => exact Nat.le_refl s.i
  intro j hj habsent
  exact ht j (hj.trans_le hle) ((absent_iff hstep hj).mpr habsent)

/-- When all have finished, the loop has been left. -/
theorem Copying.i_eq_of_done (h : s.Copying source byte_num) (hdone : s.Done) :
    s.i = num_process - 1 := by
  have hparent : s.process (num_process - 1) ≠ .absent := by simp [hdone.1]
  rcases h.passed _ hparent with hlt | ⟨-, heq⟩
  · exact absurd h.i_le (not_le.mpr hlt)
  · exact heq

/-- In the end the target is the source if and only if the parts that nobody has copied are zeros. -/
theorem Copying.complete_iff (h : s.Copying source byte_num) (hdone : s.Done) :
    (∀ a < byte_num, s.target a = source a) ↔ s.Spared source byte_num := by
  have hi := h.i_eq_of_done hdone
  constructor
  · intro hall j hj habsent k hk
    have hnumber : j < num_process := by omega
    have hend := part_end_le_byte_num byte_num hnumber
    have hrest := (h.part j hnumber).rest k hk (by simp [habsent, Process.Copied])
    rw [← hall _ (by omega), hrest]
  · intro hspared a ha
    obtain ⟨j, k, hnumber, hk, rfl⟩ := exists_part ha
    rcases hdone.2 j with habsent | hfinished
    · have hne : j ≠ num_process - 1 := by
        rintro rfl
        rw [hdone.1] at habsent
        cases habsent
      have hrest := (h.part j hnumber).rest k hk (by simp [habsent, Process.Copied])
      rw [hrest, hspared j (by omega) habsent k hk]
    · exact (h.part j hnumber).copied k hk (by simp [hfinished, Process.Copied])

/-- For every file, every outcome of the calls of `fork` and every order of steps: the parts are
disjoint and inside the file, and when the parent has returned and all children that were created
have finished, the target is the source exactly when each `fork` that failed was for a part of
zeros. -/
theorem copy_complete_iff (hrun : runEvents (step source byte_num) start l = some t) :
    (∀ i j k m, i < num_process → j < num_process → k < partSize byte_num i →
      m < partSize byte_num j → partStart byte_num i + k = partStart byte_num j + m →
        i = j ∧ k = m) ∧
    (∀ i k, i < num_process → k < partSize byte_num i → partStart byte_num i + k < byte_num) ∧
    (t.Done → ((∀ a < byte_num, t.target a = source a) ↔
      Along (step source byte_num) (ForkSpared source byte_num) start l)) := by
  refine ⟨fun i j k m hi hj hk hm => part_inj hi hj hk hm, fun i k hi hk => ?_, fun hdone => ?_⟩
  · have hend := part_end_le_byte_num byte_num hi
    omega
  · have hkept : t.Copying source byte_num :=
      invariant (fun s e u hs hstep => hs.step hstep) copying_start hrun
    have hiff := always_iff_along (P := fun s => s.Spared source byte_num)
      (fun s e u hs hstep => Copying.step hs hstep)
      (fun s e u hs hspared hstep => spared_step_iff hs hspared hstep) copying_start spared_start
      hrun
    rw [hkept.complete_iff hdone, ← hiff]
    constructor
    · intro ht
      exact ⟨(along_of_end (fun s e u hstep => spared_back hstep) hrun ht).2, ht⟩
    · exact And.right

/-- A file of six letters, copied by five processes, the last one first. -/
def sixLetters : List Event :=
  [.fork true, .fork true, .fork true, .fork true, .leave, .copy 4 1, .copy 4 0, .ret 4, .copy 2 0,
    .copy 0 0, .ret 0, .copy 3 0, .copy 1 0, .ret 1, .ret 2, .ret 3]

/-- The same with five letters, when the first `fork` fails. -/
def firstForkFails : List Event :=
  [.fork false, .fork true, .fork true, .fork true, .leave, .copy 1 0, .ret 1, .copy 2 0, .ret 2,
    .copy 3 0, .ret 3, .copy 4 0, .ret 4]

/-- Whether all have finished is a matter of the five processes. -/
theorem done_of_five (h : s.Copying source byte_num) (hparent : s.process 4 = .finished)
    (hfive : ∀ i < 5, s.process i = .absent ∨ s.process i = .finished) : s.Done := by
  refine ⟨hparent, fun i => ?_⟩
  by_cases hi : s.process i = .absent
  · exact Or.inl hi
  · exact hfive i (h.lt_num_process hi)

theorem copy_complete_iff_six : ∃ t,
    runEvents (step (fun a => a.toUInt8 + 97) 6) start sixLetters = some t ∧ t.Done ∧
      ∀ a < 6, t.target a = a.toUInt8 + 97 := by
  have hall : ∀ t, runEvents (step (fun a => a.toUInt8 + 97) 6) start sixLetters = some t →
      t.Done → ∀ a < 6, t.target a = a.toUInt8 + 97 := by
    intro t hrun hdone
    refine ((copy_complete_iff hrun).2.2 hdone).mpr ?_
    refine ⟨fun h => ?_, fun h => ?_, fun h => ?_, fun h => ?_, trivial, trivial, trivial, trivial,
      trivial, trivial, trivial, trivial, trivial, trivial, trivial, trivial, trivial⟩
    all_goals cases h
  have hdone : ∀ t, runEvents (step (fun a => a.toUInt8 + 97) 6) start sixLetters = some t →
      t.process 4 = .finished → (∀ i < 5, t.process i = .absent ∨ t.process i = .finished) →
        t.Done := by
    intro t hrun
    exact done_of_five (invariant (fun s e u hs hstep => hs.step hstep) copying_start hrun)
  have hfive := hdone _ rfl rfl (by decide)
  exact ⟨_, rfl, hfive, hall _ rfl hfive⟩

/-- The first of five letters is copied by nobody. -/
theorem first_byte_not_copied : ∃ t,
    runEvents (step (fun a => a.toUInt8 + 97) 5) start firstForkFails = some t ∧ t.Done ∧
      ¬ ∀ a < 5, t.target a = a.toUInt8 + 97 := by
  have hdone : ∀ t, runEvents (step (fun a => a.toUInt8 + 97) 5) start firstForkFails = some t →
      t.process 4 = .finished → (∀ i < 5, t.process i = .absent ∨ t.process i = .finished) →
        t.Done := by
    intro t hrun
    exact done_of_five (invariant (fun s e u hs hstep => hs.step hstep) copying_start hrun)
  refine ⟨_, rfl, hdone _ rfl rfl (by decide), fun h => ?_⟩
  cases h 0 (by decide)

end Runs

end Program

end MultiprocessCopy

end CLanguageLearning.Processes
