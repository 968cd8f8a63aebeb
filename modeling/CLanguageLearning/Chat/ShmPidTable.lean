import CLanguageLearning.Chat.ShmTalkServer

/-!
# The pid table of the chat server with shared memory

`users` leads from a slot to the pid of its child and `sub_process` from a pid to its slot. The two
tables are inverse to each other as long as no child is collected whose client is in the last slot
(`inverse_iff`). When one is, the last client "moves" onto itself, and the entry of the child that
was just cleared is written again (`stale_entry`). A pid from `PROCESS_LIMIT` on has no entry at all.

A collected child is one turn of the loop of the SIGCHLD branch, so the results hold between the
turns of that loop and at the top of the event loop alike.
-/

set_option autoImplicit false

namespace CLanguageLearning.Chat

open CLanguageLearning.Foundation

namespace TalkServer

/-- The two tables are inverse to each other: an entry that is not negative is the slot of its
process. A process that is no child any more has no entry, and a child that has not been collected
has one; none was written outside the table. -/
structure Inverse (s : TalkServer) : Prop where
  inside : s.outside = false
  count : s.user_count ≤ USER_LIMIT
  slot : ∀ p i : Nat, s.sub_process p = i ↔ i < s.user_count ∧ (s.users i).pid = p
  gone : ∀ p, s.child p = none → s.sub_process p = -1
  kept : ∀ p, s.child p ≠ none → 0 ≤ s.sub_process p

/-- The child that is collected is not that of the client in the last slot; a new child that gets a
slot has a pid below `PROCESS_LIMIT`. -/
def LastStays (s : TalkServer) : TalkEvent → Prop
  | .connect _ _ (some pid) => s.user_count < USER_LIMIT → pid < PROCESS_LIMIT
  | .reap pid => (s.users (s.user_count - 1)).pid ≠ pid
  | _ => True

instance (s : TalkServer) (e : TalkEvent) : Decidable (s.LastStays e) := by
  unfold LastStays
  split <;> infer_instance

section Inverse

variable {s t : TalkServer} {e : TalkEvent} {p : Nat} {c : Child}

/-- The entries of the children are right in every state, so only those of other processes can be
wrong. -/
theorem Table.inverse_iff_gone (h : s.Table) (hinside : s.outside = false) :
    s.Inverse ↔ ∀ p, s.child p = none → s.sub_process p = -1 := by
  constructor
  · exact fun hinv => hinv.gone
  · intro hgone
    constructor
    case inside => exact hinside
    case count => exact h.count
    case slot =>
      intro p i
      constructor
      · intro hentry
        have hchild : s.child p ≠ none := by
          intro hnone
          rw [hgone p hnone] at hentry
          omega
        obtain ⟨j, hj, rfl⟩ := h.user p hchild
        rw [h.entry j hj, Nat.cast_inj] at hentry
        exact hentry ▸ ⟨hj, rfl⟩
      · rintro ⟨hi, rfl⟩
        exact h.entry i hi
    case gone => exact hgone
    case kept =>
      intro p hchild
      obtain ⟨j, hj, rfl⟩ := h.user p hchild
      rw [h.entry j hj]
      exact Int.natCast_nonneg j

theorem inverse_start : start.Inverse :=
  (table_start.inverse_iff_gone rfl).mpr fun _ _ => rfl

/-- A new child has its entry, and the others keep theirs. -/
theorem Inverse.forked {connfd pipefd : Nat} (h : s.Inverse)
    (ht : (s.forked connfd pipefd p).Table) :
    (s.forked connfd pipefd p).Inverse := by
  refine (ht.inverse_iff_gone h.inside).mpr ?_
  intro q hq
  have hqp : q ≠ p := by
    rintro rfl
    simp [TalkServer.forked] at hq
  simp only [TalkServer.forked, Function.update_of_ne hqp] at hq ⊢
  exact h.gone q hq

theorem Inverse.withExit (h : s.Inverse) (ht : (s.withExit p c).Table) :
    (s.withExit p c).Inverse := by
  refine (ht.inverse_iff_gone h.inside).mpr ?_
  intro q hq
  have hqp : q ≠ p := by
    rintro rfl
    simp [TalkServer.withExit] at hq
  simp only [TalkServer.withExit, Function.update_of_ne hqp] at hq
  exact h.gone q hq

/-- After the move the tables are inverse exactly when the collected child is not that of the last
client, whose entry is the last one written. -/
theorem Inverse.compacted_iff {k n : Nat} (h : s.Inverse) (htable : s.Table)
    (hn : s.user_count = n + 1) (ht : (s.compacted p k n).Table) :
    (s.compacted p k n).Inverse ↔ (s.users n).pid ≠ p := by
  rw [ht.inverse_iff_gone h.inside]
  constructor
  · intro hgone hnp
    have hentry := hgone p (Function.update_self ..)
    simp only [TalkServer.compacted, hnp, Function.update_self] at hentry
    omega
  · intro hnp q hq
    show Function.update (Function.update s.sub_process p (-1)) (s.users n).pid (k : Int) q = -1
    by_cases hqp : q = p
    · -- the entry of the collected child is cleared
      rw [hqp, Function.update_of_ne hnp.symm, Function.update_self]
    · have hq' : s.child q = none := by
        simpa only [TalkServer.compacted, Function.update_of_ne hqp] using hq
      have hqn : q ≠ (s.users n).pid := by
        rintro rfl
        exact htable.held n (by omega) hq'
      rw [Function.update_of_ne hqn, Function.update_of_ne hqp]
      exact h.gone q hq'

/-- A step keeps the tables inverse exactly when it does not collect the child of the last
client. -/
theorem Inverse.step_iff (htable : s.Table) (h : s.Inverse) (hstep : s.step e = some t) :
    t.Inverse ↔ s.LastStays e := by
  have ht := htable.step hstep
  cases Stepped.of_step hstep with
  | refuse _ _ fork hfull =>
      refine iff_of_true h ?_
      cases fork with
      | none => trivial
      | some pid => exact fun hroom => absurd hroom (Nat.not_lt_of_ge hfull)
  | forkFails _ _ user _ =>
      exact iff_of_true ((ht.inverse_iff_gone h.inside).mpr h.gone) trivial
  | fork connfd pipefd _ _ hlimit => exact iff_of_true (h.forked ht) fun _ => hlimit
  | forkOutside _ _ hroom hlimit =>
      refine iff_of_false (fun hinv => ?_) fun hsmall => ?_
      · exact Bool.noConfusion hinv.inside
      · exact absurd (hsmall hroom) (Nat.not_lt_of_ge hlimit)
  | exit _ => exact iff_of_true (h.withExit ht) trivial
  | reap t hpid hrem =>
      obtain ⟨k, n, -, hn, -, hremove⟩ := htable.remove_eq hpid
      rw [hremove] at hrem
      cases hrem
      rw [h.compacted_iff htable hn ht, LastStays, hn, Nat.add_sub_cancel]

/-- The tables are inverse to each other throughout a run exactly when no child is ever collected
whose client is in the last slot, and every child has an entry in the array. -/
theorem inverse_iff {l : List TalkEvent} (hrun : runEvents step start l = some t) :
    (Along step (fun s _ => s.Inverse) start l ∧ t.Inverse) ↔ Along step LastStays start l :=
  always_iff_along (I := Table) (fun _ _ _ h hstep => h.step hstep)
    (fun _ _ _ htable h hstep => h.step_iff htable hstep) table_start inverse_start hrun

/-- Two clients come, and the first one leaves. -/
theorem inverse_iff_first_leaves : ∃ t,
    runEvents step start [.connect 10 20 (some 100), .connect 11 21 (some 101), .exit 100,
      .reap 100] = some t ∧ t.Inverse ∧ t.sub_process 101 = 0 := by
  refine ⟨_, rfl, ?_, rfl⟩
  refine ((inverse_iff (l := [.connect 10 20 (some 100), .connect 11 21 (some 101), .exit 100,
    .reap 100]) rfl).mpr ?_).2
  exact ⟨by decide, by decide, trivial, by decide, trivial⟩

/-- The only client leaves: its child has the slot 0 still, of which none is in use. -/
theorem stale_entry : ∃ t,
    runEvents step start [.connect 10 20 (some 100), .exit 100, .reap 100] = some t ∧
      t.user_count = 0 ∧ t.child 100 = none ∧ t.sub_process 100 = 0 ∧ ¬ t.Inverse := by
  refine ⟨_, rfl, rfl, rfl, rfl, ?_⟩
  intro h
  exact absurd (h.gone 100 rfl) (by decide)

end Inverse

end TalkServer

end CLanguageLearning.Chat
