import CLanguageLearning.WebServer.Log

/-!
# Runs of the asynchronous log

`Accounts s dropped` says where every formatted line is: in a file, in the queue, with the flush
thread, with the thread that formatted it, or among the lines `dropped` by a push. Every step keeps
the account, and only a push into a full queue adds to the lines dropped.
-/

set_option autoImplicit false

namespace CLanguageLearning.WebServer

open CLanguageLearning.Foundation

namespace Log

variable {s s' : Log} {c : LogCall} {line : String}

/-- A change of the file leaves the lines where they are. -/
theorem rotate_files {opened : Bool} {u : Unit} (h : (rotate c opened).run s = .ok (u, s')) :
    s'.files = s.files := by
  simp only [rotate, StateT.run_bind, StateT.run_modify, StateT.run_get, except_pure, ok_bind,
    run_ite, run_throw] at h
  split at h
  · cases h
  · split at h
    · split at h
      · cases h
      · split at h <;> cases h <;> rfl
    · cases h
      rfl

theorem format_run (h : (format c).run s = .ok (line, s')) : s' = s := by
  simp only [format, StateT.run_bind, StateT.run_get, except_pure, ok_bind, run_ite,
    run_throw] at h
  split at h
  · cases h
  · simp only [StateT.run_pure, except_pure, Except.ok.injEq, Prod.mk.injEq] at h
    exact h.2.symm

theorem fputs_run {u : Unit} (h : (fputs line).run s = .ok (u, s')) :
    s'.written = s.written ++ [line] := by
  simp only [fputs, StateT.run_bind, StateT.run_get, except_pure, ok_bind] at h
  split at h
  · cases h
  · cases h
    simp [written]

end Log

namespace LogSystem

variable {ι : Type} [DecidableEq ι] [Fintype ι] {s t : LogSystem ι} {i : ι}
  {dropped : Multiset String}

/-- Where the formatted lines are. -/
def Accounts (s : LogSystem ι) (dropped : Multiset String) : Prop :=
  ∃ seq, Holds s.m_log_queue seq ∧
    (s.formatted : Multiset String) =
      s.log.written + seq + s.flusher.held + (∑ j, (s.writer j).pending) + dropped

theorem pending_move (s : LogSystem ι) (i : ι) (p : Writer) :
    (∑ j, ((s.move i p).writer j).pending) + (s.writer i).pending =
      (∑ j, (s.writer j).pending) + p.pending :=
  sum_update_add Writer.pending s.writer i p

/-- A thread whose call is over has handed its line on. -/
theorem pending_leave {line : String} (hi : (s.writer i).pending = {line}) :
    (∑ j, (s.writer j).pending) = (∑ j, ((s.move i .outside).writer j).pending) + {line} := by
  have hsum := s.pending_move i .outside
  rw [hi, show Writer.outside.pending = 0 from rfl, add_zero] at hsum
  exact hsum.symm

/-- A thread moves between points with the same line, if any. -/
theorem Accounts.move {p : Writer} (h : s.Accounts dropped)
    (hp : p.pending = (s.writer i).pending) : (s.move i p).Accounts dropped := by
  obtain ⟨seq, hholds, heq⟩ := h
  refine ⟨seq, hholds, ?_⟩
  have hsum := s.pending_move i p
  rw [hp, add_left_inj] at hsum
  show (s.formatted : Multiset String) = _
  rw [hsum, heq]
  rfl

/-- A line has been formatted. -/
theorem Accounts.format {line : String} (h : s.Accounts dropped) (hi : (s.writer i).pending = 0) :
    ({ s with formatted := s.formatted ++ [line] }.move i (.testing line)).Accounts dropped := by
  obtain ⟨seq, hholds, heq⟩ := h
  refine ⟨seq, hholds, ?_⟩
  have hsum := s.pending_move i (.testing line)
  rw [hi, add_zero] at hsum
  show ((s.formatted ++ [line] : List String) : Multiset String) = s.log.written + seq +
    s.flusher.held + (∑ j, ((s.move i (.testing line)).writer j).pending) + dropped
  rw [hsum, ← Multiset.coe_add, heq, Multiset.coe_singleton, show (Writer.testing line).pending =
    {line} from rfl]
  abel

/-- A thread has written its line itself. -/
theorem Accounts.write {line : String} {log : Log} (h : s.Accounts dropped)
    (hi : s.writer i = .direct line) (hlog : log.written = s.log.written ++ [line]) :
    ({ s with log := log }.move i .outside).Accounts dropped := by
  obtain ⟨seq, hholds, heq⟩ := h
  refine ⟨seq, hholds, ?_⟩
  show (s.formatted : Multiset String) = (log.written : Multiset String) + seq + s.flusher.held +
    (∑ j, ((s.move i .outside).writer j).pending) + dropped
  rw [heq, pending_leave (s := s) (i := i) (by rw [hi]; rfl), hlog, ← Multiset.coe_add,
    Multiset.coe_singleton]
  abel

/-- A push that finds room moves the line of its thread to the queue. -/
theorem Accounts.push {line : String} {seq : List String} {q : BlockQueue String}
    {flusher : Flusher} (hq : Holds q (seq ++ [line]))
    (heq : (s.formatted : Multiset String) =
      s.log.written + seq + s.flusher.held + (∑ j, (s.writer j).pending) + dropped)
    (hi : s.writer i = .pushing line) (hf : flusher.held = s.flusher.held) :
    ({ s with m_log_queue := q, flusher := flusher }.move i .outside).Accounts dropped := by
  refine ⟨seq ++ [line], hq, ?_⟩
  show (s.formatted : Multiset String) = s.log.written + ((seq ++ [line] : List String) :
    Multiset String) + flusher.held + (∑ j, ((s.move i .outside).writer j).pending) + dropped
  rw [heq, pending_leave (s := s) (i := i) (by rw [hi]; rfl), hf, ← Multiset.coe_add,
    Multiset.coe_singleton]
  abel

/-- A push that finds the queue full loses the line of its thread. -/
theorem Accounts.drop {line : String} {flusher : Flusher} (h : s.Accounts dropped)
    (hi : s.writer i = .pushing line) (hf : flusher.held = s.flusher.held) :
    ({ s with flusher := flusher }.move i .outside).Accounts (dropped + {line}) := by
  obtain ⟨seq, hholds, heq⟩ := h
  refine ⟨seq, hholds, ?_⟩
  show (s.formatted : Multiset String) = s.log.written + seq + flusher.held +
    (∑ j, ((s.move i .outside).writer j).pending) + (dropped + {line})
  rw [heq, pending_leave (s := s) (i := i) (by rw [hi]; rfl), hf]
  abel

omit [DecidableEq ι] in
/-- A part of `pop` run by the flush thread takes the oldest line out of the queue, or none. -/
theorem Accounts.settleFlush {x : Exec (BlockQueue String) (Option (Option String))}
    (h : s.Accounts dropped) (hx : x = BlockQueue.popEnter) (hf : s.flusher.held = 0)
    (hstep : s.settleFlush (x.run s.m_log_queue) = some t) : t.Accounts dropped := by
  obtain ⟨seq, hholds, heq⟩ := h
  subst hx
  cases seq with
  | nil =>
      rw [BlockQueue.popEnter_run_nil hholds] at hstep
      cases hstep
      refine ⟨[], hholds, ?_⟩
      rw [hf] at heq
      exact heq
  | cons line seq =>
      obtain ⟨q, hrun, hq, -⟩ := BlockQueue.popEnter_run_cons hholds
      rw [hrun] at hstep
      cases hstep
      refine ⟨seq, hq, ?_⟩
      show (s.formatted : Multiset String) = s.log.written + seq + {line} +
        (∑ j, (s.writer j).pending) + dropped
      rw [heq, hf, ← Multiset.cons_coe, ← Multiset.singleton_add]
      abel

omit [DecidableEq ι] in
/-- The flush thread has written its line. -/
theorem Accounts.flushWrite {line : String} {log : Log} (h : s.Accounts dropped)
    (hf : s.flusher = .writing line) (hlog : log.written = s.log.written ++ [line]) :
    Accounts { s with log := log, flusher := .popping } dropped := by
  obtain ⟨seq, hholds, heq⟩ := h
  refine ⟨seq, hholds, ?_⟩
  show (s.formatted : Multiset String) = (log.written : Multiset String) + seq + 0 +
    (∑ j, (s.writer j).pending) + dropped
  rw [heq, hf, show (Flusher.writing line).held = {line} from rfl, hlog, ← Multiset.coe_add,
    Multiset.coe_singleton]
  abel

@[simp] theorem notify_held (f : Flusher) : (notify f).held = f.held := by
  cases f <;> rfl

theorem Accounts.rotate_step {opened : Bool} (h : s.Accounts dropped)
    (hstep : s.step (.rotate i opened) = some t) : t.Accounts dropped := by
  rw [LogSystem.step] at hstep
  split at hstep
  · next c hi =>
      split at hstep
      · cases hstep
      · next u log hrun =>
          cases hstep
          obtain ⟨seq, hholds, heq⟩ := h
          refine Accounts.move (s := { s with log := log }) ⟨seq, hholds, ?_⟩ ?_
          · -- a new file, but no line is written
            rw [heq, Log.written, Log.written, Log.rotate_files hrun]
          · show _ = (s.writer i).pending
            rw [hi]
            rfl
  · cases hstep

theorem Accounts.test_step (h : s.Accounts dropped) (hstep : s.step (.test i) = some t) :
    t.Accounts dropped := by
  rw [LogSystem.step] at hstep
  split at hstep
  · next line hi =>
      split at hstep
      · obtain ⟨seq, hholds, heq⟩ := h
        rw [BlockQueue.full_run hholds] at hstep
        cases hstep
        refine Accounts.move ⟨seq, hholds, heq⟩ ?_
        rw [hi]
        split <;> rfl
      · cases hstep
        exact h.move (by rw [hi]; rfl)
  · cases hstep

/-- A push keeps the account if it finds room, and loses its line otherwise. -/
theorem Accounts.push_step (h : s.Accounts dropped) (hstep : s.step (.push i) = some t) :
    (s.PushFits (.push i) ∧ t.Accounts dropped) ∨
      (¬ s.PushFits (.push i) ∧ ∃ line, t.Accounts (dropped + {line})) := by
  rw [LogSystem.step] at hstep
  split at hstep
  · next line hi =>
      obtain ⟨seq, hholds, heq⟩ := h
      rcases Nat.lt_or_eq_of_le hholds.length_le with hroom | hfull
      · obtain ⟨q, hrun, hq, -⟩ := BlockQueue.push_run hholds hroom line
        rw [hrun] at hstep
        cases hstep
        have hfits : s.m_log_queue.m_size < s.m_log_queue.m_max_size := by
          rw [hholds.size, hholds.capacity]
          exact_mod_cast hroom
        exact Or.inl ⟨hfits, Accounts.push hq heq hi (notify_held _)⟩
      · -- the test for room was made before others pushed
        rw [BlockQueue.push_run_full hholds hfull] at hstep
        cases hstep
        have hfits : ¬ s.m_log_queue.m_size < s.m_log_queue.m_max_size := by
          rw [hholds.size, hholds.capacity, hfull]
          exact lt_irrefl _
        exact Or.inr ⟨hfits, line, Accounts.drop ⟨seq, hholds, heq⟩ hi (notify_held _)⟩
  · cases hstep

omit [DecidableEq ι] in
/-- The flush thread moves between points without a line. -/
theorem Accounts.withFlusher {flusher : Flusher} (h : s.Accounts dropped)
    (hf : flusher.held = s.flusher.held) : Accounts { s with flusher := flusher } dropped := by
  obtain ⟨seq, hholds, heq⟩ := h
  refine ⟨seq, hholds, ?_⟩
  rw [hf]
  exact heq

/-- Every step keeps the account, up to the line that a push into a full queue loses. -/
theorem Accounts.step {e : LogEvent ι} (h : s.Accounts dropped) (hstep : s.step e = some t) :
    (s.PushFits e ∧ t.Accounts dropped) ∨
      (¬ s.PushFits e ∧ ∃ line, t.Accounts (dropped + {line})) := by
  cases e with
  | call i c =>
      rw [LogSystem.step] at hstep
      refine Or.inl ⟨trivial, ?_⟩
      split at hstep
      · next hi =>
          cases hstep
          exact h.move (by rw [hi]; rfl)
      · cases hstep
  | rotate i opened => exact Or.inl ⟨trivial, h.rotate_step hstep⟩
  | format i =>
      rw [LogSystem.step] at hstep
      refine Or.inl ⟨trivial, ?_⟩
      split at hstep
      · next c hi =>
          split at hstep
          · cases hstep
          · next line log hrun =>
              cases hstep
              rw [Log.format_run hrun]
              exact h.format (by rw [hi]; rfl)
      · cases hstep
  | test i => exact Or.inl ⟨trivial, h.test_step hstep⟩
  | push i => exact h.push_step hstep
  | write i =>
      rw [LogSystem.step] at hstep
      refine Or.inl ⟨trivial, ?_⟩
      split at hstep
      · next line hi =>
          split at hstep
          · cases hstep
          · next u log hrun =>
              cases hstep
              exact h.write hi (Log.fputs_run hrun)
      · cases hstep
  | flushPop =>
      rw [LogSystem.step] at hstep
      refine Or.inl ⟨trivial, ?_⟩
      split at hstep
      · next hf => exact h.settleFlush rfl (by rw [hf]; rfl) hstep
      · cases hstep
  | flushWakeup =>
      rw [LogSystem.step] at hstep
      refine Or.inl ⟨trivial, ?_⟩
      split at hstep
      · next hf =>
          cases hstep
          exact h.withFlusher (by rw [hf]; rfl)
      · cases hstep
  | flushResume =>
      rw [LogSystem.step] at hstep
      refine Or.inl ⟨trivial, ?_⟩
      split at hstep
      · next hf => exact h.settleFlush rfl (by rw [hf]; rfl) hstep
      · cases hstep
  | flushGiveUp =>
      rw [LogSystem.step] at hstep
      refine Or.inl ⟨trivial, ?_⟩
      split at hstep
      · next hf =>
          cases hstep
          exact h.withFlusher (by rw [hf]; rfl)
      · cases hstep
  | flushWrite =>
      rw [LogSystem.step] at hstep
      refine Or.inl ⟨trivial, ?_⟩
      split at hstep
      · next line hf =>
          split at hstep
          · cases hstep
          · next u log hrun =>
              cases hstep
              exact h.flushWrite hf (Log.fputs_run hrun)
      · cases hstep

omit [DecidableEq ι] in
theorem accounts_start (log : Log) {q : BlockQueue String} (hq : Holds q []) :
    (start (ι := ι) log q).Accounts 0 := by
  refine ⟨[], hq, ?_⟩
  simp [start, Log.written, Flusher.held, Writer.pending]

omit [DecidableEq ι] in
/-- When nothing is on its way, the lines that are in no file were dropped. -/
theorem Accounts.formatted_eq (h : s.Accounts dropped) (hdrained : s.Drained) :
    (s.formatted : Multiset String) = s.log.written + dropped := by
  obtain ⟨seq, hholds, heq⟩ := h
  have hseq : seq = [] := by
    have hsize := hholds.size
    rw [hdrained.empty] at hsize
    exact List.length_eq_zero_iff.mp (by omega)
  have hpending : (∑ j, (s.writer j).pending) = 0 :=
    Finset.sum_eq_zero fun j _ => by rw [hdrained.returned j]; rfl
  rw [heq, hseq, hdrained.written, hpending]
  simp

/-- For every capacity of the queue, any number of threads and every interleaving: after all calls
have returned and the queue has been drained, each formatted line has been written exactly once if
and only if every push found the queue with room. -/
theorem written_iff {max_queue_size : Int} {log : Log} {q : BlockQueue String}
    (hq : BlockQueue.create max_queue_size = some q) {l : List (LogEvent ι)}
    (hrun : runEvents LogSystem.step (start log q) l = some t) (hdrained : t.Drained) :
    t.log.written.Perm t.formatted ↔ Along LogSystem.step PushFits (start log q) l := by
  have hstart : (start (ι := ι) log q).Accounts 0 := accounts_start log (Holds.of_create hq).1
  -- the first push that is refused drops a line, and it stays dropped
  have hcases : (Along LogSystem.step PushFits (start log q) l ∧ t.Accounts 0) ∨
      (¬ Along LogSystem.step PushFits (start log q) l ∧
        ∃ dropped, dropped ≠ 0 ∧ t.Accounts dropped) := by
    refine along_or_lasting (C := PushFits) (I := fun s => s.Accounts 0) (D := fun _ _ => True)
      (B := fun s => ∃ dropped, dropped ≠ 0 ∧ s.Accounts dropped) ?_ ?_ hstart
      (along_of_forall (fun _ _ => trivial) _ _) hrun
    · intro s e u h _ hstep
      apply (h.step hstep).imp_right
      rintro ⟨hno, line, hu⟩
      exact ⟨hno, _, by simp, hu⟩
    · rintro s e u ⟨dropped, hne, h⟩ - hstep
      rcases h.step hstep with ⟨-, hu⟩ | ⟨-, line, hu⟩
      · exact ⟨dropped, hne, hu⟩
      · exact ⟨dropped + {line}, by simp, hu⟩
  rcases hcases with ⟨hC, ht⟩ | ⟨hC, dropped, hne, ht⟩
  · have heq := ht.formatted_eq hdrained
    rw [add_zero, Multiset.coe_eq_coe] at heq
    exact iff_of_true heq.symm hC
  · refine iff_of_false ?_ hC
    intro hperm
    have heq := ht.formatted_eq hdrained
    rw [Multiset.coe_eq_coe.mpr hperm.symm, left_eq_add] at heq
    exact hne heq

/-- A log whose file is open. -/
def opened : Log := ⟨"./", "server_log", 100, 200, 0, 1, some "./2024_01_01_server_log", true, []⟩

/-- A call at midnight. -/
def midnight (text : String) : LogCall := ⟨1, text, ⟨124, 0, 1, 0, 0, 0⟩, 0⟩

/-- One call whose line goes through the queue to the file. -/
def oneCall : List (LogEvent (Fin 1)) :=
  [.call 0 (midnight "a"), .rotate 0 true, .format 0, .test 0, .push 0, .flushPop, .flushWrite]

theorem written_iff_one_call : ∃ t : LogSystem (Fin 1),
    runEvents LogSystem.step (start opened ⟨[""], 0, 1, -1, -1⟩) oneCall = some t ∧
      t.Drained ∧ t.log.written.Perm t.formatted := by
  have hall : ∀ t, runEvents LogSystem.step (start opened ⟨[""], 0, 1, -1, -1⟩) oneCall = some t →
      t.Drained ∧ t.log.written.Perm t.formatted := by
    intro t hrun
    have hdrained : t.Drained := by
      cases hrun
      exact ⟨fun i => by rw [Subsingleton.elim i 0]; rfl, rfl, rfl⟩
    have hcreate : BlockQueue.create 1 = some (⟨[""], 0, 1, -1, -1⟩ : BlockQueue String) := rfl
    refine ⟨hdrained, (written_iff hcreate hrun hdrained).mpr ?_⟩
    exact ⟨trivial, trivial, trivial, trivial, zero_lt_one, trivial, trivial, trivial⟩
  exact ⟨_, rfl, hall _ rfl⟩

/-- Two calls test the same free cell of the queue, and then both push. -/
theorem lost_line : ∃ t : LogSystem (Fin 2),
    runEvents LogSystem.step (start opened ⟨[""], 0, 1, -1, -1⟩)
      [.call 0 (midnight "a"), .rotate 0 true, .format 0, .test 0,
        .call 1 (midnight "b"), .rotate 1 true, .format 1, .test 1,
        .push 0, .push 1, .flushPop, .flushWrite] = some t ∧
      t.Drained ∧ ¬ t.log.written.Perm t.formatted := by
  refine ⟨_, rfl, ⟨?_, rfl, rfl⟩, ?_⟩
  · intro i
    fin_cases i <;> rfl
  · intro hperm
    exact absurd hperm.length_eq (by decide)

end LogSystem

end CLanguageLearning.WebServer
