import CLanguageLearning.Uring.CopyRuns

/-!
# The accounts of the copy

While the main loop of `copy_file` runs, the two counters count the requests that are prepared or
under way, there are at most `QD` of them, and the file is divided among the requests, the writes
that are done and the part that is not queued yet. The ring therefore has an entry whenever one is
asked for. Nothing is assumed of the kernel or of what a submission consumes.

`Ledger` adds to the copy the writes whose completion has been taken.
-/

set_option autoImplicit false

namespace CLanguageLearning.Uring

open CLanguageLearning.Foundation

/-- The loops before the last one. -/
def Point.InMain : Point → Prop
  | .outer => True
  | .fill _ => True
  | .submit _ => True
  | .reap _ => True
  | .complete => True
  | _ => False

instance (d : IoData) (p : Nat) : Decidable (d.Covers p) := inferInstanceAs (Decidable (_ ∧ _))

/-- The write that a step takes as done. -/
def Copy.finishing (s : Copy) : CopyEvent → List IoData
  | .kernel _ _ => []
  | .step _ =>
      match s.pc, s.cq with
      | .complete, (d, res) :: _ => if d.read = false ∧ res = d.iov_len then [d.toIoData] else []
      | _, _ => []

/-- A copy and the writes that are done. -/
structure Ledger where
  copy : Copy
  done : List IoData

namespace Ledger

variable (infile : ByteFile)

def start : Ledger := ⟨.start infile, []⟩

def step (a : Ledger) (e : CopyEvent) : Option Ledger :=
  (a.copy.step infile e).map fun t => ⟨t, a.done ++ a.copy.finishing e⟩

/-- How many ranges the byte `p` lies in: those of the requests, those of the writes that are done
and the part of the file that is not queued. -/
def coverage (a : Ledger) (p : Nat) : Nat :=
  a.copy.pending.countP (fun d => d.Covers p) + a.done.countP (fun d => d.Covers p) +
    if a.copy.offset ≤ p ∧ p < a.copy.offset + a.copy.insize then 1 else 0

/-- What the accounts say in the main loop. -/
structure Accounted (a : Ledger) : Prop where
  count : (a.copy.pending.card : Int) = a.copy.reads + a.copy.writes
  bound : a.copy.pending.card ≤ QD
  /-- `queue_read` finds an entry of the ring. -/
  entry_read : ∀ had_reads, a.copy.pc = .fill had_reads → a.copy.reads + a.copy.writes < QD →
    a.copy.sq.length < QD
  /-- `queue_prepped` finds an entry of the ring. -/
  entry_prepped : a.copy.pc = .complete → a.copy.sq.length < QD
  aligned : ∀ d ∈ a.copy.pending, (d.offset : Int) - d.first_offset = d.iov_base ∧
    d.offset + d.iov_len = d.first_offset + d.first_len
  divided : ∀ p, a.coverage p = if p < infile.size then 1 else 0

/-- What carries the accounts from step to step. -/
structure Balanced (a : Ledger) : Prop where
  sound : a.copy.Sound infile
  bound : a.copy.reads + a.copy.writes ≤ QD
  found : a.copy.pc = .complete → a.copy.cq ≠ []
  divided : ∀ p, a.coverage p = if p < infile.size then 1 else 0

end Ledger

namespace Copy

variable {infile : ByteFile} {s t : Copy} {d e : IoBlock} {res ret : Int}

theorem card_pending (s : Copy) :
    s.pending.card = s.sq.length + s.inflight.length + s.cq.length := by
  simp [pending]
  omega

/-- The counters count the requests. -/
theorem Sound.card (h : s.Sound infile) : (s.pending.card : Int) = s.reads + s.writes := by
  have hsplit := Multiset.card_eq_countP_add_countP (fun d : IoData => d.read = true) s.pending
  have hwrites : (s.pending.countP fun d => ¬d.read = true) =
      s.pending.countP fun d => d.read = false :=
    Multiset.countP_congr rfl fun d _ => by simp
  rw [hwrites] at hsplit
  rw [h.reads, h.writes, hsplit]
  push_cast
  rfl

/-- A request that goes back to the ring takes the place of the first completion. -/
theorem pending_resubmit {cq : List (IoBlock × Int)} (hroom : s.sq.length < QD)
    (hcq : s.cq = (d, res) :: cq) (h : s.resubmit e ret = some t) :
    s.pending = d.toIoData ::ₘ pending { s with cq := cq } ∧
      t.pending = e.toIoData ::ₘ pending { s with cq := cq } ∧
      t.pc = .reap true ∧ t.reads = s.reads ∧ t.writes = s.writes ∧ t.offset = s.offset ∧
      t.insize = s.insize := by
  rw [Copy.resubmit, if_neg (Nat.not_le.mpr hroom), Option.map_eq_some_iff] at h
  obtain ⟨u, hu, rfl⟩ := h
  obtain ⟨n, rfl⟩ := submit_eq hu
  refine ⟨pending_completion hcq, ?_, rfl, rfl, rfl, rfl, rfl⟩
  have hmoved := pending_submit { s with sq := s.sq ++ [e], cq := cq } n
  have hadded := pending_prepare { s with cq := cq } e
  rw [← hadded, ← hmoved, hcq]
  rfl

/-- One more request is read only below the limit. -/
theorem fill_bound {had_reads : Int} (h : s.reads + s.writes ≤ QD) :
    (s.fill had_reads ret).reads + (s.fill had_reads ret).writes ≤ QD := by
  unfold Copy.fill
  split
  · exact h
  · split
    · exact h
    · next hlt =>
        dsimp only
        split
        · exact h
        · dsimp only
          omega

end Copy

namespace Ledger

variable {infile : ByteFile} {a : Ledger} {t : Copy} {done : List IoData} {d e : IoBlock}
  {res ret : Int} {i p : Nat}

/-- The ranges do not change with the same requests and the same rest of the file. -/
theorem coverage_congr (hpending : t.pending = a.copy.pending) (hoffset : t.offset = a.copy.offset)
    (hinsize : t.insize = a.copy.insize) (p : Nat) :
    coverage ⟨t, a.done⟩ p = a.coverage p := by
  simp only [coverage, hpending, hoffset, hinsize]

/-- A request that takes the place of another one of its block. -/
theorem coverage_replace {rest : Multiset IoData} (hold : a.copy.pending = d.toIoData ::ₘ rest)
    (hnew : t.pending = e.toIoData ::ₘ rest) (hfirst : e.first_offset = d.first_offset)
    (hlen : e.first_len = d.first_len) (hoffset : t.offset = a.copy.offset)
    (hinsize : t.insize = a.copy.insize) (p : Nat) :
    coverage ⟨t, a.done⟩ p = a.coverage p := by
  simp only [coverage, hold, hnew, hoffset, hinsize, Multiset.countP_cons, IoData.Covers, hfirst,
    hlen]

/-- A request that goes over to the writes that are done. -/
theorem coverage_finish {rest : Multiset IoData} (hold : a.copy.pending = d.toIoData ::ₘ rest)
    (hnew : t.pending = rest) (hoffset : t.offset = a.copy.offset)
    (hinsize : t.insize = a.copy.insize) (p : Nat) :
    coverage ⟨t, a.done ++ [d.toIoData]⟩ p = a.coverage p := by
  simp only [coverage, hold, hnew, hoffset, hinsize, Multiset.countP_cons, List.countP_append,
    List.countP_singleton, decide_eq_true_eq]
  omega

/-- A new request takes its range from the rest of the file. -/
theorem coverage_read {size : Nat} (hle : size ≤ a.copy.insize)
    (hnew : t.pending = (IoBlock.ofRead size a.copy.offset).toIoData ::ₘ a.copy.pending)
    (hoffset : t.offset = a.copy.offset + size) (hinsize : t.insize = a.copy.insize - size)
    (p : Nat) : coverage ⟨t, a.done⟩ p = a.coverage p := by
  have hsplit : (if a.copy.offset ≤ p ∧ p < a.copy.offset + size then 1 else 0) +
      (if a.copy.offset + size ≤ p ∧ p < a.copy.offset + size + (a.copy.insize - size) then 1
        else 0) = if a.copy.offset ≤ p ∧ p < a.copy.offset + a.copy.insize then 1 else 0 := by
    split_ifs <;> omega
  have hcovers : (IoBlock.ofRead size a.copy.offset).toIoData.Covers p ↔
      a.copy.offset ≤ p ∧ p < a.copy.offset + size := Iff.rfl
  simp only [coverage, hnew, hoffset, hinsize, Multiset.countP_cons, hcovers, ← hsplit]
  omega

theorem balanced_start (infile : ByteFile) : (start infile).Balanced infile where
  sound := Copy.sound_start infile
  bound := Int.zero_le_ofNat QD
  found := fun hpc => (by cases hpc)
  divided := fun p => by simp [coverage, start, Copy.start, Copy.pending]

namespace Balanced

/-- The program's place does not matter for the accounts. -/
theorem moveTo (h : a.Balanced infile) {pc : Point} (hfound : pc = .complete → a.copy.cq ≠ []) :
    Balanced infile ⟨{ a.copy with pc := pc }, a.done⟩ :=
  ⟨h.sound.at pc, h.bound, hfound, h.divided⟩

theorem kernel (h : a.Balanced infile) (hstep : a.copy.kernel infile i res = some t) :
    Balanced infile ⟨t, a.done⟩ := by
  have hsound := h.sound.kernel hstep
  have hpending := Copy.pending_kernel hstep
  obtain ⟨d, -, -, rfl⟩ := Copy.kernel_eq hstep
  refine ⟨hsound, h.bound, fun hpc => by simp, fun p => ?_⟩
  rw [coverage_congr hpending rfl rfl, h.divided]

theorem submit (h : a.Balanced infile) {pc : Point} (hpc : pc ≠ .complete)
    (hstep : a.copy.submit ret = some t) :
    Balanced infile ⟨{ t with pc := pc }, a.done⟩ := by
  have hsound := h.sound.submit hstep
  obtain ⟨n, rfl⟩ := Copy.submit_eq hstep
  refine ⟨hsound.at pc, h.bound, fun hat => absurd hat hpc, fun p => ?_⟩
  exact (coverage_congr (Copy.pending_submit a.copy n) rfl rfl p).trans (h.divided p)

theorem fill (h : a.Balanced infile) {had_reads : Int} (hpc : a.copy.pc = .fill had_reads)
    (hstep : a.copy.fill had_reads ret = t) : Balanced infile ⟨t, a.done⟩ ∧ t.pc ≠ .aborted := by
  have hbound : (a.copy.fill had_reads ret).reads + (a.copy.fill had_reads ret).writes ≤ QD :=
    Copy.fill_bound h.bound
  rw [hstep] at hbound
  have hsound := (h.sound.fill hstep).1
  cases Copy.Filled.of_fill hstep with
  | stop => exact ⟨h.moveTo (by simp), by simp⟩
  | read size hpos hle =>
      refine ⟨⟨hsound, hbound, fun hat => ?_, fun p => ?_⟩, ?_⟩
      · rw [show a.copy.pc = _ from hat] at hpc
        cases hpc
      · refine (coverage_read hle ?_ rfl rfl p).trans (h.divided p)
        exact Copy.pending_prepare a.copy _
      · simp [hpc]

theorem reap (h : a.Balanced infile) {got_comp : Bool} (hstep : a.copy.reap got_comp ret = some t) :
    Balanced infile ⟨t, a.done⟩ ∧ t.pc ≠ .aborted := by
  cases Copy.Reaped.of_reap hstep with
  | done hleft => exact ⟨h.moveTo (by simp), by simp⟩
  | failed hleft hret => exact ⟨h.moveTo (by simp), by simp⟩
  | found hleft hcq => exact ⟨h.moveTo fun _ => hcq, by simp⟩

/-- A completion waits to be taken, so the ring is not full. -/
theorem room (h : a.Balanced infile) (hcq : a.copy.cq ≠ []) : a.copy.sq.length < QD := by
  have hcard := h.sound.card
  have hbound := h.bound
  have hpos := List.length_pos_iff.mpr hcq
  rw [Copy.card_pending] at hcard
  omega

/-- A completion is taken and its request, or what is made of it, goes back to the ring. -/
theorem resubmit (h : a.Balanced infile) {s : Copy} {cq : List (IoBlock × Int)}
    (hcq : a.copy.cq = (d, res) :: cq) (hfirst : e.first_offset = d.first_offset)
    (hlen : e.first_len = d.first_len) (hring : s.sq = a.copy.sq ∧ s.inflight = a.copy.inflight ∧
      s.cq = a.copy.cq) (hpart : s.offset = a.copy.offset ∧ s.insize = a.copy.insize)
    (hsum : s.reads + s.writes = a.copy.reads + a.copy.writes)
    (hsound : t.pc = .reap true → t.Sound infile) (hstep : s.resubmit e ret = some t) :
    t.pc = .reap true ∧ Balanced infile ⟨t, a.done⟩ := by
  obtain ⟨hsq, hin, hcq'⟩ := hring
  have hroom : s.sq.length < QD := by
    rw [hsq]
    exact h.room (by simp [hcq])
  obtain ⟨-, hnew, hpc, hreads, hwrites, hoffset, hinsize⟩ :=
    Copy.pending_resubmit hroom (hcq'.trans hcq) hstep
  have hrest : Copy.pending { s with cq := cq } = Copy.pending { a.copy with cq := cq } := by
    simp only [Copy.pending, hsq, hin]
  rw [hrest] at hnew
  refine ⟨hpc, hsound hpc, ?_, fun hat => ?_, fun p => ?_⟩
  · show t.reads + t.writes ≤ QD
    rw [hreads, hwrites, hsum]
    exact h.bound
  · rw [show t.pc = _ from hat] at hpc
    cases hpc
  · rw [coverage_replace (Copy.pending_completion hcq) hnew hfirst hlen (hoffset.trans hpart.1)
      (hinsize.trans hpart.2), h.divided]

/-- The first completion is handled: a request goes back to the ring, or its write is done. -/
theorem complete (h : a.Balanced infile) (hpc : a.copy.pc = .complete)
    (hstep : a.copy.complete ret = some t) : t.pc = .returned 1 ∨
      (t.pc = .reap true ∧ Balanced infile ⟨t, a.done ++ a.copy.finishing (.step ret)⟩) := by
  have hsound : t.pc = .reap true → t.Sound infile := by
    intro hat
    rcases h.sound.complete hstep with (hfail | hfail) | ⟨hs, -⟩
    · exact absurd (hat.symm.trans hfail) (by simp)
    · exact absurd (hat.symm.trans hfail) (by simp)
    · exact hs
  obtain ⟨d, res, cq, hcq, hcompleted⟩ := Copy.Completed.of_complete hstep
  have hfinish : a.copy.finishing (.step ret) =
      if d.read = false ∧ res = d.iov_len then [d.toIoData] else [] := by
    simp [Copy.finishing, hpc, hcq]
  rw [hfinish]
  by_cases hdone : d.read = false ∧ res = d.iov_len
  · -- a write that is complete
    rw [Copy.complete, hcq] at hstep
    simp only [hdone.1, hdone.2, not_lt.mpr (Int.natCast_nonneg d.iov_len), if_false, ne_eq,
      not_true, Bool.false_eq_true, Option.some.injEq] at hstep
    subst hstep
    rw [if_pos hdone]
    refine Or.inr ⟨rfl, hsound rfl, ?_, fun hat => (by cases hat), fun p => ?_⟩
    · have hbound := h.bound
      show a.copy.reads + (a.copy.writes - 1) ≤ QD
      omega
    · exact (coverage_finish (Copy.pending_completion hcq) rfl rfl rfl p).trans (h.divided p)
  -- whatever else the completion says, its block keeps its range
  · rw [if_neg hdone, List.append_nil]
    cases hcompleted with
    | again t hres hagain =>
        exact Or.inr (h.resubmit hcq rfl rfl ⟨rfl, rfl, rfl⟩ ⟨rfl, rfl⟩ rfl hsound hagain)
    | failed hneg hres => exact Or.inl rfl
    | rest t hpos hrest =>
        exact Or.inr (h.resubmit (e := d.advance res.toNat) hcq rfl rfl ⟨rfl, rfl, rfl⟩ ⟨rfl, rfl⟩
          rfl hsound hrest)
    | read t hfull hread hwrite =>
        refine Or.inr (h.resubmit (e := d.toWrite) hcq rfl rfl ?_ ?_ ?_ hsound hwrite)
        · exact ⟨rfl, rfl, rfl⟩
        · exact ⟨rfl, rfl⟩
        · dsimp only
          omega
    | write hfull hwrite => exact absurd ⟨hwrite, hfull⟩ hdone

/-- Other steps take no write as done. -/
theorem finishing_nil {s : Copy} (hpc : s.pc ≠ .complete) : s.finishing (.step ret) = [] := by
  rw [Copy.finishing]
  split
  · next hat _ => exact absurd hat hpc
  · rfl

/-- A step of the main loop. -/
theorem program (h : a.Balanced infile) (hstep : a.copy.program ret = some t)
    (hmain : a.copy.pc.InMain) :
    t.pc ≠ .aborted ∧
      (t.pc.InMain → Balanced infile ⟨t, a.done ++ a.copy.finishing (.step ret)⟩) := by
  by_cases hcomplete : a.copy.pc = .complete
  · rw [Copy.program, hcomplete] at hstep
    rcases h.complete hcomplete hstep with hpc | ⟨hpc, hbalanced⟩
    · simp [hpc, Point.InMain]
    · exact ⟨by simp [hpc], fun _ => hbalanced⟩
  · rw [finishing_nil hcomplete, List.append_nil]
    cases hpc : a.copy.pc with
    | outer =>
        rw [Copy.program, hpc] at hstep
        cases hstep
        refine ⟨by dsimp only; split <;> simp, fun _ => h.moveTo fun hat => ?_⟩
        split at hat <;> cases hat
    | fill had_reads =>
        rw [Copy.program, hpc] at hstep
        obtain ⟨hbalanced, hpoint⟩ := h.fill hpc (Option.some.inj hstep)
        exact ⟨hpoint, fun _ => hbalanced⟩
    | submit had_reads =>
        rw [Copy.program, hpc] at hstep
        dsimp only at hstep
        split at hstep
        · rw [Option.map_eq_some_iff] at hstep
          obtain ⟨u, hu, rfl⟩ := hstep
          refine ⟨by dsimp only; split <;> simp, fun _ => h.submit ?_ hu⟩
          split <;> simp
        · cases hstep
          exact ⟨by simp, fun _ => h.moveTo (by simp)⟩
    | reap got_comp =>
        rw [Copy.program, hpc] at hstep
        obtain ⟨hbalanced, hpoint⟩ := h.reap hstep
        exact ⟨hpoint, fun _ => hbalanced⟩
    | complete => exact absurd hpc hcomplete
    | _ =>
        rw [hpc] at hmain
        exact hmain.elim

/-- In every state of a run of the copy: no assertion has failed, and in the main loop the accounts
are balanced. -/
theorem step {e : CopyEvent} {b : Ledger}
    (h : a.copy.pc ≠ .aborted ∧ (a.copy.pc.InMain → a.Balanced infile))
    (hstep : a.step infile e = some b) :
    b.copy.pc ≠ .aborted ∧ (b.copy.pc.InMain → b.Balanced infile) := by
  rw [Ledger.step, Option.map_eq_some_iff] at hstep
  obtain ⟨t, ht, rfl⟩ := hstep
  cases e with
  | kernel i res =>
      have hpc := Copy.kernel_pc ht
      dsimp only
      rw [hpc, Copy.finishing, List.append_nil]
      exact ⟨h.1, fun hmain => (h.2 hmain).kernel ht⟩
  | step ret =>
      by_cases hmain : a.copy.pc.InMain
      · exact (h.2 hmain).program ht hmain
      · -- the main loop is not entered again
        rw [Copy.step, Copy.program] at ht
        cases hpc : a.copy.pc with
        | drain =>
            rw [hpc] at ht
            cases Copy.Drained.of_drain ht with
            | taken hwrites hret hcq hpos => simp [hpc, Point.InMain]
            | _ => simp [Point.InMain]
        | returned r =>
            rw [hpc] at ht
            cases ht
        | aborted => exact absurd hpc h.1
        | _ =>
            rw [hpc] at hmain
            exact absurd trivial hmain

/-- The accounts that are balanced say what they should. -/
theorem accounted (h : a.Balanced infile) : a.Accounted infile where
  count := h.sound.card
  bound := by
    have hcard := h.sound.card
    have hbound := h.bound
    omega
  entry_read _ _ hlt := by
    have hcard := h.sound.card
    rw [Copy.card_pending] at hcard
    omega
  entry_prepped hpc := h.room (h.found hpc)
  aligned d hd := by
    have hfits := h.sound.fits d hd
    have hoffset := hfits.offset_eq
    have hlen := hfits.len_eq
    omega
  divided := h.divided

end Balanced

/-- For every input file, every order of completions and every mix of results, whatever a
submission consumes: no assertion fails, and in the main loop the counters count the requests, the
ring has an entry whenever one is asked for, and the file is divided among the requests, the writes
that are done and the rest. -/
theorem copy_accounted {l : List CopyEvent}
    (hrun : runEvents (step infile) (start infile) l = some a) :
    a.copy.pc ≠ .aborted ∧ (a.copy.pc.InMain → a.Accounted infile) := by
  have hinv := invariant
    (I := fun a : Ledger => a.copy.pc ≠ .aborted ∧ (a.copy.pc.InMain → a.Balanced infile))
    (fun s e t hs hstep => Balanced.step hs hstep)
    ⟨by simp [start, Copy.start], fun _ => balanced_start infile⟩ hrun
  exact ⟨hinv.1, fun hmain => (hinv.2 hmain).accounted⟩

/-- Two bytes have been read and are to be written. -/
theorem copy_accounted_two_bytes : ∃ a,
    runEvents (step Copy.twoBytes) (start Copy.twoBytes)
        [.step 0, .step 0, .step 0, .step 1, .kernel 0 2, .step 0, .step 1] = some a ∧
      a.copy.pc = .reap true ∧ a.Accounted Copy.twoBytes := by
  have hall : ∀ a, runEvents (step Copy.twoBytes) (start Copy.twoBytes)
      [.step 0, .step 0, .step 0, .step 1, .kernel 0 2, .step 0, .step 1] = some a →
      a.copy.pc.InMain → a.Accounted Copy.twoBytes := by
    intro a hrun
    exact (copy_accounted hrun).2
  exact ⟨_, rfl, rfl, hall _ rfl trivial⟩

end Ledger

end CLanguageLearning.Uring
