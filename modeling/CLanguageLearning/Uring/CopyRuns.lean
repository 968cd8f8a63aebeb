import CLanguageLearning.Uring.CopyFile

/-!
# Runs of the copy

The requests that are prepared, submitted or completed are the `pending` ones; submitting and
completing move them and change none. `Sound` says what the program knows of them: the counters
count them, every queued byte that is not yet copied lies in one of them, and each has handled its
block up to the point it says. With that, a copy that returns 0 is complete, unless the last loop
took a short write for a full one (`copied_of_returned_zero`, `short_write`).

The second part is about the return value 1 (`returned_one_iff`).
-/

set_option autoImplicit false

namespace CLanguageLearning.Uring

open CLanguageLearning.Foundation

/-- A request for a rest of its block, of `queued` bytes that have been asked for. -/
structure IoData.Fits (d : IoData) (queued : Nat) : Prop where
  len_pos : 0 < d.first_len
  within : d.first_offset + d.first_len ≤ queued
  offset_eq : d.offset = d.first_offset + d.iov_base
  len_eq : d.iov_base + d.iov_len = d.first_len

/-- The byte `p` of the file belongs to the block of the request. -/
def IoData.Covers (d : IoData) (p : Nat) : Prop :=
  d.first_offset ≤ p ∧ p < d.first_offset + d.first_len

/-- The bytes that a read still owes to `write_left`. -/
def IoData.owed (d : IoData) : Int := if d.read = true then d.first_len else 0

/-- The first `n` bytes of the block have been handled: read into the buffer or, in a write, copied
from a buffer that holds them all. -/
structure IoBlock.Handled (d : IoBlock) (src out : ByteFile) (n : Nat) : Prop where
  of_read : d.read = true → ∀ k, k < n → d.buf k = src.byte (d.first_offset + k)
  of_write : d.read = false → ∀ k, k < d.first_len → d.buf k = src.byte (d.first_offset + k)
  copied : d.read = false → ∀ k, k < n → ByteFile.Copied src out (d.first_offset + k)

section Blocks

variable {d : IoBlock} {src out out' : ByteFile} {n queued queued' : Nat} {e : IoData}

theorem IoData.Fits.mono (h : e.Fits queued) (hle : queued ≤ queued') : e.Fits queued' :=
  ⟨h.len_pos, h.within.trans hle, h.offset_eq, h.len_eq⟩

theorem IoBlock.Handled.mono (h : d.Handled src out n)
    (hout : ∀ p, ByteFile.Copied src out p → ByteFile.Copied src out' p) :
    d.Handled src out' n :=
  ⟨h.of_read, h.of_write, fun hd k hk => hout _ (h.copied hd k hk)⟩

/-- A new read. -/
theorem IoBlock.fits_ofRead {size offset : Nat} (hpos : 0 < size) :
    (IoBlock.ofRead size offset).toIoData.Fits (offset + size) :=
  ⟨hpos, le_refl _, rfl, Nat.zero_add size⟩

theorem IoBlock.handled_ofRead (size offset : Nat) (src out : ByteFile) :
    (IoBlock.ofRead size offset).Handled src out 0 :=
  ⟨fun _ k hk => absurd hk (Nat.not_lt_zero k), fun h => Bool.noConfusion h,
    fun h => Bool.noConfusion h⟩

/-- A read that is complete becomes a write of its whole block. -/
theorem IoBlock.fits_toWrite (h : d.toIoData.Fits queued) : d.toWrite.toIoData.Fits queued :=
  ⟨h.len_pos, h.within, rfl, Nat.zero_add d.first_len⟩

theorem IoBlock.Handled.toWrite (h : d.Handled src out d.first_len) (hread : d.read = true) :
    d.toWrite.Handled src out 0 :=
  ⟨fun hd => Bool.noConfusion hd, fun _ => h.of_read hread,
    fun _ k hk => absurd hk (Nat.not_lt_zero k)⟩

/-- A request goes on behind the bytes it has handled. -/
theorem IoBlock.fits_advance (h : d.toIoData.Fits queued) (hn : n ≤ d.iov_len) :
    (d.advance n).toIoData.Fits queued where
  len_pos := h.len_pos
  within := h.within
  offset_eq := by
    show d.offset + n = d.first_offset + (d.iov_base + n)
    rw [h.offset_eq, Nat.add_assoc]
  len_eq := by
    have := h.len_eq
    show d.iov_base + n + (d.iov_len - n) = d.first_len
    omega

theorem IoBlock.Handled.advance {m : Nat} (h : d.Handled src out m) (n : Nat) :
    (d.advance n).Handled src out m :=
  ⟨h.of_read, h.of_write, h.copied⟩

end Blocks

namespace Copy

/-- The requests that have been prepared and whose completion has not been handled. -/
def pending (s : Copy) : Multiset IoData :=
  ((s.sq ++ s.inflight ++ s.cq.map Prod.fst).map IoBlock.toIoData : List IoData)

/-- What the program knows of the requests. -/
structure Sound (infile : ByteFile) (s : Copy) : Prop where
  queued : s.offset + s.insize = infile.size
  fits : ∀ d ∈ s.pending, d.Fits s.offset
  cover : ∀ p, p < s.offset →
    ByteFile.Copied infile s.outfile p ∨ ∃ d ∈ s.pending, d.Covers p
  reads : s.reads = (s.pending.countP fun d => d.read = true)
  writes : s.writes = (s.pending.countP fun d => d.read = false)
  left : s.write_left = s.insize + (s.pending.map IoData.owed).sum
  waiting : ∀ d ∈ s.sq ++ s.inflight, d.Handled infile s.outfile d.iov_base
  completed : ∀ c ∈ s.cq,
    c.1.Handled infile s.outfile (c.1.iov_base + c.2.toNat) ∧ c.2 ≤ c.1.iov_len

variable {infile : ByteFile} {s t : Copy} {d : IoBlock} {res ret : Int} {i p : Nat}

theorem sound_start (infile : ByteFile) : (start infile).Sound infile where
  queued := Nat.zero_add _
  fits := by
    intro d hd
    cases hd
  cover := fun p hp => absurd hp (Nat.not_lt_zero p)
  reads := rfl
  writes := rfl
  left := (Int.add_zero _).symm
  waiting := by
    intro d hd
    cases hd
  completed := by
    intro c hc
    cases hc

/-- What is known carries over to a state with the same pending requests. -/
theorem Sound.congr (h : s.Sound infile) (hpending : t.pending = s.pending)
    (hoffset : t.offset = s.offset) (hinsize : t.insize = s.insize)
    (hwrite_left : t.write_left = s.write_left) (hreads : t.reads = s.reads)
    (hwrites : t.writes = s.writes)
    (hkeep : ∀ p, ByteFile.Copied infile s.outfile p → ByteFile.Copied infile t.outfile p)
    (hwaiting : ∀ d ∈ t.sq ++ t.inflight, d.Handled infile t.outfile d.iov_base)
    (hcompleted : ∀ c ∈ t.cq,
      c.1.Handled infile t.outfile (c.1.iov_base + c.2.toNat) ∧ c.2 ≤ c.1.iov_len) :
    t.Sound infile where
  queued := by rw [hoffset, hinsize, h.queued]
  fits := by
    rw [hpending, hoffset]
    exact h.fits
  cover := by
    rw [hpending, hoffset]
    exact fun p hp => (h.cover p hp).imp_left (hkeep p)
  reads := by rw [hreads, hpending, h.reads]
  writes := by rw [hwrites, hpending, h.writes]
  left := by rw [hwrite_left, hpending, hinsize, h.left]
  waiting := hwaiting
  completed := hcompleted

/-! ### The kernel -/

theorem transfer_toIoData (s : Copy) (d : IoBlock) (res : Int) :
    (s.transfer infile d res).1.toIoData = d.toIoData := by
  rw [transfer]
  split <;> rfl

/-- The request that the kernel completes, and what it leaves. -/
theorem kernel_eq (h : s.kernel infile i res = some t) :
    ∃ d, (d :: s.inflight.eraseIdx i).Perm s.inflight ∧ Possible infile d res ∧
      t = { s with
        inflight := s.inflight.eraseIdx i
        cq := s.cq ++ [((s.transfer infile d res).1, res)]
        outfile := (s.transfer infile d res).2 } := by
  unfold kernel at h
  split at h
  · cases h
  · next d hd =>
      split at h
      · next hres =>
          cases h
          obtain ⟨hi, rfl⟩ := List.getElem?_eq_some_iff.mp hd
          exact ⟨_, List.getElem_cons_eraseIdx_perm hi, hres, rfl⟩
      · cases h

/-- A completion moves a request and changes none. -/
theorem pending_kernel (h : s.kernel infile i res = some t) : t.pending = s.pending := by
  obtain ⟨d, hperm, -, rfl⟩ := kernel_eq h
  have hmap := hperm.map IoBlock.toIoData
  rw [List.map_cons] at hmap
  simp only [pending, List.map_append, List.map_cons, List.map_nil, transfer_toIoData,
    ← Multiset.coe_add, ← Multiset.coe_eq_coe.mpr hmap, ← Multiset.cons_coe]
  simp only [Multiset.coe_nil, ← Multiset.singleton_add]
  abel

/-- Transfers copy bytes to their places, so what has been copied stays. -/
theorem copied_transfer (hd : d.Handled infile s.outfile d.iov_base)
    (hfits : d.toIoData.Fits s.offset) (hres : Possible infile d res)
    (hp : ByteFile.Copied infile s.outfile p) :
    ByteFile.Copied infile (s.transfer infile d res).2 p := by
  unfold transfer
  -- a read does not touch the output file
  split
  · exact hp
  · next hread =>
      apply hp.write
      intro k hk
      have hle := (hres (by omega)).1
      have hlen := hfits.len_eq
      rw [hd.of_write (by simpa using hread) _ (by omega), hfits.offset_eq, Nat.add_assoc]

/-- The request that is completed has handled `res` more bytes. -/
theorem handled_transfer (hd : d.Handled infile s.outfile d.iov_base)
    (hfits : d.toIoData.Fits s.offset) (hres : Possible infile d res) :
    (s.transfer infile d res).1.Handled infile (s.transfer infile d res).2
      ((s.transfer infile d res).1.iov_base + res.toNat) := by
  by_cases hread : d.read = true
  · -- a read: the bytes of the file have come into the buffer
    rw [transfer, if_pos hread]
    constructor
    case of_read =>
      intro _ k hk
      show (if d.iov_base ≤ k ∧ k < d.iov_base + res.toNat then
        infile.byte (d.offset + (k - d.iov_base)) else d.buf k) =
          infile.byte (d.first_offset + k)
      have hk : k < d.iov_base + res.toNat := hk
      -- behind the old base the byte has just come, before it it was there
      by_cases hbase : d.iov_base ≤ k
      · rw [if_pos ⟨hbase, hk⟩, hfits.offset_eq, Nat.add_assoc, Nat.add_sub_cancel' hbase]
      · rw [if_neg fun h => hbase h.1]
        exact hd.of_read hread k (by omega)
    case of_write =>
      intro hw
      rw [show (d.received infile res.toNat).read = d.read from rfl, hread] at hw
      cases hw
    case copied =>
      intro hw
      rw [show (d.received infile res.toNat).read = d.read from rfl, hread] at hw
      cases hw
  · -- a write: the bytes of the buffer have come into the output file
    have hread' : d.read = false := by simpa using hread
    have hcopied := fun k (hk : k < d.iov_base) =>
      copied_transfer hd hfits hres (hd.copied hread' k hk)
    rw [transfer, if_neg hread] at *
    constructor
    case of_read => exact fun hr => absurd hr hread
    case of_write => exact hd.of_write
    case copied =>
      intro _ k hk
      have hk : k < d.iov_base + res.toNat := hk
      show ByteFile.Copied infile
        (s.outfile.write d.offset res.toNat fun k => d.buf (d.iov_base + k)) (d.first_offset + k)
      -- the bytes before the old base were copied, the next ones are now
      by_cases hbase : k < d.iov_base
      · exact hcopied k hbase
      · have hle := (hres (by omega)).1
        have hlen := hfits.len_eq
        refine ByteFile.copied_write ?_ ?_ ?_
        · intro j hj
          rw [hd.of_write hread' _ (by omega), hfits.offset_eq, Nat.add_assoc]
        · rw [hfits.offset_eq]
          omega
        · rw [hfits.offset_eq]
          omega

/-- A request that is prepared or submitted is pending. -/
theorem mem_pending_of_waiting (h : d ∈ s.sq ++ s.inflight) : d.toIoData ∈ s.pending := by
  rw [pending, Multiset.mem_coe, List.map_append]
  exact List.mem_append_left _ (List.mem_map_of_mem h)

theorem mem_pending_of_completed {c : IoBlock × Int} (h : c ∈ s.cq) :
    c.1.toIoData ∈ s.pending := by
  rw [pending, Multiset.mem_coe, List.map_append]
  exact List.mem_append_right _ (List.mem_map_of_mem (List.mem_map_of_mem h))

/-- What the program knows of a submitted request. -/
theorem Sound.inflight (h : s.Sound infile) (hd : d ∈ s.inflight) :
    d.Handled infile s.outfile d.iov_base ∧ d.toIoData.Fits s.offset :=
  ⟨h.waiting d (List.mem_append_right _ hd),
    h.fits _ (mem_pending_of_waiting (List.mem_append_right _ hd))⟩

theorem Sound.copied_kernel (h : s.Sound infile) (hstep : s.kernel infile i res = some t)
    (hp : ByteFile.Copied infile s.outfile p) : ByteFile.Copied infile t.outfile p := by
  obtain ⟨d, hperm, hres, rfl⟩ := kernel_eq hstep
  obtain ⟨hd, hfits⟩ := h.inflight (hperm.mem_iff.mp (List.mem_cons_self ..))
  exact copied_transfer hd hfits hres hp

theorem Sound.kernel (h : s.Sound infile) (hstep : s.kernel infile i res = some t) :
    t.Sound infile := by
  have hpending := pending_kernel hstep
  have hkeep := fun p => h.copied_kernel (p := p) hstep
  obtain ⟨d, hperm, hres, rfl⟩ := kernel_eq hstep
  obtain ⟨hd, hfits⟩ := h.inflight (hperm.mem_iff.mp (List.mem_cons_self ..))
  apply h.congr hpending rfl rfl rfl rfl rfl hkeep
  case hwaiting =>
    intro e he
    refine (h.waiting e ?_).mono hkeep
    -- the requests that stay were handled as far as before
    rcases List.mem_append.mp he with hsq | hin
    · exact List.mem_append_left _ hsq
    · exact List.mem_append_right _ (List.mem_of_mem_eraseIdx hin)
  case hcompleted =>
    intro c hc
    rcases List.mem_append.mp hc with hold | hnew
    · exact ⟨(h.completed c hold).1.mono hkeep, (h.completed c hold).2⟩
    · rw [List.mem_singleton] at hnew
      subst hnew
      refine ⟨handled_transfer hd hfits hres, ?_⟩
      show res ≤ (s.transfer infile d res).1.iov_len
      rw [transfer_toIoData]
      -- a completion is no longer than what was asked for
      by_cases hneg : 0 ≤ res
      · exact (hres hneg).1
      · omega

/-! ### The program -/

/-- Submitting moves requests and changes nothing else. -/
theorem submit_eq (h : s.submit ret = some t) :
    ∃ n, t = { s with sq := s.sq.drop n, inflight := s.inflight ++ s.sq.take n } := by
  unfold submit at h
  split at h
  · cases h
    exact ⟨0, by simp⟩
  · split at h
    · cases h
    · cases h
      exact ⟨_, rfl⟩

/-- What one turn of the loop that queues reads does. -/
inductive Filled (s : Copy) (had_reads : Int) : Copy → Prop
  | stop : Filled s had_reads { s with pc := .submit had_reads }
  | read (size : Nat) (hpos : 0 < size) (hle : size ≤ s.insize) : Filled s had_reads { s with
      sq := s.sq ++ [IoBlock.ofRead size s.offset]
      insize := s.insize - size
      offset := s.offset + size
      reads := s.reads + 1 }

theorem Filled.of_fill {had_reads : Int} (h : s.fill had_reads ret = t) :
    Filled s had_reads t := by
  subst h
  rw [fill]
  split
  · exact .stop
  · next hsize =>
      split
      · exact .stop
      · dsimp only
        split
        · exact .stop
        · have hpos : 0 < min s.insize BS := lt_min (Nat.pos_of_ne_zero hsize) (by decide)
          exact .read _ hpos (Nat.min_le_left _ _)

/-- What the reaping loop does up to a completion. -/
inductive Reaped (s : Copy) (got_comp : Bool) (ret : Int) : Copy → Prop
  | done (hleft : s.write_left = 0) : Reaped s got_comp ret { s with pc := .outer }
  | failed (hleft : s.write_left ≠ 0) (hret : (if got_comp = true then s.peek else ret) < 0) :
      Reaped s got_comp ret { s with pc := .returned 1 }
  | found (hleft : s.write_left ≠ 0) (hcq : s.cq ≠ []) :
      Reaped s got_comp ret { s with pc := .complete }

theorem Reaped.of_reap {got_comp : Bool} (h : s.reap got_comp ret = some t) :
    Reaped s got_comp ret t := by
  rw [reap] at h
  split at h
  · next hleft =>
      cases h
      exact .done hleft
  · next hleft =>
      dsimp only at h
      by_cases hret : (if got_comp = true then s.peek else ret) < 0
      · rw [if_pos hret] at h
        cases h
        exact .failed hleft hret
      · rw [if_neg hret] at h
        by_cases hcq : s.cq = []
        · rw [if_pos hcq] at h
          cases h
        · rw [if_neg hcq] at h
          cases h
          exact .found hleft hcq

/-- What is done with the completion of `d` with the result `res`. -/
inductive Completed (s : Copy) (ret : Int) (d : IoBlock) (res : Int) (cq : List (IoBlock × Int)) :
    Copy → Prop
  | again (t : Copy) (hres : res = -EAGAIN) (h : s.resubmit d ret = some t) :
      Completed s ret d res cq t
  | failed (hneg : res < 0) (hres : res ≠ -EAGAIN) :
      Completed s ret d res cq { s with pc := .returned 1 }
  | rest (t : Copy) (hpos : 0 ≤ res) (h : s.resubmit (d.advance res.toNat) ret = some t) :
      Completed s ret d res cq t
  | read (t : Copy) (hfull : res = d.iov_len) (hread : d.read = true)
      (h : resubmit { s with
        write_left := s.write_left - d.first_len
        reads := s.reads - 1
        writes := s.writes + 1 } d.toWrite ret = some t) : Completed s ret d res cq t
  | write (hfull : res = d.iov_len) (hwrite : d.read = false) :
      Completed s ret d res cq { s with pc := .reap true, writes := s.writes - 1, cq := cq }

theorem Completed.of_complete (h : s.complete ret = some t) :
    ∃ d res cq, s.cq = (d, res) :: cq ∧ Completed s ret d res cq t := by
  rw [complete] at h
  split at h
  · cases h
  · next d res cq hcq =>
      refine ⟨d, res, cq, hcq, ?_⟩
      split at h
      · next hneg =>
          split at h
          · next hres => exact .again t hres h
          · next hres =>
              cases h
              exact .failed hneg hres
      · next hpos =>
          split at h
          · exact .rest t (not_lt.mp hpos) h
          · next hfull =>
              rw [not_not] at hfull
              split at h
              · next hread => exact .read t hfull hread h
              · next hwrite =>
                  cases h
                  exact .write hfull (by simpa using hwrite)

/-- What one turn of the last loop does. -/
inductive Drained (s : Copy) (ret : Int) : Copy → Prop
  | done (hwrites : s.writes = 0) : Drained s ret { s with pc := .returned 0 }
  | refused (hwrites : s.writes ≠ 0) (hret : ret ≠ 0) : Drained s ret { s with pc := .returned 1 }
  | failed {d : IoBlock} {res : Int} {cq : List (IoBlock × Int)} (hwrites : s.writes ≠ 0)
      (hcq : s.cq = (d, res) :: cq) (hneg : res < 0) : Drained s ret { s with pc := .returned 1 }
  | taken {d : IoBlock} {res : Int} {cq : List (IoBlock × Int)} (hwrites : s.writes ≠ 0)
      (hret : ret = 0) (hcq : s.cq = (d, res) :: cq) (hpos : 0 ≤ res) :
      Drained s ret { s with writes := s.writes - 1, cq := cq }

theorem Drained.of_drain (h : s.drain ret = some t) : Drained s ret t := by
  rw [drain] at h
  split at h
  · next hwrites =>
      cases h
      exact .done hwrites
  · next hwrites =>
      split at h
      · next hret =>
          cases h
          exact .refused hwrites hret
      · next hret =>
          split at h
          · cases h
          · next d res cq hcq =>
              split at h
              · next hneg =>
                  cases h
                  exact .failed hwrites hcq hneg
              · next hpos =>
                  cases h
                  exact .taken hwrites (not_not.mp hret) hcq (not_lt.mp hpos)

theorem pending_submit (s : Copy) (n : Nat) :
    pending { s with sq := s.sq.drop n, inflight := s.inflight ++ s.sq.take n } = s.pending := by
  have hsplit : ((s.sq.take n ++ s.sq.drop n).map IoBlock.toIoData : Multiset IoData) =
      (s.sq.map IoBlock.toIoData : List IoData) := by
    rw [List.take_append_drop]
  simp only [List.map_append, ← Multiset.coe_add] at hsplit
  simp only [pending, List.map_append, ← Multiset.coe_add, ← hsplit]
  abel

theorem Sound.submit (h : s.Sound infile) (hstep : s.submit ret = some t) : t.Sound infile := by
  obtain ⟨n, rfl⟩ := submit_eq hstep
  refine h.congr (pending_submit s n) rfl rfl rfl rfl rfl (fun p hp => hp) ?_ h.completed
  intro e he
  apply h.waiting e
  have he : e ∈ s.sq.drop n ++ (s.inflight ++ s.sq.take n) := he
  simp only [List.mem_append] at he ⊢
  rcases he with hdrop | hin | htake
  · exact Or.inl (List.mem_of_mem_drop hdrop)
  · exact Or.inr hin
  · exact Or.inl (List.mem_of_mem_take htake)

/-- The program's place does not matter for what it knows. -/
theorem Sound.at (h : s.Sound infile) (pc : Point) : Sound infile { s with pc := pc } :=
  ⟨h.queued, h.fits, h.cover, h.reads, h.writes, h.left, h.waiting, h.completed⟩

/-- A request that is prepared is one more pending request. -/
theorem pending_prepare (s : Copy) (d : IoBlock) :
    pending { s with sq := s.sq ++ [d] } = d.toIoData ::ₘ s.pending := by
  simp only [pending, List.map_append, List.map_cons, List.map_nil, ← Multiset.coe_add,
    ← Multiset.cons_coe, Multiset.coe_nil, ← Multiset.singleton_add]
  abel

/-- The first completion is one of the pending requests. -/
theorem pending_completion {cq : List (IoBlock × Int)} (h : s.cq = (d, res) :: cq) :
    s.pending = d.toIoData ::ₘ pending { s with cq := cq } := by
  simp only [pending, h, List.map_append, List.map_cons, ← Multiset.coe_add, ← Multiset.cons_coe,
    ← Multiset.singleton_add]
  abel

/-- A new read is queued. -/
theorem Sound.read (h : s.Sound infile) {size : Nat} (hpos : 0 < size) (hle : size ≤ s.insize) :
    Sound infile { s with
      sq := s.sq ++ [IoBlock.ofRead size s.offset]
      insize := s.insize - size
      offset := s.offset + size
      reads := s.reads + 1 } := by
  have hpending := pending_prepare s (IoBlock.ofRead size s.offset)
  constructor
  case queued =>
    have := h.queued
    show s.offset + size + (s.insize - size) = infile.size
    omega
  case fits =>
    intro e he
    rcases Multiset.mem_cons.mp (hpending ▸ he) with rfl | hold
    · -- the new request
      exact IoBlock.fits_ofRead hpos
    · exact (h.fits e hold).mono (Nat.le_add_right _ _)
  case cover =>
    intro p hp
    have hp : p < s.offset + size := hp
    show ByteFile.Copied infile s.outfile p ∨
      ∃ e ∈ pending { s with sq := s.sq ++ [IoBlock.ofRead size s.offset] }, e.Covers p
    rw [hpending]
    -- the bytes behind the old offset are those of the new request
    by_cases hold : p < s.offset
    · rcases h.cover p hold with hcopied | ⟨e, he, hep⟩
      · exact Or.inl hcopied
      · exact Or.inr ⟨e, Multiset.mem_cons_of_mem he, hep⟩
    · exact Or.inr ⟨_, Multiset.mem_cons_self _ _, Nat.le_of_not_lt hold, hp⟩
  case reads =>
    show s.reads + 1 = (Multiset.countP _ (pending { s with
      sq := s.sq ++ [IoBlock.ofRead size s.offset] }) : Int)
    rw [hpending, Multiset.countP_cons, if_pos (by rfl), h.reads]
    push_cast
    rfl
  case writes =>
    show s.writes = (Multiset.countP _ (pending { s with
      sq := s.sq ++ [IoBlock.ofRead size s.offset] }) : Int)
    rw [hpending, Multiset.countP_cons_of_neg _ (by simp [IoBlock.ofRead]), h.writes]
  case left =>
    show s.write_left = ((s.insize - size : Nat) : Int) + (Multiset.map _ (pending { s with
      sq := s.sq ++ [IoBlock.ofRead size s.offset] })).sum
    -- what is owed to the file goes from `insize` to the request
    rw [hpending, Multiset.map_cons, Multiset.sum_cons, h.left,
      show (IoBlock.ofRead size s.offset).toIoData.owed = size from rfl]
    omega
  case waiting =>
    intro e he
    have he : e ∈ s.sq ++ [IoBlock.ofRead size s.offset] ++ s.inflight := he
    simp only [List.mem_append, List.mem_singleton] at he
    rcases he with (hsq | rfl) | hin
    · exact h.waiting e (List.mem_append_left _ hsq)
    · exact IoBlock.handled_ofRead size s.offset infile s.outfile
    · exact h.waiting e (List.mem_append_right _ hin)
  case completed => exact h.completed

/-- The first completion is handled: its request goes back to the ring as `e`, of the same block. -/
theorem Sound.replace (h : s.Sound infile) {e : IoBlock} {cq : List (IoBlock × Int)} {r w l : Int}
    (hcq : s.cq = (d, res) :: cq) (hfits : e.toIoData.Fits s.offset)
    (he : e.Handled infile s.outfile e.iov_base)
    (hblock : ∀ p, d.toIoData.Covers p → e.toIoData.Covers p)
    (hreads : r + (if d.read = true then 1 else 0) =
      s.reads + if e.read = true then 1 else 0)
    (hwrites : w + (if d.read = false then 1 else 0) =
      s.writes + if e.read = false then 1 else 0)
    (hleft : l + d.toIoData.owed = s.write_left + e.toIoData.owed) :
    Sound infile { s with
      sq := s.sq ++ [e], cq := cq, reads := r, writes := w, write_left := l } := by
  have hold := pending_completion hcq
  have hnew := pending_prepare { s with cq := cq } e
  constructor
  case queued => exact h.queued
  case fits =>
    intro f hf
    rcases Multiset.mem_cons.mp (hnew ▸ hf) with rfl | hrest
    · exact hfits
    · exact h.fits f (hold ▸ Multiset.mem_cons_of_mem hrest)
  case cover =>
    intro p hp
    show ByteFile.Copied infile s.outfile p ∨
      ∃ f ∈ pending { s with sq := s.sq ++ [e], cq := cq }, f.Covers p
    rw [hnew]
    rcases h.cover p hp with hcopied | ⟨f, hf, hfp⟩
    · exact Or.inl hcopied
    · rw [hold] at hf
      -- what the old request covered the new one covers
      rcases Multiset.mem_cons.mp hf with rfl | hrest
      · exact Or.inr ⟨_, Multiset.mem_cons_self _ _, hblock p hfp⟩
      · exact Or.inr ⟨f, Multiset.mem_cons_of_mem hrest, hfp⟩
  case reads =>
    have hcount := h.reads
    rw [hold, Multiset.countP_cons] at hcount
    show r = (Multiset.countP _ (pending { s with sq := s.sq ++ [e], cq := cq }) : Int)
    rw [hnew, Multiset.countP_cons]
    push_cast at hcount ⊢
    omega
  case writes =>
    have hcount := h.writes
    rw [hold, Multiset.countP_cons] at hcount
    show w = (Multiset.countP _ (pending { s with sq := s.sq ++ [e], cq := cq }) : Int)
    rw [hnew, Multiset.countP_cons]
    push_cast at hcount ⊢
    omega
  case left =>
    have hsum := h.left
    rw [hold, Multiset.map_cons, Multiset.sum_cons] at hsum
    show l = (s.insize : Int) +
      (Multiset.map _ (pending { s with sq := s.sq ++ [e], cq := cq })).sum
    rw [hnew, Multiset.map_cons, Multiset.sum_cons]
    omega
  case waiting =>
    intro f hf
    have hf : f ∈ s.sq ++ [e] ++ s.inflight := hf
    simp only [List.mem_append, List.mem_singleton] at hf
    rcases hf with (hsq | rfl) | hin
    · exact h.waiting f (List.mem_append_left _ hsq)
    · exact he
    · exact h.waiting f (List.mem_append_right _ hin)
  case completed =>
    intro c hc
    exact h.completed c (hcq ▸ List.mem_cons_of_mem _ hc)

/-- The first completion is that of a write of all that was left of its block. -/
theorem Sound.finish (h : s.Sound infile) {cq : List (IoBlock × Int)} (hcq : s.cq = (d, res) :: cq)
    (hwrite : d.read = false) (hfull : res = d.iov_len) :
    Sound infile { s with writes := s.writes - 1, cq := cq } := by
  have hold := pending_completion hcq
  have hmem : (d, res) ∈ s.cq := hcq ▸ List.mem_cons_self ..
  have hfits := h.fits _ (mem_pending_of_completed hmem)
  have hcopied := (h.completed _ hmem).1.copied hwrite
  constructor
  case queued => exact h.queued
  case fits => exact fun f hf => h.fits f (hold ▸ Multiset.mem_cons_of_mem hf)
  case cover =>
    intro p hp
    rcases h.cover p hp with hdone | ⟨f, hf, hfp⟩
    · exact Or.inl hdone
    · rw [hold] at hf
      rcases Multiset.mem_cons.mp hf with rfl | hrest
      · -- a byte of the block that has been written
        obtain ⟨hp₁, hp₂⟩ := hfp
        have hlen := hfits.len_eq
        have hlt : p - d.first_offset < d.iov_base + res.toNat := by
          rw [hfull, Int.toNat_natCast]
          dsimp only at hlen
          omega
        have hdone := hcopied (p - d.first_offset) hlt
        rw [Nat.add_sub_cancel' hp₁] at hdone
        exact Or.inl hdone
      · exact Or.inr ⟨f, hrest, hfp⟩
  case reads =>
    have hcount := h.reads
    rw [hold, Multiset.countP_cons_of_neg _ (by simp [hwrite])] at hcount
    exact hcount
  case writes =>
    have hcount := h.writes
    rw [hold, Multiset.countP_cons, if_pos hwrite] at hcount
    show s.writes - 1 = (Multiset.countP _ (pending { s with cq := cq }) : Int)
    push_cast at hcount
    omega
  case left =>
    have hsum := h.left
    -- a write owes nothing
    rw [hold, Multiset.map_cons, Multiset.sum_cons, IoData.owed, if_neg (by simp [hwrite]),
      zero_add] at hsum
    exact hsum
  case waiting => exact h.waiting
  case completed =>
    intro c hc
    exact h.completed c (hcq ▸ List.mem_cons_of_mem _ hc)

/-! ### Whole steps -/

/-- The program has ended without success. -/
def Failed (s : Copy) : Prop := s.pc = .aborted ∨ s.pc = .returned 1

/-- A request goes back to the ring, unless the ring has no entry for it. -/
theorem resubmit_eq (h : s.resubmit d ret = some t) :
    t.Failed ∨ ∃ u, submit { s with sq := s.sq ++ [d], cq := s.cq.tail } ret = some u ∧
      t = { u with pc := .reap true } := by
  unfold resubmit at h
  split at h
  · cases h
    exact Or.inl (Or.inl rfl)
  · apply Or.inr
    unfold submit at h ⊢
    dsimp only at h ⊢
    by_cases hneg : ret < 0
    · rw [if_pos hneg] at h ⊢
      cases h
      exact ⟨_, rfl, rfl⟩
    · rw [if_neg hneg] at h ⊢
      split at h
      · cases h
      · next hlen =>
          cases h
          rw [if_neg hlen]
          exact ⟨_, rfl, rfl⟩

theorem Sound.resubmit (h : Sound infile { s with sq := s.sq ++ [d], cq := s.cq.tail })
    (hstep : s.resubmit d ret = some t) : t.Failed ∨ (t.Sound infile ∧ t.pc = .reap true) := by
  rcases resubmit_eq hstep with hfail | ⟨u, hu, rfl⟩
  · exact Or.inl hfail
  · exact Or.inr ⟨(h.submit hu).at _, rfl⟩

/-- The first completion is handled. The cases are those of the code: an error, a short result, a
read that is complete, and a write that is. -/
theorem Sound.complete (h : s.Sound infile) (hstep : s.complete ret = some t) :
    t.Failed ∨ (t.Sound infile ∧ t.pc = .reap true) := by
  obtain ⟨d, res, cq, hcq, hcompleted⟩ := Completed.of_complete hstep
  have hmem : (d, res) ∈ s.cq := hcq ▸ List.mem_cons_self ..
  have hfits : d.toIoData.Fits s.offset := h.fits _ (mem_pending_of_completed hmem)
  obtain ⟨hd, hle⟩ : d.Handled infile s.outfile (d.iov_base + res.toNat) ∧ res ≤ d.iov_len :=
    h.completed _ hmem
  have htail : s.cq.tail = cq := by rw [hcq, List.tail_cons]
  cases hcompleted with
  | again t hres hagain =>
      -- the same request again
      refine Sound.resubmit ?_ hagain
      have hneg : res ≤ 0 := hres.trans_le (by decide)
      rw [Int.toNat_of_nonpos hneg, Nat.add_zero] at hd
      rw [htail]
      exact h.replace (r := s.reads) (w := s.writes) (l := s.write_left) hcq hfits hd
        (fun p hp => hp) rfl rfl rfl
  | failed hneg hres => exact Or.inl (Or.inr rfl)
  | rest t hpos hrest =>
      -- a short result: the rest of the request
      refine Sound.resubmit ?_ hrest
      rw [htail]
      exact h.replace (r := s.reads) (w := s.writes) (l := s.write_left) hcq
        (IoBlock.fits_advance hfits (by omega)) (hd.advance _) (fun p hp => hp) rfl rfl rfl
  | read t hfull hread hwrite =>
      -- a read that is complete becomes a write
      refine Sound.resubmit ?_ hwrite
      have hlen := hfits.len_eq
      have hwhole : d.iov_base + res.toNat = d.first_len := by omega
      rw [hwhole] at hd
      dsimp only
      rw [htail]
      refine h.replace hcq (IoBlock.fits_toWrite hfits) (hd.toWrite hread) (fun p hp => hp) ?_ ?_ ?_
      · rw [if_pos hread, if_neg (by simp [IoBlock.toWrite])]
        omega
      · rw [if_neg (by simp [hread]), if_pos (by rfl)]
        omega
      · rw [IoData.owed, if_pos hread, IoData.owed, if_neg (by simp [IoBlock.toWrite])]
        omega
  | write hfull hwrite => exact Or.inr ⟨(h.finish hcq hwrite hfull).at _, rfl⟩

theorem Sound.fill {had_reads : Int} (h : s.Sound infile) (hstep : s.fill had_reads ret = t) :
    t.Sound infile ∧ (t.pc = .submit had_reads ∨ t.pc = s.pc) := by
  cases Filled.of_fill hstep with
  | stop => exact ⟨h.at _, Or.inl rfl⟩
  | read size hpos hle => exact ⟨h.read hpos hle, Or.inr rfl⟩

theorem Sound.reap {got_comp : Bool} (h : s.Sound infile) (hstep : s.reap got_comp ret = some t) :
    t.Failed ∨ (t.Sound infile ∧ (t.pc = .outer ∨ t.pc = .complete)) := by
  cases Reaped.of_reap hstep with
  | done hleft => exact Or.inr ⟨h.at _, Or.inl rfl⟩
  | failed hleft hret => exact Or.inl (Or.inr rfl)
  | found hleft hcq => exact Or.inr ⟨h.at _, Or.inr rfl⟩

/-- With nothing left to read and to write, every byte is copied or lies in a write. -/
theorem Sound.no_reads (h : s.Sound infile) (hinsize : s.insize = 0) (hleft : s.write_left = 0) :
    ∀ d ∈ s.pending, d.read = false := by
  have hsum := h.left
  rw [hinsize, hleft, Nat.cast_zero, zero_add] at hsum
  have hnonneg : ∀ x ∈ s.pending.map IoData.owed, 0 ≤ x := by
    intro x hx
    obtain ⟨d, -, rfl⟩ := Multiset.mem_map.mp hx
    rw [IoData.owed]
    split <;> omega
  intro d hd
  -- a read would owe its whole block
  have hzero := Multiset.single_le_sum hnonneg _ (Multiset.mem_map_of_mem IoData.owed hd)
  rw [← hsum, IoData.owed] at hzero
  by_contra hread
  rw [if_pos (by simpa using hread)] at hzero
  have := (h.fits d hd).len_pos
  omega

/-- What is reached at the end: all reads are done in the last loop, and all bytes are copied when
it has ended. -/
def Ended (infile : ByteFile) (s : Copy) : Prop :=
  match s.pc with
  | .drain => s.insize = 0 ∧ s.write_left = 0
  | .returned _ => ∀ p, p < infile.size → ByteFile.Copied infile s.outfile p
  | _ => True

theorem ended_drain (hpc : s.pc = .drain) :
    s.Ended infile ↔ s.insize = 0 ∧ s.write_left = 0 := by
  rw [Ended, hpc]

theorem ended_returned (hpc : s.pc = .returned ret) :
    s.Ended infile ↔ ∀ p, p < infile.size → ByteFile.Copied infile s.outfile p := by
  rw [Ended, hpc]

/-- Elsewhere nothing has to be reached. -/
theorem Ended.of_pc (hdrain : s.pc ≠ .drain) (hreturned : ∀ r, s.pc ≠ .returned r) :
    s.Ended infile := by
  rw [Ended]
  split
  · next hpc => exact absurd hpc hdrain
  · next r hpc => exact absurd hpc (hreturned r)
  · trivial

/-- A step that is not the defect: the submission of reads does not fail, and the last loop takes no
short completion. -/
def Unharmed (s : Copy) : CopyEvent → Prop
  | .kernel _ _ => True
  | .step ret =>
      match s.pc with
      | .submit had_reads => had_reads ≠ s.reads → 0 ≤ ret
      | .drain => s.writes ≠ 0 → ret = 0 → ∀ c ∈ s.cq.head?, 0 ≤ c.2 → c.2 = c.1.iov_len
      | _ => True

/-- When nothing is pending, all queued bytes are copied. -/
theorem Sound.all_copied (h : s.Sound infile) (hinsize : s.insize = 0) (hleft : s.write_left = 0)
    (hwrites : s.writes = 0) : ∀ p, p < infile.size → ByteFile.Copied infile s.outfile p := by
  have hnone : ∀ d, d ∉ s.pending := by
    intro d hd
    have hcount := h.writes
    rw [hwrites, eq_comm, Int.natCast_eq_zero, Multiset.countP_eq_zero] at hcount
    exact hcount d hd (h.no_reads hinsize hleft d hd)
  intro p hp
  have hqueued := h.queued
  rcases h.cover p (by omega) with hcopied | ⟨d, hd, -⟩
  · exact hcopied
  · exact absurd hd (hnone d)

/-- One turn of the last loop. -/
theorem Sound.drain (h : s.Sound infile) (hinsize : s.insize = 0) (hleft : s.write_left = 0)
    (hpc : s.pc = .drain)
    (hsafe : s.writes ≠ 0 → ret = 0 → ∀ c ∈ s.cq.head?, 0 ≤ c.2 → c.2 = c.1.iov_len)
    (hstep : s.drain ret = some t) :
    t.Failed ∨ (t.Sound infile ∧ t.Ended infile) := by
  cases Drained.of_drain hstep with
  | done hwrites => exact Or.inr ⟨h.at _, h.all_copied hinsize hleft hwrites⟩
  | refused hwrites hret => exact Or.inl (Or.inr rfl)
  | failed hwrites hcq hneg => exact Or.inl (Or.inr rfl)
  | @taken d res cq hwrites hret hcq hpos =>
      -- without a short result the write is complete, and every request is a write
      have hfull : res = d.iov_len := hsafe hwrites hret (d, res) (by rw [hcq]; rfl) hpos
      have hwrite : d.read = false :=
        h.no_reads hinsize hleft _ (mem_pending_of_completed (hcq ▸ List.mem_cons_self ..))
      exact Or.inr ⟨h.finish hcq hwrite hfull, (ended_drain hpc).mpr ⟨hinsize, hleft⟩⟩

/-- A step of the program. -/
theorem Sound.program (h : s.Sound infile) (hend : s.Ended infile) (hsafe : Unharmed s (.step ret))
    (hstep : s.program ret = some t) : t.Failed ∨ (t.Sound infile ∧ t.Ended infile) := by
  cases hpc : s.pc with
  | outer =>
      rw [Copy.program, hpc] at hstep
      cases hstep
      refine Or.inr ⟨h.at _, ?_⟩
      -- the main loop is left with nothing to read and nothing to write
      by_cases hmore : s.insize ≠ 0 ∨ s.write_left ≠ 0
      · exact .of_pc (by simp [hmore]) (by simp [hmore])
      · exact (ended_drain (if_neg hmore)).mpr (by simpa [not_or] using hmore)
  | fill had_reads =>
      rw [Copy.program, hpc] at hstep
      obtain ⟨hsound, hpoint⟩ := h.fill (Option.some.inj hstep)
      refine Or.inr ⟨hsound, ?_⟩
      rcases hpoint with hpoint | hpoint
      · exact .of_pc (by simp [hpoint]) (by simp [hpoint])
      · exact .of_pc (by simp [hpoint, hpc]) (by simp [hpoint, hpc])
  | submit had_reads =>
      rw [Copy.program, hpc] at hstep
      rw [Unharmed, hpc] at hsafe
      dsimp only at hstep hsafe
      split at hstep
      · next hmore =>
          -- the loop is not left by a failed submission
          have hret : ¬ ret < 0 := not_lt.mpr (hsafe hmore)
          rw [Option.map_eq_some_iff] at hstep
          obtain ⟨u, hu, rfl⟩ := hstep
          exact Or.inr ⟨(h.submit hu).at _, .of_pc (by simp [hret]) (by simp [hret])⟩
      · cases hstep
        exact Or.inr ⟨h.at _, trivial⟩
  | reap got_comp =>
      rw [Copy.program, hpc] at hstep
      rcases h.reap hstep with hfail | ⟨hsound, hpoint | hpoint⟩
      · exact Or.inl hfail
      · exact Or.inr ⟨hsound, .of_pc (by simp [hpoint]) (by simp [hpoint])⟩
      · exact Or.inr ⟨hsound, .of_pc (by simp [hpoint]) (by simp [hpoint])⟩
  | complete =>
      rw [Copy.program, hpc] at hstep
      rcases h.complete hstep with hfail | ⟨hsound, hpoint⟩
      · exact Or.inl hfail
      · exact Or.inr ⟨hsound, .of_pc (by simp [hpoint]) (by simp [hpoint])⟩
  | drain =>
      rw [Copy.program, hpc] at hstep
      rw [Unharmed, hpc] at hsafe
      obtain ⟨hinsize, hleft⟩ := (ended_drain hpc).mp hend
      exact h.drain hinsize hleft hpc hsafe hstep
  | returned r =>
      rw [Copy.program, hpc] at hstep
      cases hstep
  | aborted =>
      rw [Copy.program, hpc] at hstep
      cases hstep

/-- The kernel does not move the program. -/
theorem kernel_pc (h : s.kernel infile i res = some t) : t.pc = s.pc := by
  obtain ⟨d, -, -, rfl⟩ := kernel_eq h
  rfl

/-- A program that has ended takes no step. -/
theorem Failed.step {e : CopyEvent} (h : s.Failed) (hstep : s.step infile e = some t) :
    t.Failed := by
  cases e with
  | kernel i res =>
      rw [Failed, kernel_pc hstep]
      exact h
  | step ret =>
      rcases h with hpc | hpc <;> rw [Copy.step, Copy.program, hpc] at hstep <;> cases hstep

theorem Sound.step {e : CopyEvent} (h : s.Sound infile) (hend : s.Ended infile)
    (hsafe : Unharmed s e) (hstep : s.step infile e = some t) :
    t.Failed ∨ (t.Sound infile ∧ t.Ended infile) := by
  cases e with
  | kernel i res =>
      refine Or.inr ⟨h.kernel hstep, ?_⟩
      have hpc := kernel_pc hstep
      cases hat : s.pc with
      | drain =>
          rw [ended_drain hat] at hend
          rw [ended_drain (hpc.trans hat)]
          obtain ⟨d, -, -, rfl⟩ := kernel_eq hstep
          exact hend
      | returned r =>
          rw [ended_returned hat] at hend
          -- a transfer takes no copied byte away
          exact (ended_returned (hpc.trans hat)).mpr fun p hp => h.copied_kernel hstep (hend p hp)
      | _ => exact .of_pc (by simp [hpc, hat]) (by simp [hpc, hat])
  | step ret => exact h.program hend hsafe hstep

/-- For every input file, every order of completions and every choice of results: a copy that
returns 0 has copied the file, if the submission of reads never failed and the last loop took no
short completion. -/
theorem copied_of_returned_zero {l : List CopyEvent}
    (hsafe : Along (step infile) Unharmed (start infile) l)
    (hrun : runEvents (step infile) (start infile) l = some t) (hret : t.pc = .returned 0) :
    infile.size ≤ t.outfile.size ∧ ∀ p, p < infile.size → t.outfile.byte p = infile.byte p := by
  have hinv : t.Failed ∨ (t.Sound infile ∧ t.Ended infile) := by
    refine invariant_along (I := fun s => s.Failed ∨ (s.Sound infile ∧ s.Ended infile)) ?_
      (Or.inr ⟨sound_start infile, trivial⟩) hsafe hrun
    rintro s e u (hfail | ⟨hsound, hend⟩) hC hstep
    · exact Or.inl (hfail.step hstep)
    · exact hsound.step hend hC hstep
  rcases hinv with (hpc | hpc) | ⟨-, hend⟩
  · rw [hret] at hpc
    cases hpc
  · rw [hret, Point.returned.injEq] at hpc
    cases hpc
  · rw [ended_returned hret] at hend
    refine ⟨?_, fun p hp => (hend p hp).2⟩
    -- the last byte is there, so the file is long enough
    by_contra hlt
    have hlast := (hend (infile.size - 1) (by omega)).1
    omega

/-- A file of two bytes. -/
def twoBytes : ByteFile := ⟨2, fun _ => 65⟩

/-- The two bytes are read and written at once. -/
def copyAtOnce : List CopyEvent :=
  [.step 0, .step 0, .step 0, .step 1, .kernel 0 2, .step 0, .step 1, .step 0, .step 0, .kernel 0 2,
    .step 0, .step 0]

theorem copied_of_returned_zero_two_bytes : ∃ t,
    runEvents (step twoBytes) (start twoBytes) copyAtOnce = some t ∧
      t.pc = .returned 0 ∧ 2 ≤ t.outfile.size := by
  have hsafe : Along (step twoBytes) Unharmed (start twoBytes) copyAtOnce := by
    refine ⟨trivial, trivial, trivial, fun _ => Int.one_nonneg, trivial, trivial, trivial, trivial,
      trivial, trivial, ?_, fun h => absurd rfl h, trivial⟩
    intro _ _ c hc _
    cases hc
    rfl
  have hall : ∀ t, runEvents (step twoBytes) (start twoBytes) copyAtOnce = some t →
      t.pc = .returned 0 → 2 ≤ t.outfile.size := by
    intro t hrun hret
    exact (copied_of_returned_zero hsafe hrun hret).1
  exact ⟨_, rfl, rfl, hall _ rfl rfl⟩

/-- The write of two bytes is completed with one byte in the last loop: the copy returns 0. -/
theorem short_write : ∃ t,
    runEvents (step twoBytes) (start twoBytes)
      [.step 0, .step 0, .step 0, .step 1, .kernel 0 2, .step 0, .step 1, .step 0, .step 0,
        .kernel 0 1, .step 0, .step 0] = some t ∧
      t.pc = .returned 0 ∧ t.outfile.size = 1 :=
  ⟨_, rfl, rfl, rfl⟩

/-! ## The return value 1 -/

/-- Allocations, submissions and waits succeed, and a request is completed with some bytes or with
`-EAGAIN`. -/
def Benign (s : Copy) : CopyEvent → Prop
  | .kernel _ res => res = -EAGAIN ∨ 0 < res
  | .step ret =>
      match s.pc with
      | .fill _ => ret = 0
      | .submit _ => 0 ≤ ret
      | .reap false => ret = 0
      | .complete => 0 ≤ ret
      | .drain => ret = 0
      | _ => True

/-- A poll finds a completion, and the last loop takes none with `-EAGAIN`. -/
def Prompt (s : Copy) : CopyEvent → Prop
  | .kernel _ _ => True
  | .step _ =>
      match s.pc with
      | .reap true => s.write_left ≠ 0 → s.cq ≠ []
      | .drain => s.writes ≠ 0 → ∀ c ∈ s.cq.head?, c.2 ≠ -EAGAIN
      | _ => True

/-- The copy goes on, and no completion is an error other than `-EAGAIN`. -/
structure Running (s : Copy) : Prop where
  results : ∀ c ∈ s.cq, c.2 = -EAGAIN ∨ 0 < c.2
  pc : s.pc ≠ .returned 1

/-- A step that leaves the completions. -/
theorem Running.of_cq (h : s.Running) (hcq : t.cq ⊆ s.cq) (hpc : t.pc ≠ .returned 1) : t.Running :=
  ⟨fun c hc => h.results c (hcq hc), hpc⟩

theorem Running.kernel (h : s.Running) (hres : res = -EAGAIN ∨ 0 < res)
    (hstep : s.kernel infile i res = some t) : t.Running := by
  have hpc := kernel_pc hstep
  obtain ⟨d, -, -, rfl⟩ := kernel_eq hstep
  refine ⟨?_, hpc ▸ h.pc⟩
  intro c hc
  rcases List.mem_append.mp hc with hold | hnew
  · exact h.results c hold
  · rw [List.mem_singleton] at hnew
    subst hnew
    exact hres

theorem Running.resubmit (h : s.Running) (hstep : s.resubmit d ret = some t) : t.Running := by
  unfold Copy.resubmit at hstep
  split at hstep
  · cases hstep
    exact h.of_cq (fun c hc => hc) (by simp)
  · rw [Option.map_eq_some_iff] at hstep
    obtain ⟨u, hu, rfl⟩ := hstep
    obtain ⟨n, rfl⟩ := submit_eq hu
    exact h.of_cq (List.tail_subset s.cq) (by simp)

/-- Handling a completion of a benign run does not return. -/
theorem Running.complete (h : s.Running) (hstep : s.complete ret = some t) : t.Running := by
  obtain ⟨d, res, cq, hcq, hcompleted⟩ := Completed.of_complete hstep
  have hres : res = -EAGAIN ∨ 0 < res := h.results (d, res) (hcq ▸ List.mem_cons_self ..)
  cases hcompleted with
  | again t _ hagain => exact h.resubmit hagain
  | failed hneg hne =>
      -- the only error is `-EAGAIN`
      rcases hres with hagain | hpos
      · exact absurd hagain hne
      · omega
  | rest t _ hrest => exact h.resubmit hrest
  | read t _ _ hwrite =>
      exact Running.resubmit (s := { s with
        write_left := s.write_left - d.first_len
        reads := s.reads - 1
        writes := s.writes + 1 }) ⟨h.results, h.pc⟩ hwrite
  | write _ _ => exact h.of_cq (hcq ▸ List.subset_cons_self _ _) (by simp)

theorem Running.fill {had_reads : Int} (h : s.Running) (hstep : s.fill had_reads ret = t) :
    t.Running := by
  cases Filled.of_fill hstep with
  | stop => exact h.of_cq (fun c hc => hc) (by simp)
  | read size _ _ => exact h.of_cq (fun c hc => hc) h.pc

/-- A wait that succeeds leads to a completion. -/
theorem Running.reap_wait (h : s.Running) (hstep : s.reap false 0 = some t) : t.Running := by
  cases Reaped.of_reap hstep with
  | done _ => exact h.of_cq (fun c hc => hc) (by simp)
  | failed _ hret => exact absurd hret (lt_irrefl 0)
  | found _ _ => exact h.of_cq (fun c hc => hc) (by simp)

/-- A poll returns 1 exactly when there are bytes to write and no completion is ready. -/
theorem Running.reap_poll (h : s.Running) (hstep : s.reap true ret = some t) :
    ((s.write_left ≠ 0 → s.cq ≠ []) ∧ t.Running) ∨
      (¬ (s.write_left ≠ 0 → s.cq ≠ []) ∧ t.pc = .returned 1) := by
  cases Reaped.of_reap hstep with
  | done hleft =>
      exact Or.inl ⟨fun hne => absurd hleft hne, h.of_cq (fun c hc => hc) (by simp)⟩
  | failed hleft hret =>
      rw [if_pos rfl, peek] at hret
      refine Or.inr ⟨fun hprompt => ?_, rfl⟩
      -- the answer is that of the completion queue
      rw [if_neg (hprompt hleft)] at hret
      exact lt_irrefl 0 hret
  | found _ hcq => exact Or.inl ⟨fun _ => hcq, h.of_cq (fun c hc => hc) (by simp)⟩

/-- The last loop returns 1 exactly when it takes a completion with `-EAGAIN`. -/
theorem Running.drain (h : s.Running) (hpc : s.pc = .drain) (hstep : s.drain 0 = some t) :
    ((s.writes ≠ 0 → ∀ c ∈ s.cq.head?, c.2 ≠ -EAGAIN) ∧ t.Running) ∨
      (¬ (s.writes ≠ 0 → ∀ c ∈ s.cq.head?, c.2 ≠ -EAGAIN) ∧ t.pc = .returned 1) := by
  cases Drained.of_drain hstep with
  | done hwrites =>
      exact Or.inl ⟨fun hne => absurd hwrites hne, h.of_cq (fun c hc => hc) (by simp)⟩
  | refused _ hret => exact absurd rfl hret
  | @failed d res cq hwrites hcq hneg =>
      refine Or.inr ⟨fun hprompt => ?_, rfl⟩
      rw [hcq] at hprompt
      rcases h.results (d, res) (hcq ▸ List.mem_cons_self ..) with hagain | hpos
      · exact hprompt hwrites (d, res) rfl hagain
      · exact absurd hneg (not_lt.mpr (le_of_lt hpos))
  | @taken d res cq hwrites _ hcq hpos =>
      refine Or.inl ⟨?_, h.of_cq (hcq ▸ List.subset_cons_self _ _) (by simp [hpc])⟩
      intro _ c hc hagain
      rw [hcq, List.head?_cons, Option.mem_some_iff] at hc
      subst hc
      exact absurd (lt_of_eq_of_lt hagain (by decide)) (not_lt.mpr hpos)

/-- In a benign run a step of the program returns 1 exactly when it is not prompt. -/
theorem Running.program (h : s.Running) (hbenign : Benign s (.step ret))
    (hstep : s.program ret = some t) :
    (Prompt s (.step ret) ∧ t.Running) ∨ (¬ Prompt s (.step ret) ∧ t.pc = .returned 1) := by
  unfold Copy.program at hstep
  unfold Benign at hbenign
  unfold Prompt
  cases hpc : s.pc with
  | outer =>
      rw [hpc] at hstep
      cases hstep
      refine Or.inl ⟨trivial, h.of_cq (fun c hc => hc) ?_⟩
      dsimp only
      split <;> simp
  | fill had_reads =>
      rw [hpc] at hstep
      cases hstep
      exact Or.inl ⟨trivial, h.fill rfl⟩
  | submit had_reads =>
      rw [hpc] at hstep
      dsimp only at hstep
      refine Or.inl ⟨trivial, ?_⟩
      split at hstep
      · rw [Option.map_eq_some_iff] at hstep
        obtain ⟨u, hu, rfl⟩ := hstep
        obtain ⟨n, rfl⟩ := submit_eq hu
        refine h.of_cq (fun c hc => hc) ?_
        dsimp only
        split <;> simp
      · cases hstep
        exact h.of_cq (fun c hc => hc) (by simp)
  | reap got_comp =>
      rw [hpc] at hstep hbenign
      cases got_comp with
      | false =>
          dsimp only at hbenign
          subst hbenign
          exact Or.inl ⟨trivial, h.reap_wait hstep⟩
      | true => exact h.reap_poll hstep
  | complete =>
      rw [hpc] at hstep
      exact Or.inl ⟨trivial, h.complete hstep⟩
  | drain =>
      rw [hpc] at hstep hbenign
      dsimp only at hbenign
      subst hbenign
      exact h.drain hpc hstep
  | returned r =>
      rw [hpc] at hstep
      cases hstep
  | aborted =>
      rw [hpc] at hstep
      cases hstep

theorem Running.step {e : CopyEvent} (h : s.Running) (hbenign : Benign s e)
    (hstep : s.step infile e = some t) :
    (Prompt s e ∧ t.Running) ∨ (¬ Prompt s e ∧ t.pc = .returned 1) := by
  cases e with
  | kernel i res => exact Or.inl ⟨trivial, h.kernel hbenign hstep⟩
  | step ret => exact h.program hbenign hstep

theorem returned_step {ret : Int} {e : CopyEvent} (h : s.pc = .returned ret)
    (hstep : s.step infile e = some t) : t.pc = .returned ret := by
  cases e with
  | kernel i res => exact (kernel_pc hstep).trans h
  | step r =>
      rw [Copy.step, Copy.program, h] at hstep
      cases hstep

/-- For every input file, every order and timing of benign completions: the copy does not return 1
if and only if every poll finds a completion and the last loop takes none with `-EAGAIN`. -/
theorem returned_one_iff {l : List CopyEvent}
    (hbenign : Along (step infile) Benign (start infile) l)
    (hrun : runEvents (step infile) (start infile) l = some t) :
    t.pc ≠ .returned 1 ↔ Along (step infile) Prompt (start infile) l := by
  have hstart : (start infile).Running := ⟨fun c hc => absurd hc List.not_mem_nil, by simp [start]⟩
  have hcases : (Along (step infile) Prompt (start infile) l ∧ t.Running) ∨
      (¬ Along (step infile) Prompt (start infile) l ∧ t.pc = .returned 1) :=
    along_or_lasting (fun s e u hs hD hu => hs.step hD hu)
      (fun s e u hs _ hu => returned_step hs hu) hstart hbenign hrun
  rcases hcases with ⟨hprompt, ht⟩ | ⟨hprompt, ht⟩
  · exact iff_of_true ht.pc hprompt
  · exact iff_of_false (fun hne => hne ht) hprompt

theorem returned_one_iff_two_bytes : ∃ t,
    runEvents (step twoBytes) (start twoBytes) copyAtOnce = some t ∧ t.pc ≠ .returned 1 := by
  have hbenign : Along (step twoBytes) Benign (start twoBytes) copyAtOnce :=
    ⟨trivial, rfl, rfl, Int.one_nonneg, Or.inr two_pos, rfl, Int.one_nonneg, trivial, trivial,
      Or.inr two_pos, rfl, rfl, trivial⟩
  have hprompt : Along (step twoBytes) Prompt (start twoBytes) copyAtOnce := by
    refine ⟨trivial, trivial, trivial, trivial, trivial, trivial, trivial, fun h => absurd rfl h,
      trivial, trivial, ?_, fun h => absurd rfl h, trivial⟩
    intro _ c hc
    cases hc
    decide
  have hall : ∀ t, runEvents (step twoBytes) (start twoBytes) copyAtOnce = some t →
      t.pc ≠ .returned 1 := by
    intro t hrun
    exact (returned_one_iff hbenign hrun).mpr hprompt
  exact ⟨_, rfl, hall _ rfl⟩

/-- Two reads are under way, the first is completed in full and taken, and the poll for the next
completion comes before there is one: the copy returns 1. -/
theorem empty_poll :
    Along (step ⟨BS + 1, fun _ => 65⟩) Benign (start ⟨BS + 1, fun _ => 65⟩)
        [.step 0, .step 0, .step 0, .step 0, .step 2, .kernel 0 BS, .step 0, .step 1, .step 0] ∧
      (runEvents (step ⟨BS + 1, fun _ => 65⟩) (start ⟨BS + 1, fun _ => 65⟩)
        [.step 0, .step 0, .step 0, .step 0, .step 2, .kernel 0 BS, .step 0, .step 1,
          .step 0]).map Copy.pc = some (.returned 1) := by
  constructor
  · exact ⟨trivial, rfl, rfl, rfl, Int.zero_le_ofNat 2, Or.inr (by decide), rfl, Int.one_nonneg,
      trivial, trivial⟩
  · rfl

end Copy

end CLanguageLearning.Uring
