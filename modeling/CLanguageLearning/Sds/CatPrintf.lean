import CLanguageLearning.Sds.AppendCost

/-!
# Formatted appending

`sdscatvprintf` prints into an array of its own frame, and into a block when the array may be or has
turned out too small: the first attempt says how much room the second needs. What the format and the
arguments expand to is a parameter, as is that `vsnprintf` fails.

The string grows by the expansion, in the room that `sdscatlen` makes, and the buffer is gone after at
most two attempts (`sdscatvprintf_appends`). A failed or refused attempt leaves every block as it was
(`sdscatvprintf_clean`).
-/

set_option autoImplicit false

namespace CLanguageLearning.Sds

open CLanguageLearning.Foundation

/-- `sizeof(staticbuf)`. -/
def STATICBUF_SIZE : Nat := 1024

/-- `buf`: the array, with its bytes up to the last one written, or a block. -/
inductive PrintBuf where
  | staticbuf (bytes : List UInt8)
  | heap (p : Ptr)

namespace PrintBuf

/-- `if (buf != staticbuf) s_free(buf)`. -/
def release : PrintBuf → Exec Mem Unit
  | staticbuf _ => return ()
  | heap p => free p

/-- The buffer as the source of a copy. -/
def source : PrintBuf → Source
  | staticbuf bytes => .bytes bytes
  | heap p => .mem p

end PrintBuf

/-- The bytes that `vsnprintf` writes when it has room for `size` bytes. -/
def printed (out : List UInt8) (size : Nat) : List UInt8 := out.take (size - 1) ++ [0]

/-- `vsnprintf(buf, size, fmt, ap)`, for a format and arguments that expand to `expansion`, or to
nothing when there is an error in them. The result is the length of the whole expansion; a length
beyond `int` is an error. -/
def vsnprintf (expansion : Option (List UInt8)) (buf : PrintBuf) (size : Nat) :
    Exec Mem (Option Nat × PrintBuf) :=
  match expansion with
  | none => return (none, buf)
  | some out =>
      if INT_MAX < out.length then return (none, buf)
      else
        match buf with
        | .staticbuf _ =>
            if (printed out size).length ≤ STATICBUF_SIZE
            then return (some out.length, .staticbuf (printed out size)) else throw .undefined
        | .heap p => do
            writeAt p (printed out size).length fun k => (printed out size).getD k 0
            return (some out.length, .heap p)

/-- The loop, in at most the given number of attempts; `none` stands for `return NULL`. -/
def printLoop (al : Allocator) (expansion : Option (List UInt8)) :
    Nat → PrintBuf → Nat → Exec Mem (Option (PrintBuf × Nat))
  | 0, _, _ => throw .diverged
  | fuel + 1, buf, buflen => do
      let (bufstrlen, buf) ← vsnprintf expansion buf buflen
      match bufstrlen with
      | none => do
          buf.release
          return none
      | some n =>
          if buflen ≤ n then do
            buf.release
            let p ← malloc al (n + 1)
            if p = Ptr.null then return none
            printLoop al expansion fuel (.heap p) (n + 1)
          else return some (buf, n)

/-- `sdscatvprintf(s, fmt, ap)`, for a format of `fmtlen` bytes. -/
def sdscatvprintf (al : Allocator) (s : Ptr) (fmtlen : Nat) (expansion : Option (List UInt8))
    (fuel : Nat) : Exec Mem Ptr := do
  let buflen := sizeT (fmtlen * 2)
  let start ←
    if STATICBUF_SIZE < buflen then do
      let p ← malloc al buflen
      if p = Ptr.null then pure none else pure (some (PrintBuf.heap p, buflen))
    else pure (some (PrintBuf.staticbuf [], STATICBUF_SIZE))
  match start with
  | none => return Ptr.null
  | some (buf, buflen) => do
      let r ← printLoop al expansion fuel buf buflen
      match r with
      | none => return Ptr.null
      | some (buf, bufstrlen) => do
          let t ← sdscatlen al s buf.source bufstrlen
          buf.release
          return t

/-- `sdscatprintf(s, fmt, …)`. -/
def sdscatprintf (al : Allocator) (s : Ptr) (fmtlen : Nat) (expansion : Option (List UInt8))
    (fuel : Nat) : Exec Mem Ptr :=
  sdscatvprintf al s fmtlen expansion fuel

/-! ## The buffer -/

/-- The buffer has `size` bytes, and it is the only block that was not there in `m₀`. -/
def Buffering (m₀ m : Mem) (size : Nat) : PrintBuf → Prop
  | .staticbuf _ => size = STATICBUF_SIZE ∧ m₀.next ≤ m.next ∧ m.blocks = m₀.blocks
  | .heap p => ∃ i b, p = ⟨some i, 0⟩ ∧ m₀.next ≤ i ∧ m₀.next ≤ m.next ∧ m.blocks i = some b ∧
      b.size = size ∧ ∀ k, k ≠ i → m.blocks k = m₀.blocks k

section Buffers

variable {al : Allocator} {m₀ m : Mem} {buf : PrintBuf} {size n : Nat} {out : List UInt8}

theorem length_printed_le (out : List UInt8) (h : 0 < size) : (printed out size).length ≤ size := by
  rw [printed, List.length_append, List.length_take, List.length_singleton]
  omega

/-- Without the buffer the blocks are those of `m₀`. -/
theorem Buffering.release_run (h : Buffering m₀ m size buf) :
    ∃ m', buf.release.run m = .ok ((), m') ∧ m'.blocks = m₀.blocks ∧ m₀.next ≤ m'.next := by
  cases buf with
  | staticbuf bytes => exact ⟨m, rfl, h.2.2, h.2.1⟩
  | heap p =>
      obtain ⟨i, b, rfl, hi, hnext, hb, -, hkeep⟩ := h
      refine ⟨m.release i, free_run hb, ?_, hnext⟩
      funext k
      by_cases hk : k = i
      · rw [hk, Mem.release_blocks_self, m₀.unused i hi]
      · rw [Mem.release_blocks_of_ne hk, hkeep k hk]

/-- The buffer is given back behind an operation on the string in block `i`. -/
theorem Buffering.release_moved {m' : Mem} {i j : Nat} (h : Buffering m₀ m size buf)
    (hi : i < m₀.next) (hmoved : m.Moved m' i j)
    (hfresh : ∀ k, m.next ≤ k → k ≠ j → m'.blocks k = none) :
    ∃ m'', buf.release.run m' = .ok ((), m'') ∧ m''.blocks j = m'.blocks j ∧
      (j ≠ i → m''.blocks i = none) ∧ ∀ k, k ≠ i → k ≠ j → m''.blocks k = m₀.blocks k := by
  -- the blocks that are not the string's, the buffer included
  have hrest : m₀.next ≤ m.next → ∀ k, k ≠ i → k ≠ j → m'.blocks k = m.blocks k := by
    intro hnext k hki hkj
    rcases Nat.lt_or_ge k m.next with hlt | hge
    · exact hmoved.keeps k hki hlt
    · rw [hfresh k hge hkj, m.unused k hge]
  cases buf with
  | staticbuf bytes =>
      obtain ⟨-, hnext, hblocks⟩ := h
      refine ⟨m', rfl, rfl, hmoved.freed, fun k hki hkj => ?_⟩
      rw [hrest hnext k hki hkj, hblocks]
  | heap p =>
      obtain ⟨x, b, rfl, hx, hnext, hb, -, hkeep⟩ := h
      have hlt := Mem.lt_next hb
      have hxj : j ≠ x := by
        rcases hmoved.target with rfl | hj
        · omega
        · omega
      have hlive : m'.blocks x = some b := by rw [hrest hnext x (by omega) hxj.symm, hb]
      refine ⟨m'.release x, free_run hlive, Mem.release_blocks_of_ne hxj, fun hji => ?_, ?_⟩
      · rw [Mem.release_blocks_of_ne (by omega), hmoved.freed hji]
      · intro k hki hkj
        by_cases hk : k = x
        · rw [hk, Mem.release_blocks_self, m₀.unused x hx]
        · rw [Mem.release_blocks_of_ne hk, hrest hnext k hki hkj, hkeep k hk]

/-- A new block is a buffer. -/
theorem Buffering.of_grant (h : m.blocks = m₀.blocks) (hnext : m₀.next ≤ m.next)
    (junk : Nat → UInt8) :
    Buffering m₀ (m.grant ⟨n, junk⟩) n (.heap ⟨some m.next, 0⟩) := by
  refine ⟨m.next, _, rfl, hnext, hnext.trans (Nat.le_succ _), Mem.grant_blocks_next m _, rfl, ?_⟩
  intro k hk
  rw [Mem.grant_blocks_of_ne hk, h]

/-- The expansion is written as far as there is room for it. -/
theorem Buffering.vsnprintf_run (h : Buffering m₀ m size buf) (hsize : 0 < size)
    (hout : out.length ≤ INT_MAX) :
    ∃ buf' m', (vsnprintf (some out) buf size).run m = .ok ((some out.length, buf'), m') ∧
      Buffering m₀ m' size buf' ∧ (out.length < size → buf'.source.Holds m' out) := by
  have hlen := length_printed_le out hsize
  have hkept : out.length < size → out <+: printed out size := by
    intro hlt
    rw [printed, List.take_of_length_le (by omega)]
    exact List.prefix_append _ _
  cases buf with
  | staticbuf bytes =>
      obtain ⟨rfl, hnext, hblocks⟩ := h
      refine ⟨.staticbuf (printed out STATICBUF_SIZE), m, ?_, ⟨rfl, hnext, hblocks⟩, hkept⟩
      rw [vsnprintf, if_neg (not_lt.mpr hout), if_pos hlen]
      rfl
  | heap p =>
      obtain ⟨i, b, rfl, hi, hnext, hb, rfl, hkeep⟩ := h
      have hwrite := writeAt_run (o := 0) hb (show 0 + (printed out b.size).length ≤ b.size by omega)
        fun k => (printed out b.size).getD k 0
      have hb' := Mem.mapBlock_blocks_self hb fun d => d.put 0 (printed out b.size)
      refine ⟨.heap ⟨some i, 0⟩, m.mapBlock i fun d => d.put 0 (printed out b.size), ?_,
        ⟨i, _, rfl, hi, hnext, hb', rfl, fun k hk => ?_⟩, ?_⟩
      · rw [vsnprintf, if_neg (not_lt.mpr hout)]
        exact run_bind_of_ok hwrite _
      · rw [Mem.mapBlock_blocks_of_ne hk, hkeep k hk]
      · intro hlt
        refine Source.Holds.of_prefix ?_ (hkept hlt)
        refine ⟨i, _, rfl, hb', ?_, ?_⟩
        · rw [Block.put_size]
          dsimp only
          omega
        · intro k hk
          exact Block.put_data hk

theorem PrintBuf.release_keeps_requests (buf : PrintBuf) : Keeps Mem.requests buf.release := by
  cases buf with
  | staticbuf bytes => exact Keeps.pure _
  | heap p => exact free_keeps_requests p

theorem vsnprintf_keeps_requests (expansion : Option (List UInt8)) (buf : PrintBuf) (size : Nat) :
    Keeps Mem.requests (vsnprintf expansion buf size) := by
  cases expansion with
  | none => exact Keeps.pure _
  | some out =>
      refine Keeps.ite (Keeps.pure _) ?_
      cases buf with
      | staticbuf bytes => exact Keeps.ite (Keeps.pure _) (Keeps.throw _)
      | heap p => exact (writeAt_keeps_requests _ _ _).bind fun _ => Keeps.pure _

end Buffers

/-! ## The attempts -/

/-- `vsnprintf` reports an error. -/
def Fails (expansion : Option (List UInt8)) : Prop :=
  ∀ out, expansion = some out → INT_MAX < out.length

section Attempts

variable {al : Allocator} {m₀ m : Mem} {buf : PrintBuf} {size fmtlen : Nat} {out : List UInt8}
  {expansion : Option (List UInt8)}

theorem vsnprintf_run_fails (h : Fails expansion) (buf : PrintBuf) (size : Nat) (m : Mem) :
    (vsnprintf expansion buf size).run m = .ok ((none, buf), m) := by
  cases expansion with
  | none => rfl
  | some out =>
      unfold vsnprintf
      dsimp only
      rw [if_pos (h out rfl)]
      rfl

theorem printLoop_run_fails (h : Buffering m₀ m size buf) (hfails : Fails expansion)
    (al : Allocator) :
    ∃ m', (∀ fuel, (printLoop al expansion (fuel + 1) buf size).run m = .ok (none, m')) ∧
      m'.blocks = m₀.blocks := by
  obtain ⟨m', hrelease, hblocks, -⟩ := h.release_run
  refine ⟨m', fun fuel => ?_, hblocks⟩
  rw [printLoop, run_bind_of_ok (vsnprintf_run_fails hfails buf size m)]
  exact run_bind_of_ok hrelease _

/-- There is room for the expansion. -/
theorem printLoop_run_fits (h : Buffering m₀ m size buf) (hout : out.length ≤ INT_MAX)
    (hlt : out.length < size) (al : Allocator) :
    ∃ buf' m', (∀ fuel, (printLoop al (some out) (fuel + 1) buf size).run m =
        .ok (some (buf', out.length), m')) ∧
      Buffering m₀ m' size buf' ∧ buf'.source.Holds m' out := by
  obtain ⟨buf', m', hprint, hbuf, hholds⟩ := h.vsnprintf_run (by omega) hout
  refine ⟨buf', m', fun fuel => ?_, hbuf, hholds hlt⟩
  rw [printLoop, run_bind_of_ok hprint]
  dsimp only
  rw [if_neg (by omega)]
  rfl

/-- There is not, and the next attempt gets a block of the right size. -/
theorem printLoop_run_short (h : Buffering m₀ m size buf) (hsize : 0 < size)
    (hout : out.length ≤ INT_MAX) (hle : size ≤ out.length) (al : Allocator) :
    ∃ m₁, m₁.blocks = m₀.blocks ∧ m₀.next ≤ m₁.next ∧ m₁.requests = m.requests ∧
      ∀ fuel, (printLoop al (some out) (fuel + 1) buf size).run m = (do
        let p ← malloc al (out.length + 1)
        if p = Ptr.null then return none
        printLoop al (some out) fuel (.heap p) (out.length + 1) :
          Exec Mem (Option (PrintBuf × Nat))).run m₁ := by
  obtain ⟨buf', m', hprint, hbuf, -⟩ := h.vsnprintf_run hsize hout
  obtain ⟨m₁, hrelease, hblocks, hnext⟩ := hbuf.release_run
  have hrequests : m₁.requests = m.requests := by
    rw [buf'.release_keeps_requests m' _ m₁ hrelease,
      vsnprintf_keeps_requests _ _ _ m _ m' hprint]
  refine ⟨m₁, hblocks, hnext, hrequests, fun fuel => ?_⟩
  rw [printLoop, run_bind_of_ok hprint]
  dsimp only
  rw [if_pos hle]
  exact run_bind_of_ok hrelease _

/-- With a buffer, and with a block for the second attempt if there has to be one, the expansion
is printed. -/
theorem printLoop_run_filled (h : Buffering m₀ m size buf) (hsize : 0 < size)
    (hout : out.length ≤ INT_MAX) (hal : size ≤ out.length → al m.requests.length ≠ none) :
    ∃ buf' size' m', (∀ fuel, (printLoop al (some out) (fuel + 2) buf size).run m =
        .ok (some (buf', out.length), m')) ∧
      Buffering m₀ m' size' buf' ∧ buf'.source.Holds m' out := by
  rcases Nat.lt_or_ge out.length size with hlt | hle
  · obtain ⟨buf', m', hturn, hends⟩ := printLoop_run_fits h hout hlt al
    exact ⟨buf', size, m', fun fuel => hturn (fuel + 1), hends⟩
  · obtain ⟨m₁, hblocks, hnext, hrequests, hturn⟩ := printLoop_run_short h hsize hout hle al
    obtain ⟨junk, hjunk⟩ := Option.ne_none_iff_exists'.mp (hal hle)
    rw [← hrequests] at hjunk
    have hnew := Buffering.of_grant (n := out.length + 1) hblocks hnext junk
    obtain ⟨buf', m', hlast, hends⟩ := printLoop_run_fits hnew hout (Nat.lt_succ_self _) al
    refine ⟨buf', out.length + 1, m', fun fuel => ?_, hends⟩
    rw [hturn, run_bind_of_ok (malloc_run_granted hjunk), if_neg (Ptr.mk_ne_null _ _)]
    exact hlast fuel

end Attempts

/-! ## The whole function -/

/-- A request for a buffer is refused, the next request being number `k`. -/
def BufferRefused (al : Allocator) (k fmtlen : Nat) (out : List UInt8) : Prop :=
  if STATICBUF_SIZE < sizeT (fmtlen * 2)
  then al k = none ∨ sizeT (fmtlen * 2) ≤ out.length ∧ al (k + 1) = none
  else STATICBUF_SIZE ≤ out.length ∧ al k = none

section Whole

variable {al : Allocator} {m : Mem} {i fmtlen : Nat} {v : Value} {out : List UInt8}
  {expansion : Option (List UInt8)}

/-- The function behind the choice of the first buffer. -/
def printInto (al : Allocator) (s : Ptr) (expansion : Option (List UInt8)) (fuel : Nat)
    (buf : PrintBuf) (buflen : Nat) : Exec Mem Ptr := do
  let r ← printLoop al expansion fuel buf buflen
  match r with
  | none => return Ptr.null
  | some (buf, bufstrlen) => do
      let t ← sdscatlen al s buf.source bufstrlen
      buf.release
      return t

/-- The first buffer is refused, or there is one and the rest of the function uses it. -/
theorem sdscatvprintf_start (al : Allocator) (s : Ptr) (fmtlen : Nat) (m : Mem) :
    (al m.requests.length = none ∧ STATICBUF_SIZE < sizeT (fmtlen * 2) ∧
      ∀ expansion fuel, (sdscatvprintf al s fmtlen expansion fuel).run m =
        .ok (Ptr.null, m.refuse (sizeT (fmtlen * 2)))) ∨
    ∃ buf size m₁, Buffering m m₁ size buf ∧ 0 < size ∧
      (∀ expansion fuel, (sdscatvprintf al s fmtlen expansion fuel).run m =
        (printInto al s expansion fuel buf size).run m₁) ∧
      (if STATICBUF_SIZE < sizeT (fmtlen * 2)
        then al m.requests.length ≠ none ∧ size = sizeT (fmtlen * 2) ∧
          m₁.requests.length = m.requests.length + 1
        else size = STATICBUF_SIZE ∧ m₁.requests.length = m.requests.length) := by
  by_cases hlong : STATICBUF_SIZE < sizeT (fmtlen * 2)
  · cases hal : al m.requests.length with
    | none =>
        refine .inl ⟨rfl, hlong, fun expansion fuel => ?_⟩
        rw [sdscatvprintf]
        dsimp only
        rw [if_pos hlong]
        apply (run_bind_of_ok (malloc_run_refused hal) _).trans
        rfl
    | some junk =>
        refine .inr ⟨.heap ⟨some m.next, 0⟩, sizeT (fmtlen * 2), _, .of_grant rfl le_rfl junk,
          by omega, fun expansion fuel => ?_, ?_⟩
        · rw [sdscatvprintf]
          dsimp only
          rw [if_pos hlong]
          apply (run_bind_of_ok (malloc_run_granted hal) _).trans
          rfl
        · rw [if_pos hlong]
          exact ⟨Option.some_ne_none _, rfl, rfl⟩
  · refine .inr ⟨.staticbuf [], STATICBUF_SIZE, m, ⟨rfl, le_rfl, rfl⟩, by decide,
      fun expansion fuel => ?_, ?_⟩
    · rw [sdscatvprintf]
      dsimp only
      rw [if_neg hlong]
      rfl
    · rw [if_neg hlong]
      exact ⟨rfl, rfl⟩

/-- `sdscatvprintf` when every request is granted: two attempts are enough, the string is that of
`sdscatlen` for the expansion, and no other block has changed, come or gone. -/
theorem sdscatvprintf_appends (hal : ∀ k, al k ≠ none) (hv : v.At m i)
    (hout : out.length ≤ INT_MAX) (hfit : v.RoomFits out.length) (fmtlen : Nat) :
    ∃ j m', (∀ fuel, 2 ≤ fuel →
        (sdscatvprintf al (handle i v.type) fmtlen (some out) fuel).run m =
          .ok (handle j ((v.makeRoom out.length).setContent (v.content ++ out)).type, m')) ∧
      ((v.makeRoom out.length).setContent (v.content ++ out)).At m' j ∧
      (j ≠ i → m'.blocks i = none) ∧ ∀ k, k ≠ i → k ≠ j → m'.blocks k = m.blocks k := by
  obtain ⟨b, hb, hs⟩ := id hv
  have hi := Mem.lt_next hb
  rcases sdscatvprintf_start al (handle i v.type) fmtlen m with
    ⟨hnone, -⟩ | ⟨buf, size, m₁, hbuf, hsize, hrun, -⟩
  · exact absurd hnone (hal _)
  obtain ⟨buf', size', m₂, hloop, hbuf', hholds⟩ :=
    printLoop_run_filled hbuf hsize hout (fun _ => hal _)
  -- the string is another block than the buffer
  have hstring : v.At m₂ i ∧ buf'.source.Avoids i := by
    cases buf' with
    | staticbuf bytes => exact ⟨⟨b, by rw [hbuf'.2.2, hb], hs⟩, trivial⟩
    | heap p =>
        obtain ⟨x, d, rfl, hx, -, -, -, hkeep⟩ := hbuf'
        refine ⟨⟨b, by rw [hkeep i (by omega), hb], hs⟩, fun he => ?_⟩
        exact hi.not_ge (hx.trans (Option.some.inj he).le)
  obtain ⟨j, m₃, hcat, ⟨d, hd, hds⟩, hmoved⟩ :=
    sdscatlen_yields (hal _) hstring.1 hholds hstring.2 hfit
  obtain ⟨m', hrelease, hkeep, hfreed, hrest⟩ := hbuf'.release_moved hi hmoved fun k hk hkj =>
    sdscatlen_fresh (hal _) hstring.1 hfit hcat hk fun he => hkj (Option.some.inj he).symm
  refine ⟨j, m', fun fuel hfuel => ?_, ⟨d, hkeep.trans hd, hds⟩, hfreed, hrest⟩
  obtain ⟨n, rfl⟩ := Nat.exists_eq_add_of_le hfuel
  rw [hrun, printInto, Nat.add_comm, run_bind_of_ok (hloop n)]
  apply (run_bind_of_ok hcat _).trans
  exact run_bind_of_ok hrelease _

/-- 1500 times `b` appended to `a`: the array of the frame is too small. -/
theorem sdscatvprintf_appends_long :
    ∃ j m' k m'', (sdsnewlen (fun _ => some fun _ => 0) (.src (.bytes [97])) 1).run Mem.empty =
        .ok (handle j (Value.ofBytes [97]).type, m') ∧
      (sdscatprintf (fun _ => some fun _ => 0) (handle j (Value.ofBytes [97]).type) 5
        (some (List.replicate 1500 98)) 2).run m' = .ok (handle k .type16, m'') ∧
      Value.At ⟨.type16, 97 :: List.replicate 1500 98, 3002⟩ m'' k := by
  have hsrc : (Source.bytes [97]).Holds Mem.empty [97] := List.prefix_rfl
  have hlen : (List.replicate 1500 (98 : UInt8)).length = 1500 := List.length_replicate
  have hgranted : ∀ n, (fun _ => some fun _ => 0 : Allocator) n ≠ none :=
    fun _ => Option.some_ne_none _
  obtain ⟨j, m', hnew, hat, -⟩ := @sdsnewlen_yields (fun _ => some fun _ => 0) Mem.empty _ _
    (hgranted 0) hsrc (by decide)
  obtain ⟨k, m'', hrun, hresult, -⟩ := sdscatvprintf_appends hgranted hat (by rw [hlen]; decide)
    (Value.roomFits_of_lt (by rw [hlen]; decide)) 5
  have hroom : (Value.ofBytes [97]).makeRoom 1500 = ⟨.type16, [97], 3002⟩ := by
    simp [Value.makeRoom, Value.ofBytes, prealloc, SDS_MAX_PREALLOC, growType, sdsReqType]
  rw [hlen, hroom] at hrun hresult
  generalize List.replicate 1500 (98 : UInt8) = l at *
  exact ⟨j, m', k, m'', hnew, hrun 2 le_rfl, hresult⟩

/-- When `vsnprintf` fails, or a buffer is refused, `NULL` is returned and no block has changed, come
or gone. -/
theorem sdscatvprintf_clean (s : Ptr)
    (h : Fails expansion ∨ ∃ out, expansion = some out ∧ out.length ≤ INT_MAX ∧
      BufferRefused al m.requests.length fmtlen out) :
    ∃ m', Returns (sdscatvprintf al s fmtlen expansion) m (Ptr.null, m') ∧
      m'.blocks = m.blocks := by
  rcases sdscatvprintf_start al s fmtlen m with
    ⟨-, -, hrun⟩ | ⟨buf, size, m₁, hbuf, hsize, hrun, hfirst⟩
  · exact ⟨m.refuse (sizeT (fmtlen * 2)), ⟨0, fun fuel _ => hrun expansion fuel⟩, rfl⟩
  -- the loop gives up
  suffices hloop : ∃ m', (∀ fuel, (printLoop al expansion (fuel + 1) buf size).run m₁ =
      .ok (none, m')) ∧ m'.blocks = m.blocks by
    obtain ⟨m', hloop, hblocks⟩ := hloop
    refine ⟨m', ⟨1, fun fuel hfuel => ?_⟩, hblocks⟩
    obtain ⟨n, rfl⟩ := Nat.exists_eq_add_of_le' hfuel
    rw [hrun, printInto, run_bind_of_ok (hloop n)]
    rfl
  rcases h with hfails | ⟨out, rfl, hout, hrefused⟩
  · exact printLoop_run_fails hbuf hfails al
  · have hshort : size ≤ out.length ∧ al m₁.requests.length = none := by
      rw [BufferRefused] at hrefused
      split at hrefused
      · rename_i hlong
        rw [if_pos hlong] at hfirst
        rw [hfirst.2.1, hfirst.2.2]
        exact hrefused.resolve_left hfirst.1
      · rename_i hlong
        rw [if_neg hlong] at hfirst
        rw [hfirst.1, hfirst.2]
        exact hrefused
    obtain ⟨m₂, hblocks, -, hrequests, hturn⟩ := printLoop_run_short hbuf hsize hout hshort.1 al
    have hal : al m₂.requests.length = none := by rw [hrequests, hshort.2]
    refine ⟨m₂.refuse (out.length + 1), fun fuel => ?_, hblocks⟩
    rw [hturn, run_bind_of_ok (malloc_run_refused hal), if_pos rfl]
    rfl

/-- The first request is granted, and no other. -/
def firstOnly : Allocator := fun k => if k = 0 then some fun _ => 0 else none

/-- A string is there, and the second attempt is refused its buffer: the string stays. -/
theorem sdscatvprintf_clean_refused :
    ∃ m' m'', (sdsnewlen firstOnly (.src (.bytes [97])) 1).run Mem.empty =
        .ok (handle 0 .type5, m') ∧
      Returns (sdscatprintf firstOnly (handle 0 .type5) 5 (some (List.replicate 1500 98))) m'
        (Ptr.null, m'') ∧
      m''.blocks = m'.blocks ∧ (Value.ofBytes [97]).At m'' 0 := by
  have hsrc : (Source.bytes [97]).Holds Mem.empty [97] := List.prefix_rfl
  obtain ⟨j, m₁, hnew, hat, -⟩ :=
    @sdsnewlen_yields firstOnly Mem.empty _ _ (Option.some_ne_none _) hsrc (by decide)
  obtain ⟨m', hrun, hrequests⟩ : ∃ m', (sdsnewlen firstOnly (.src (.bytes [97])) 1).run
      Mem.empty = .ok (handle 0 .type5, m') ∧ m'.requests.length = 1 := by
    refine ⟨_, rfl, ?_⟩
    rfl
  obtain ⟨hhandle, rfl⟩ := Prod.mk.inj (Except.ok.inj (hnew.symm.trans hrun))
  obtain rfl : j = 0 := Option.some.inj (Ptr.mk.inj hhandle).1
  have hlen : (List.replicate 1500 (98 : UInt8)).length = 1500 := List.length_replicate
  obtain ⟨m'', hreturns, hblocks⟩ :=
    @sdscatvprintf_clean firstOnly m₁ 5 (some (List.replicate 1500 98)) (handle 0 .type5)
      (.inr ⟨_, rfl, by rw [hlen]; decide, by
        rw [BufferRefused, if_neg (by decide), hlen, hrequests]
        exact ⟨by decide, rfl⟩⟩)
  obtain ⟨b, hb, hs⟩ := hat
  exact ⟨m₁, m'', hrun, hreturns, hblocks, b, (congrFun hblocks 0).trans hb, hs⟩

end Whole

end CLanguageLearning.Sds
