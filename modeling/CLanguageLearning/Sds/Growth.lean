import CLanguageLearning.Sds.Representation
import CLanguageLearning.Sds.Strings

/-!
# Growing and shrinking

Everything `sdsMakeRoomFor` and `sdsRemoveFreeSpace` can do to a well-formed string, said once. The
request is granted or refused; the header keeps its type (`s_realloc`) or changes it
(`moveString`); and the assertion of `sdsMakeRoomFor` passes exactly when header, new capacity and
terminator fit in `size_t` (`not_abort_iff`). Invariants, failures and sizes are read off these
lemmas in the modules that follow.
-/

set_option autoImplicit false

namespace CLanguageLearning.Sds

open CLanguageLearning.Foundation

/-! ## Required types -/

theorem lt_limit_sdsReqType {n : Nat} (h : n < SIZE_COUNT) : n < (sdsReqType n).limit := by
  unfold sdsReqType
  split
  · assumption
  · split
    · assumption
    · split
      · assumption
      · split
        · assumption
        · exact h

theorem growType_ne_type5 (n : Nat) : growType n ≠ .type5 := by
  unfold growType
  split
  · decide
  · assumption

theorem lt_limit_growType {n : Nat} (h : n < SIZE_COUNT) : n < (growType n).limit := by
  have hreq := lt_limit_sdsReqType h
  unfold growType
  split
  · rename_i h5
    rw [h5] at hreq
    exact Nat.lt_trans hreq (by decide)
  · exact hreq

theorem lt_limit_newType {n : Nat} (h : n < SIZE_COUNT) : n < (newType n).limit := by
  unfold newType
  split
  · rename_i h5
    rw [h5.2]
    decide
  · exact lt_limit_sdsReqType h

/-- Header, capacity `cap` and terminator of a string of type `T` fit in `size_t`. -/
def FitsSize (T : SdsType) (cap : Nat) : Prop := T.hdrSize + cap + 1 < SIZE_COUNT

instance (T : SdsType) (cap : Nat) : Decidable (FitsSize T cap) := by
  unfold FitsSize
  infer_instance

theorem FitsSize.sizeT_eq {T : SdsType} {cap : Nat} (h : FitsSize T cap) :
    sizeT (T.hdrSize + cap + 1) = T.hdrSize + cap + 1 := Nat.mod_eq_of_lt h

theorem FitsSize.lt {T : SdsType} {cap : Nat} (h : FitsSize T cap) : cap < SIZE_COUNT := by
  unfold FitsSize at h
  omega

theorem sizeT_lt (n : Nat) : sizeT n < SIZE_COUNT := Nat.mod_lt n (by decide)

theorem prealloc_eq_zero {n : Nat} : prealloc n = 0 ↔ n = 0 := by
  unfold prealloc SDS_MAX_PREALLOC
  split <;> omega

theorem le_prealloc (n : Nat) : n ≤ prealloc n := by
  unfold prealloc
  split <;> omega

/-- The assertion of `sdsMakeRoomFor` fails exactly when the block for the new capacity does not
fit in `size_t`: a wrapped capacity is below one megabyte and a wrapped block below the largest
header, while the required length is then close to the end of the range. -/
theorem not_abort_iff {reqlen : Nat} (h : reqlen < SIZE_COUNT) :
    ¬ sizeT ((growType (sizeT (prealloc reqlen))).hdrSize + sizeT (prealloc reqlen) + 1) ≤ reqlen ↔
      FitsSize (growType (prealloc reqlen)) (prealloc reqlen) := by
  by_cases hw : prealloc reqlen < SIZE_COUNT
  · have hcap : sizeT (prealloc reqlen) = prealloc reqlen := Nat.mod_eq_of_lt hw
    have hhdr := (growType (prealloc reqlen)).hdrSize_le
    have hle := le_prealloc reqlen
    rw [hcap]
    constructor
    · intro hgt
      -- a wrapped sum is at most the header, below the required length
      by_contra hfit
      unfold FitsSize at hfit
      generalize (growType (prealloc reqlen)).hdrSize = hdr at *
      have hwrap : sizeT (hdr + prealloc reqlen + 1) ≤ 17 := by
        unfold sizeT SIZE_COUNT at *
        omega
      have hbig : 17 ≤ reqlen := by
        unfold prealloc SDS_MAX_PREALLOC at hfit
        unfold SIZE_COUNT at *
        split at hfit <;> omega
      omega
    · intro hfit
      rw [hfit.sizeT_eq]
      omega
  · -- the capacity wraps to less than a megabyte, far below the required length
    have hbig : SIZE_COUNT - SDS_MAX_PREALLOC ≤ reqlen ∧
        prealloc reqlen = reqlen + SDS_MAX_PREALLOC := by
      unfold prealloc SDS_MAX_PREALLOC SIZE_COUNT at *
      split at hw
      · omega
      · rw [if_neg (by assumption)]
        omega
    have hhdr := (growType (sizeT (prealloc reqlen))).hdrSize_le
    constructor
    · intro hgt
      exfalso
      apply hgt
      unfold sizeT SDS_MAX_PREALLOC SIZE_COUNT at *
      omega
    · intro hfit
      exact absurd hfit.lt hw

/-! ## Reallocating a string in its header type -/

/-- The header of a block survives a change of its size. -/
theorem Tagged.resize {T : SdsType} {b : Block} (h : Tagged T b) {n : Nat} (hn : T.hdrSize ≤ n)
    (junk : Nat → UInt8) : Tagged T (b.resize n junk) :=
  have hpos := T.hdrSize_pos
  have hfits := h.fits
  h.congr (Block.resize_data (by omega) (by omega)) hn

theorem lenIn_resize {T : SdsType} {b : Block} (h : T.hdrSize ≤ b.size) {n : Nat}
    (hn : T.hdrSize ≤ n) (junk : Nat → UInt8) : T.lenIn (b.resize n junk) = T.lenIn b :=
  SdsType.lenIn_congr fun _ hk => Block.resize_data (by omega) (by omega)

section Resize

variable {T : SdsType} {c : List UInt8} {old cap : Nat} {b : Block}

/-- The content and the byte behind it survive as well. -/
theorem OpenBlock.resize_data (h : OpenBlock T c old b) (hle : c.length ≤ cap)
    (junk : Nat → UInt8) {k : Nat} (hk : k ≤ c.length) :
    (T.withAlloc cap (b.resize (T.hdrSize + cap + 1) junk)).data (T.hdrSize + k) =
      b.data (T.hdrSize + k) := by
  have hroom := h.room
  have hold := h.len_le
  rw [SdsType.withAlloc_data _ (by omega)]
  exact Block.resize_data (by omega) (by omega)

/-- A string resized to capacity `cap`, recorded in the header. -/
theorem OpenBlock.resize (h : OpenBlock T c old b) (h5 : T ≠ .type5) (hle : c.length ≤ cap)
    (hlim : cap < T.limit) (hfit : FitsSize T cap) (junk : Nat → UInt8) :
    OpenBlock T c cap (T.withAlloc cap (b.resize (T.hdrSize + cap + 1) junk)) := by
  refine
    { tagged := (h.tagged.resize (n := T.hdrSize + cap + 1) (by omega) junk).withAlloc cap
      len := ?_
      alloc := SdsType.allocIn_withAlloc _ h5 hlim
      len_le := hle
      room := by simp
      size_lt := by rw [SdsType.withAlloc_size]; exact hfit
      content := fun k hk => by rw [h.resize_data hle junk hk.le]; exact h.content k hk }
  rw [SdsType.lenIn_withAlloc, lenIn_resize h.tagged.fits (by omega), h.len]

theorem SdsBlock.resize (h : SdsBlock T c old b) (h5 : T ≠ .type5) (hle : c.length ≤ cap)
    (hlim : cap < T.limit) (hfit : FitsSize T cap) (junk : Nat → UInt8) :
    SdsBlock T c cap (T.withAlloc cap (b.resize (T.hdrSize + cap + 1) junk)) :=
  (h.opened.resize h5 hle hlim hfit junk).closed
    (by rw [h.opened.resize_data hle junk (Nat.le_refl _), h.term])

end Resize

section Realloc

variable {al : Allocator} {m : Mem} {i : Nat} {b : Block} {T : SdsType}

/-- The memory after a granted `s_realloc` of block `i` and `sdssetalloc`. -/
def reallocated (m : Mem) (i : Nat) (b : Block) (T : SdsType) (cap : Nat) (junk : Nat → UInt8) :
    Mem :=
  ((m.grant (b.resize (T.hdrSize + cap + 1) junk)).release i).mapBlock m.next (T.withAlloc cap)

theorem reallocated_blocks_next (hb : m.blocks i = some b) (cap : Nat) (junk : Nat → UInt8) :
    (reallocated m i b T cap junk).blocks m.next =
      some (T.withAlloc cap (b.resize (T.hdrSize + cap + 1) junk)) := by
  have hne : m.next ≠ i := Nat.ne_of_gt (Mem.lt_next hb)
  refine Mem.mapBlock_blocks_self ?_ _
  rw [Mem.release_blocks_of_ne hne, Mem.grant_blocks_next]

theorem reallocated_moved (hb : m.blocks i = some b) (cap : Nat) (junk : Nat → UInt8) :
    Mem.Moved m (reallocated m i b T cap junk) i m.next := by
  have hlt := Mem.lt_next hb
  refine Mem.Moved.mapBlock ⟨?_, ?_, Or.inr (Nat.le_refl _), ?_⟩ _
  · intro k hk hkn
    rw [Mem.release_blocks_of_ne hk, Mem.grant_blocks_of_ne (by omega)]
  · exact Nat.le_succ _
  · intro _
    exact Mem.release_blocks_self _ _

theorem growInPlace_run_zero_refused (hb : m.blocks i = some b)
    (h : al m.requests.length = none) :
    (growInPlace al ⟨some i, 0⟩ T 0).run m =
      .ok (Ptr.null, m.refuse (sizeT (T.hdrSize + 0 + 1))) := by
  rw [growInPlace, run_bind_of_ok (realloc_run_refused hb h)]
  rfl

theorem growInPlace_run_zero_granted (hb : m.blocks i = some b) {junk : Nat → UInt8}
    (h : al m.requests.length = some junk) :
    ∃ m', (growInPlace al ⟨some i, 0⟩ T 0).run m = .ok (Ptr.null, m') :=
  ⟨_, by rw [growInPlace, run_bind_of_ok (realloc_run_granted hb h)]; rfl⟩

/-- A refused `s_realloc` goes unnoticed and the capacity is written through a pointer computed
from the null pointer. -/
theorem growInPlace_run_refused {newlen : Nat} (hb : m.blocks i = some b) (hnew : newlen ≠ 0)
    (h : al m.requests.length = none) :
    (growInPlace al ⟨some i, 0⟩ T newlen).run m = .error .undefined := by
  rw [growInPlace, run_bind_of_ok (realloc_run_refused hb h), if_neg hnew]
  refine run_bind_of_error ?_ _
  have hpos := T.hdrSize_pos
  have hsub := ptrSub_run (n := 1) (o := T.hdrSize) (by omega) none
  simp [sdssetalloc, flagsOf, Ptr.null, hsub]

/-- The capacity is recorded in the new block. -/
theorem sdssetalloc_run_resized {n : Nat} (hb : m.blocks i = some b) (ht : Tagged T b)
    (junk : Nat → UInt8) :
    (sdssetalloc (handle m.next T) n).run
        ((m.grant (b.resize (T.hdrSize + n + 1) junk)).release i) =
      .ok ((), reallocated m i b T n junk) := by
  have hne : m.next ≠ i := Nat.ne_of_gt (Mem.lt_next hb)
  have hnext : ((m.grant (b.resize (T.hdrSize + n + 1) junk)).release i).blocks m.next =
      some (b.resize (T.hdrSize + n + 1) junk) := by
    rw [Mem.release_blocks_of_ne hne, Mem.grant_blocks_next]
  exact sdssetalloc_run hnext (ht.resize (by omega) junk) n

theorem growInPlace_run_granted {newlen : Nat} (hb : m.blocks i = some b) (ht : Tagged T b)
    (hnew : newlen ≠ 0) (hfit : FitsSize T newlen) {junk : Nat → UInt8}
    (h : al m.requests.length = some junk) :
    (growInPlace al ⟨some i, 0⟩ T newlen).run m =
      .ok (handle m.next T, reallocated m i b T newlen junk) := by
  rw [growInPlace, hfit.sizeT_eq, run_bind_of_ok (realloc_run_granted hb h), if_neg hnew,
    add_hdrSize, run_bind_of_ok (sdssetalloc_run_resized hb ht junk)]
  rfl

theorem shrinkInPlace_run_refused {n : Nat} (hb : m.blocks i = some b)
    (h : al m.requests.length = none) :
    (shrinkInPlace al ⟨some i, 0⟩ T.hdrSize n).run m =
      .ok (Ptr.null, m.refuse (sizeT (T.hdrSize + n + 1))) := by
  rw [shrinkInPlace, run_bind_of_ok (realloc_run_refused hb h), if_pos rfl]
  rfl

theorem shrinkInPlace_run_granted {n : Nat} (hb : m.blocks i = some b) (ht : Tagged T b)
    (hfit : FitsSize T n) {junk : Nat → UInt8} (h : al m.requests.length = some junk) :
    (shrinkInPlace al ⟨some i, 0⟩ T.hdrSize n).run m =
      .ok (handle m.next T, reallocated m i b T n junk) := by
  rw [shrinkInPlace, hfit.sizeT_eq, run_bind_of_ok (realloc_run_granted hb h),
    if_neg (Ptr.mk_ne_null _ _), add_hdrSize, run_bind_of_ok (sdssetalloc_run_resized hb ht junk)]
  rfl

end Realloc

/-! ## Moving a string to another header type -/

/-- The content of a well-formed string can be read through its handle. -/
theorem SdsBlock.holds_content {T : SdsType} {c : List UInt8} {cap : Nat} {b : Block}
    (h : SdsBlock T c cap b) {m : Mem} {i : Nat} (hb : m.blocks i = some b) :
    (Source.mem (handle i T)).Holds m c := by
  have hroom := h.room
  have hle := h.len_le
  exact ⟨i, b, rfl, hb, by show T.hdrSize + c.length ≤ b.size; omega, h.content⟩

/-- The source of the copy in `moveString`: the content and the byte behind it. -/
theorem OpenBlock.holds {T : SdsType} {c : List UInt8} {cap : Nat} {b : Block}
    (h : OpenBlock T c cap b) {m : Mem} {i : Nat} (hb : m.blocks i = some b) :
    (Source.mem (handle i T)).Holds m (c ++ [b.data (T.hdrSize + c.length)]) := by
  have hroom := h.room
  have hle := h.len_le
  refine ⟨i, b, rfl, hb, ?_, ?_⟩
  · change T.hdrSize + (c ++ [b.data (T.hdrSize + c.length)]).length ≤ b.size
    rw [List.length_append, List.length_singleton]
    omega
  · intro k hk
    rw [List.length_append, List.length_singleton] at hk
    change b.data (T.hdrSize + k) = _
    rcases Nat.lt_succ_iff_lt_or_eq.mp hk with hkc | rfl
    · rw [List.getD_append _ _ _ _ hkc, h.content k hkc]
    · rw [List.getD_append_right _ _ _ _ (Nat.le_refl _), Nat.sub_self]
      rfl

/-- The block `moveString` has written when it returns: `f` is the copied string. -/
def movedBlock (T : SdsType) (len alloc : Nat) (f junk : Nat → UInt8) : Block :=
  T.withAlloc alloc (T.withLen len
    (((⟨T.hdrSize + alloc + 1, junk⟩ : Block).patch T.hdrSize (len + 1) f).patch (T.hdrSize - 1) 1
      fun _ => UInt8.ofNat T.code))

/-- The flags byte written by `moveString` names the new type. -/
theorem tagged_patch_code {T : SdsType} {b : Block} (h : T.hdrSize ≤ b.size) :
    Tagged T (b.patch (T.hdrSize - 1) 1 fun _ => UInt8.ofNat T.code) where
  tag := by
    have hd := @Block.patch_data_add b (T.hdrSize - 1) 1 0 (fun _ => UInt8.ofNat T.code) (by omega)
    rw [Nat.add_zero] at hd
    have hcode : (UInt8.ofNat T.code).toNat = T.code := by
      rw [UInt8.toNat_ofNat']
      exact Nat.mod_eq_of_lt T.code_lt
    rw [hd, hcode, SdsType.ofFlags_code]
  fits := h

/-- The header is written in front of the copy. -/
theorem movedBlock_data {T : SdsType} {len alloc k : Nat} (f junk : Nat → UInt8) (hk : k ≤ len) :
    (movedBlock T len alloc f junk).data (T.hdrSize + k) = f k := by
  have hpos := T.hdrSize_pos
  rw [movedBlock, SdsType.withAlloc_data _ (by omega), SdsType.withLen_data _ (by omega),
    Block.patch_data_of_ge (by omega), Block.patch_data_add (by omega)]

theorem movedBlock_open {T : SdsType} {c : List UInt8} {alloc : Nat} {f junk : Nat → UInt8}
    (hle : c.length ≤ alloc) (hlim : alloc < T.limit) (hfit : FitsSize T alloc)
    (h5 : T = .type5 → alloc = c.length) (hf : ∀ k, k < c.length → f k = c.getD k 0) :
    OpenBlock T c alloc (movedBlock T c.length alloc f junk) := by
  have hlen : c.length < T.limit := Nat.lt_of_le_of_lt hle hlim
  have htag := tagged_patch_code (T := T)
    (b := (⟨T.hdrSize + alloc + 1, junk⟩ : Block).patch T.hdrSize (c.length + 1) f)
    (by simp only [Block.patch_size]; omega)
  have hsize : (movedBlock T c.length alloc f junk).size = T.hdrSize + alloc + 1 := by
    simp only [movedBlock, SdsType.withAlloc_size, SdsType.withLen_size, Block.patch_size]
  have hlenIn : T.lenIn (movedBlock T c.length alloc f junk) = c.length := by
    rw [movedBlock, SdsType.lenIn_withAlloc, SdsType.lenIn_withLen _ hlen]
  refine
    { tagged := (htag.withLen hlen).withAlloc alloc
      len := hlenIn
      alloc := ?_
      len_le := hle
      room := by omega
      size_lt := by rw [hsize]; exact hfit
      content := fun k hk => by rw [movedBlock_data f junk hk.le, hf k hk] }
  -- type 5 has no capacity field: its capacity is the length
  rcases eq_or_ne T .type5 with rfl | hne
  · rw [SdsType.allocIn_type5, hlenIn, h5 rfl]
  · exact SdsType.allocIn_withAlloc _ hne hlim

section Move

variable {al : Allocator} {m : Mem} {i : Nat} {b : Block} {T T' : SdsType} {c : List UInt8}
  {cap alloc : Nat}

theorem moveString_run_refused (h : al m.requests.length = none) (len : Nat) :
    (moveString al ⟨some i, 0⟩ (handle i T) T' len alloc).run m =
      .ok (Ptr.null, m.refuse (sizeT (T'.hdrSize + alloc + 1))) := by
  rw [moveString, run_bind_of_ok (malloc_run_refused h), if_pos rfl]
  rfl

/-- The number of bytes copied does not wrap. -/
theorem OpenBlock.sizeT_len (h : OpenBlock T c cap b) (x : UInt8) :
    sizeT (c.length + 1) = (c ++ [x]).length := by
  have hroom := h.room
  have hle := h.len_le
  have hlt := h.size_lt
  rw [List.length_append, List.length_singleton]
  exact Nat.mod_eq_of_lt (by omega)

/-- A new block too small for the string is overrun. -/
theorem moveString_run_short (hb : m.blocks i = some b) (hs : OpenBlock T c cap b)
    (hfit : FitsSize T' alloc) (hshort : alloc < c.length) {junk : Nat → UInt8}
    (h : al m.requests.length = some junk) :
    (moveString al ⟨some i, 0⟩ (handle i T) T' c.length alloc).run m = .error .undefined := by
  have hsrc := (hs.holds (Mem.grant_blocks_of_some hb ⟨T'.hdrSize + alloc + 1, junk⟩))
  obtain ⟨f, hf, -⟩ := Source.read_run hsrc
  have hav := avoids_handle T (Nat.ne_of_lt (Mem.lt_next hb))
  have hout := writeAt_run_outside (o := 0 + T'.hdrSize)
    (n := (c ++ [b.data (T.hdrSize + c.length)]).length)
    (Mem.grant_blocks_next m ⟨T'.hdrSize + alloc + 1, junk⟩)
    (by rw [List.length_append, List.length_singleton]; show T'.hdrSize + alloc + 1 < _; omega) f
  rw [moveString, hfit.sizeT_eq, run_bind_of_ok (malloc_run_granted h),
    if_neg (Ptr.mk_ne_null _ _), hs.sizeT_len (b.data (T.hdrSize + c.length))]
  refine run_bind_of_error ?_ _
  rw [memcpy, Ptr.add_mk, Source.overlaps_of_avoids hav]
  show StateT.run (_ >>= _) _ = _
  rw [run_bind_of_ok hf]
  exact hout

theorem moveString_run_open (al : Allocator) (hb : m.blocks i = some b) (hs : OpenBlock T c cap b)
    (hle : c.length ≤ alloc) (hlim : alloc < T'.limit) (hfit : FitsSize T' alloc)
    (h5 : T' = .type5 → alloc = c.length) {junk : Nat → UInt8}
    (h : al m.requests.length = some junk) :
    ∃ m' b', (moveString al ⟨some i, 0⟩ (handle i T) T' c.length alloc).run m =
        .ok (handle m.next T', m') ∧
      m'.blocks m.next = some b' ∧ b'.size = T'.hdrSize + alloc + 1 ∧
      OpenBlock T' c alloc b' ∧
      b'.data (T'.hdrSize + c.length) = b.data (T.hdrSize + c.length) ∧ Mem.Moved m m' i m.next := by
  set x := b.data (T.hdrSize + c.length) with hx
  have hlt := Mem.lt_next hb
  have hin : m.next ≠ i := by omega
  have hpos := T'.hdrSize_pos
  have hlen : c.length < T'.limit := Nat.lt_of_le_of_lt hle hlim
  -- the copy
  have hsrc : (Source.mem (handle i T)).Holds _ (c ++ [x]) :=
    hs.holds (Mem.grant_blocks_of_some hb ⟨T'.hdrSize + alloc + 1, junk⟩)
  have hav := avoids_handle T hin.symm
  obtain ⟨f, hcpy, hf⟩ := memcpy_run (o := T'.hdrSize)
    (Mem.grant_blocks_next m ⟨T'.hdrSize + alloc + 1, junk⟩)
    (by rw [List.length_append, List.length_singleton]; show _ ≤ T'.hdrSize + alloc + 1; omega)
    hsrc hav
  have hlen1 : (c ++ [x]).length = c.length + 1 := by simp
  -- the old block is given back
  have hold : ((m.grant ⟨T'.hdrSize + alloc + 1, junk⟩).mapBlock m.next fun b =>
      b.patch T'.hdrSize (c ++ [x]).length f).blocks i = some b := by
    rw [Mem.mapBlock_blocks_of_ne hin.symm]
    exact Mem.grant_blocks_of_some hb _
  have hfree := free_run hold
  -- the header of the new one is written
  have hnew : (((m.grant ⟨T'.hdrSize + alloc + 1, junk⟩).mapBlock m.next fun b =>
      b.patch T'.hdrSize (c ++ [x]).length f).release i).blocks m.next =
        some ((⟨T'.hdrSize + alloc + 1, junk⟩ : Block).patch T'.hdrSize (c.length + 1) f) := by
    rw [Mem.release_blocks_of_ne hin, Mem.mapBlock_blocks_self (Mem.grant_blocks_next m _), hlen1]
  have hsub := ptrSub_run (n := 1) (o := T'.hdrSize) (by omega) (some m.next)
    (((m.grant ⟨T'.hdrSize + alloc + 1, junk⟩).mapBlock m.next fun b =>
      b.patch T'.hdrSize (c ++ [x]).length f).release i)
  have hst := store8_run (o := T'.hdrSize - 1) hnew (by show _ < T'.hdrSize + alloc + 1; omega)
    (UInt8.ofNat T'.code)
  have htag := tagged_patch_code (T := T')
    (b := (⟨T'.hdrSize + alloc + 1, junk⟩ : Block).patch T'.hdrSize (c.length + 1) f)
    (by simp only [Block.patch_size]; omega)
  have hb4 := Mem.mapBlock_blocks_self hnew fun b =>
    b.patch (T'.hdrSize - 1) 1 fun _ => UInt8.ofNat T'.code
  have hsetlen := sdssetlen_run hb4 htag c.length
  have hb5 := Mem.mapBlock_blocks_self hb4 (T'.withLen c.length)
  have hsetalloc := sdssetalloc_run hb5 (htag.withLen hlen) alloc
  have hb6 := Mem.mapBlock_blocks_self hb5 (T'.withAlloc alloc)
  have hdata : ∀ k, k < c.length → f k = c.getD k 0 := fun k hk => by
    rw [hf k (by omega), List.getD_append _ _ _ _ hk]
  have hlast : f c.length = x := by
    rw [hf _ (by omega), List.getD_append_right _ _ _ _ (Nat.le_refl _), Nat.sub_self]
    rfl
  refine ⟨_, _, ?_, hb6, ?_, movedBlock_open hle hlim hfit h5 hdata,
    (movedBlock_data f junk (Nat.le_refl _)).trans hlast, ?_⟩
  · rw [moveString, hfit.sizeT_eq, run_bind_of_ok (malloc_run_granted h),
      if_neg (Ptr.mk_ne_null _ _), hs.sizeT_len x, add_hdrSize]
    apply (run_bind_of_ok hcpy _).trans
    apply (run_bind_of_ok hfree _).trans
    apply (run_bind_of_ok hsub _).trans
    apply (run_bind_of_ok hst _).trans
    apply (run_bind_of_ok hsetlen _).trans
    exact run_bind_of_ok hsetalloc _
  · simp only [SdsType.withAlloc_size, SdsType.withLen_size, Block.patch_size]
  · refine Mem.Moved.mapBlock (Mem.Moved.mapBlock (Mem.Moved.mapBlock ?_ _) _) _
    refine ⟨?_, Nat.le_succ _, Or.inr (Nat.le_refl _), fun _ => Mem.release_blocks_self _ _⟩
    intro k hk hkn
    rw [Mem.release_blocks_of_ne hk, Mem.mapBlock_blocks_of_ne (by omega),
      Mem.grant_blocks_of_ne (by omega)]

theorem moveString_run_granted (al : Allocator) (hb : m.blocks i = some b) (hs : SdsBlock T c cap b)
    (hle : c.length ≤ alloc) (hlim : alloc < T'.limit) (hfit : FitsSize T' alloc)
    (h5 : T' = .type5 → alloc = c.length) {junk : Nat → UInt8}
    (h : al m.requests.length = some junk) :
    ∃ m' b', (moveString al ⟨some i, 0⟩ (handle i T) T' c.length alloc).run m =
        .ok (handle m.next T', m') ∧
      m'.blocks m.next = some b' ∧ b'.size = T'.hdrSize + alloc + 1 ∧
      SdsBlock T' c alloc b' ∧ Mem.Moved m m' i m.next := by
  obtain ⟨m', b', hrun, hb', hsize, ho, hterm, hmoved⟩ :=
    moveString_run_open al hb hs.opened hle hlim hfit h5 h
  exact ⟨m', b', hrun, hb', hsize, ho.closed (by rw [hterm, hs.term]), hmoved⟩

end Move

/-! ## The two functions -/

section Functions

variable {al : Allocator} {m : Mem} {i : Nat} {b : Block} {T : SdsType} {c : List UInt8}
  {cap : Nat}

theorem OpenBlock.avail_run (hs : OpenBlock T c cap b) (hb : m.blocks i = some b) :
    (sdsavail (handle i T)).run m = .ok (cap - c.length, m) := by
  have h := sdsavail_run hb hs.tagged (by rw [hs.len, hs.alloc]; exact hs.len_le)
  rwa [hs.len, hs.alloc] at h

theorem OpenBlock.len_run (hs : OpenBlock T c cap b) (hb : m.blocks i = some b) :
    (sdslen (handle i T)).run m = .ok (c.length, m) := by
  rw [sdslen_run hb hs.tagged, hs.len]

theorem SdsBlock.len_run (hs : SdsBlock T c cap b) (hb : m.blocks i = some b) :
    (sdslen (handle i T)).run m = .ok (c.length, m) :=
  hs.opened.len_run hb

theorem SdsBlock.alloc_run (hs : SdsBlock T c cap b) (hb : m.blocks i = some b) :
    (sdsalloc (handle i T)).run m = .ok (cap, m) := by
  rw [sdsalloc_run hb hs.tagged, hs.alloc]

theorem sdsMakeRoomFor_run_enough (al : Allocator) {addlen : Nat} (hb : m.blocks i = some b)
    (hs : OpenBlock T c cap b) (h : addlen ≤ cap - c.length) :
    (sdsMakeRoomFor al (handle i T) addlen).run m = .ok (handle i T, m) := by
  rw [sdsMakeRoomFor, run_bind_of_ok (hs.avail_run hb),
    run_bind_of_ok (flagsOf_run hb hs.tagged.fits)]
  show StateT.run (ite _ _ _) m = _
  rw [if_pos h]
  rfl

theorem sdsMakeRoomFor_run_short {addlen : Nat} (hb : m.blocks i = some b)
    (hs : OpenBlock T c cap b) (h : cap - c.length < addlen) :
    (sdsMakeRoomFor al (handle i T) addlen).run m =
      if sizeT ((growType (sizeT (prealloc (sizeT (c.length + addlen))))).hdrSize +
          sizeT (prealloc (sizeT (c.length + addlen))) + 1) ≤ sizeT (c.length + addlen)
      then .error .abort
      else if T = growType (sizeT (prealloc (sizeT (c.length + addlen))))
      then (growInPlace al ⟨some i, 0⟩ T (sizeT (prealloc (sizeT (c.length + addlen))))).run m
      else (moveString al ⟨some i, 0⟩ (handle i T)
        (growType (sizeT (prealloc (sizeT (c.length + addlen))))) c.length
        (sizeT (prealloc (sizeT (c.length + addlen))))).run m := by
  have hsub := SDS_HDR_run m i T
  rw [sdsMakeRoomFor, run_bind_of_ok (hs.avail_run hb),
    run_bind_of_ok (flagsOf_run hb hs.tagged.fits), hs.tagged.tag]
  show StateT.run (ite _ _ _) m = _
  rw [if_neg (Nat.not_le.mpr h)]
  apply (run_bind_of_ok (hs.len_run hb) _).trans
  apply (run_bind_of_ok hsub _).trans
  show StateT.run (ite _ _ _) m = _
  generalize sizeT (prealloc (sizeT (c.length + addlen))) = newlen
  -- the assertion, then the comparison of the two header types
  by_cases habort : sizeT ((growType newlen).hdrSize + newlen + 1) ≤ sizeT (c.length + addlen)
  · rw [if_pos habort, if_pos habort]
    rfl
  · rw [if_neg habort, if_neg habort]
    show StateT.run (ite _ _ _) m = _
    by_cases hT : T = growType newlen
    · rw [if_pos (congrArg some hT), if_pos hT, ← hT]
    · rw [if_neg (fun he => hT (Option.some.inj he)), if_neg hT]

/-- A capacity that does not fit in `size_t` fails the assertion. -/
theorem sdsMakeRoomFor_run_abort {addlen : Nat} (hb : m.blocks i = some b)
    (hs : OpenBlock T c cap b) (h : cap - c.length < addlen)
    (hfit : ¬ FitsSize (growType (prealloc (sizeT (c.length + addlen))))
      (prealloc (sizeT (c.length + addlen)))) :
    (sdsMakeRoomFor al (handle i T) addlen).run m = .error .abort := by
  have habort := not_not.mp (mt (not_abort_iff (sizeT_lt (c.length + addlen))).mp hfit)
  rw [sdsMakeRoomFor_run_short hb hs h, if_pos habort]

/-- One that fits is asked for, with or without a change of the header type. -/
theorem sdsMakeRoomFor_run_grow (al : Allocator) {addlen : Nat} (hb : m.blocks i = some b)
    (hs : OpenBlock T c cap b) (h : cap - c.length < addlen)
    (hfit : FitsSize (growType (prealloc (sizeT (c.length + addlen))))
      (prealloc (sizeT (c.length + addlen)))) :
    (sdsMakeRoomFor al (handle i T) addlen).run m =
      if T = growType (prealloc (sizeT (c.length + addlen)))
      then (growInPlace al ⟨some i, 0⟩ T (prealloc (sizeT (c.length + addlen)))).run m
      else (moveString al ⟨some i, 0⟩ (handle i T)
        (growType (prealloc (sizeT (c.length + addlen)))) c.length
        (prealloc (sizeT (c.length + addlen)))).run m := by
  have hpass := (not_abort_iff (sizeT_lt (c.length + addlen))).mpr hfit
  have hnew : sizeT (prealloc (sizeT (c.length + addlen))) =
      prealloc (sizeT (c.length + addlen)) := Nat.mod_eq_of_lt hfit.lt
  rw [hnew] at hpass
  rw [sdsMakeRoomFor_run_short hb hs h, hnew, if_neg hpass]

theorem sdsRemoveFreeSpace_run_full (hb : m.blocks i = some b) (hs : SdsBlock T c cap b)
    (h : cap = c.length) :
    (sdsRemoveFreeSpace al (handle i T)).run m = .ok (handle i T, m) := by
  rw [sdsRemoveFreeSpace, run_bind_of_ok (flagsOf_run hb hs.tagged.fits), hs.tagged.tag]
  apply (run_bind_of_ok (hs.len_run hb) _).trans
  apply (run_bind_of_ok (hs.opened.avail_run hb) _).trans
  apply (run_bind_of_ok (SDS_HDR_run m i T) _).trans
  rw [h, Nat.sub_self, if_pos rfl]
  rfl

theorem sdsRemoveFreeSpace_run_spare (al : Allocator) (hb : m.blocks i = some b)
    (hs : SdsBlock T c cap b) (h : c.length < cap) :
    (sdsRemoveFreeSpace al (handle i T)).run m =
      if T = sdsReqType c.length ∨ (sdsReqType c.length).code > SdsType.type8.code
      then (shrinkInPlace al ⟨some i, 0⟩ T.hdrSize c.length).run m
      else (moveString al ⟨some i, 0⟩ (handle i T) (sdsReqType c.length) c.length
        c.length).run m := by
  rw [sdsRemoveFreeSpace, run_bind_of_ok (flagsOf_run hb hs.tagged.fits), hs.tagged.tag]
  apply (run_bind_of_ok (hs.len_run hb) _).trans
  apply (run_bind_of_ok (hs.opened.avail_run hb) _).trans
  apply (run_bind_of_ok (SDS_HDR_run m i T) _).trans
  rw [if_neg (by omega)]
  show StateT.run (ite _ _ _) m = _
  rw [run_ite]
  congr 1
  exact propext (or_congr (by rw [Option.some.injEq]) Iff.rfl)

end Functions

end CLanguageLearning.Sds
