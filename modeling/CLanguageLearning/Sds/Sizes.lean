import CLanguageLearning.Sds.Runs

/-!
# Sums of sizes

`sdsnewlen` computes the size of its block without a check, and the assertion of `sdsMakeRoomFor`
compares the size of the block with a required length that may itself have wrapped. Both are sound
as long as the sums stay in `size_t`; this module says exactly when they are (`sizes_sound_iff`).
-/

set_option autoImplicit false

namespace CLanguageLearning.Sds

open CLanguageLearning.Foundation

/-- What `sdsnewlen` can read where `init` points to. -/
def Init.Readable (m : Mem) (n : Nat) : Init → Prop
  | .src t => ∃ l : List UInt8, l.length = n ∧ t.Holds m l
  | _ => True

/-- `NULL`, or a string in a block with room for header, recorded capacity and terminator, and with
a capacity of at least `need`. -/
def SoundString (m : Mem) (s : Ptr) (need : SdsType → Block → Nat) : Prop :=
  s = Ptr.null ∨ ∃ j T b, s = handle j T ∧ m.blocks j = some b ∧ Tagged T b ∧
    T.hdrSize + T.allocIn b + 1 ≤ b.size ∧ need T b ≤ T.allocIn b

/-- Whatever memory it is granted, `sdsnewlen` returns a string with capacity for `n` bytes. -/
def NewSound (m : Mem) (init : Init) (n : Nat) : Prop :=
  ∀ al : Allocator, al m.requests.length ≠ none →
    ∃ s m', (sdsnewlen al init n).run m = .ok (s, m') ∧ SoundString m' s fun _ _ => n

/-- Whatever memory it is granted, `sdsMakeRoomFor` fails its assertion or returns a string with
room for `n` bytes more. -/
def RoomSound (m : Mem) (i : Nat) (v : Value) (n : Nat) : Prop :=
  ∀ al : Allocator, al m.requests.length ≠ none →
    (sdsMakeRoomFor al (handle i v.type) n).run m = .error .abort ∨
    ∃ s m', (sdsMakeRoomFor al (handle i v.type) n).run m = .ok (s, m') ∧
      SoundString m' s fun T b => T.lenIn b + n

/-- The length asked for stays in `size_t`; or it wraps to one so large that the block for it would
wrap as well, which the assertion notices; or it wraps to 0 in a string of type 8, for which `NULL`
is returned. -/
def RoomChecked (v : Value) (n : Nat) : Prop :=
  v.content.length + n < SIZE_COUNT ∨
  SIZE_COUNT ≤ sizeT (v.content.length + n) + SDS_MAX_PREALLOC + 18 ∨
  (sizeT (v.content.length + n) = 0 ∧ v.type = .type8)

/-- The block for a length does not fit in `size_t` when the length comes close to the limit: the
growth is the largest one, and so is the header. -/
theorem not_fits_prealloc {w : Nat} :
    ¬ FitsSize (growType (prealloc w)) (prealloc w) ↔ SIZE_COUNT ≤ w + SDS_MAX_PREALLOC + 18 := by
  have hhdr := (growType (prealloc w)).hdrSize_le
  by_cases hsmall : w < SDS_MAX_PREALLOC
  · have hpre : prealloc w = w * 2 := if_pos hsmall
    unfold FitsSize
    rw [hpre] at hhdr ⊢
    unfold SDS_MAX_PREALLOC SIZE_COUNT at *
    omega
  · have hpre : prealloc w = w + SDS_MAX_PREALLOC := if_neg hsmall
    constructor
    · intro h
      unfold FitsSize at h
      rw [hpre] at h hhdr
      omega
    · intro h hfit
      have hlim := lt_limit_growType hfit.lt
      unfold FitsSize at hfit
      rw [hpre] at hfit hlim
      -- only the largest type has a limit above such a capacity
      generalize growType (w + SDS_MAX_PREALLOC) = T at hfit hlim
      cases T <;> simp only [SdsType.limit, SdsType.hdrSize] at hfit hlim <;>
        unfold SIZE_COUNT at * <;> omega

section Sizes

variable {m : Mem} {i : Nat} {v : Value} {n : Nat} {T : SdsType} {c : List UInt8} {cap : Nat}

/-- The size of the header tells the type. -/
theorem hdrSize_inj {T' : SdsType} (h : T.hdrSize = T'.hdrSize) : T = T' := by
  cases T <;> cases T' <;> first | rfl | (exact absurd h (by decide))

theorem SoundString.of_sds {need : SdsType → Block → Nat} {b : Block} (hb : m.blocks i = some b)
    (hs : SdsBlock T c cap b) (hneed : need T b ≤ cap) : SoundString m (handle i T) need := by
  refine Or.inr ⟨i, T, b, rfl, hb, hs.tagged, ?_, ?_⟩
  · rw [hs.alloc]
    exact hs.room
  · rwa [hs.alloc]

/-- What a sound result says about the block it points into. -/
theorem SoundString.need_le {need : SdsType → Block → Nat} {b : Block}
    (h : SoundString m (handle i T) need) (hb : m.blocks i = some b) : need T b ≤ T.allocIn b := by
  rcases h with h | ⟨j, T', b', hs, hb', -, -, hneed⟩
  · exact absurd h (handle_ne_null i T)
  · rw [handle, handle, Ptr.mk.injEq, Option.some.injEq] at hs
    obtain ⟨rfl, hT⟩ := hs
    obtain rfl := hdrSize_inj hT
    cases hb.symm.trans hb'
    exact hneed

/-! ## Room -/

/-- A length that wraps is longer than any string in memory can become. -/
theorem SdsBlock.short_of_wrap {b : Block} (hs : SdsBlock T c cap b)
    (h : SIZE_COUNT ≤ c.length + n) : cap - c.length < n := by
  have hcap := hs.cap_lt
  have hlim := T.limit_le
  have hle := hs.len_le
  omega

theorem roomSound_of_fits (hv : v.At m i) (h : v.content.length + n < SIZE_COUNT) :
    RoomSound m i v n := by
  intro al hal
  obtain ⟨b, hb, hs⟩ := hv
  by_cases hroom : n ≤ v.cap - v.content.length
  · -- the room is there
    refine Or.inr ⟨_, _, sdsMakeRoomFor_run_enough al hb hs.opened hroom, .of_sds hb hs ?_⟩
    have hle := hs.len_le
    rw [hs.len]
    omega
  · have hreq : sizeT (v.content.length + n) = v.content.length + n := Nat.mod_eq_of_lt h
    by_cases hfit : FitsSize (growType (prealloc (v.content.length + n)))
        (prealloc (v.content.length + n))
    · have hfits : v.RoomFits n := fun _ => hfit
      have hle := v.le_cap_makeRoom n hs.len_le
      obtain ⟨j, m', hrun, ⟨b', hb', hs'⟩, -⟩ := sdsMakeRoomFor_yields hal ⟨b, hb, hs⟩ hfits
      refine Or.inr ⟨_, m', hrun, .of_sds hb' hs' ?_⟩
      rw [hs'.len, v.makeRoom_content]
      exact hle
    · -- the assertion fails
      refine Or.inl (sdsMakeRoomFor_run_abort hb hs.opened (by omega) ?_)
      rw [hreq]
      exact hfit

/-- The new capacity, when the length asked for has wrapped and the assertion passes, is recorded
in a string of the old length; it is below `SIZE_COUNT` and so below that length plus `n`. -/
theorem not_roomSound (hv : v.At m i) (h : ¬ RoomChecked v n) : ¬ RoomSound m i v n := by
  obtain ⟨b, hb, hs⟩ := hv
  have hroom := hs.room
  have hwrap : SIZE_COUNT ≤ v.content.length + n := by
    by_contra hlt
    exact h (Or.inl (Nat.not_le.mp hlt))
  have hfit : FitsSize (growType (prealloc (sizeT (v.content.length + n))))
      (prealloc (sizeT (v.content.length + n))) := by
    by_contra hn
    exact h (Or.inr (Or.inl (not_fits_prealloc.mp hn)))
  have hshort := hs.short_of_wrap hwrap
  have hnz : sizeT (v.content.length + n) = 0 → v.type ≠ .type8 := fun h0 h8 =>
    h (Or.inr (Or.inr ⟨h0, h8⟩))
  have hlimnew := lt_limit_growType hfit.lt
  have hlt := hfit.lt
  have hrun := sdsMakeRoomFor_run_grow (fun _ => some fun _ => 0) hb hs.opened hshort hfit
  intro hsound
  have hres := hsound (fun _ => some fun _ => 0) (Option.some_ne_none _)
  rw [hrun] at hres
  by_cases hT : v.type = growType (prealloc (sizeT (v.content.length + n)))
  · have h0 : prealloc (sizeT (v.content.length + n)) ≠ 0 := by
      intro h0
      have hreq := prealloc_eq_zero.mp h0
      rw [hreq] at hT
      exact hnz hreq hT
    rw [if_pos hT] at hres
    rw [← hT] at hfit hlimnew
    rw [growInPlace_run_granted hb hs.tagged h0 hfit rfl] at hres
    rcases hres with hres | ⟨s, m', hres, hs'⟩
    · cases hres
    · cases hres
      have hneed := hs'.need_le (reallocated_blocks_next hb _ _)
      have h5 : v.type ≠ .type5 := by
        rw [hT]
        exact growType_ne_type5 _
      rw [SdsType.lenIn_withAlloc, lenIn_resize hs.tagged.fits (by omega), hs.len,
        SdsType.allocIn_withAlloc _ h5 hlimnew] at hneed
      omega
  · rw [if_neg hT] at hres
    by_cases hlen : v.content.length ≤ prealloc (sizeT (v.content.length + n))
    · -- the string is moved to a block of the new capacity
      obtain ⟨m', b', hmove, hb', -, hs', -⟩ := moveString_run_granted
        (fun _ => some fun _ => 0) hb hs hlen hlimnew hfit
        (fun h5 => absurd h5 (growType_ne_type5 _)) rfl
      rw [hmove] at hres
      rcases hres with hres | ⟨s, m'', hres, hsound'⟩
      · cases hres
      · cases hres
        have hneed := hsound'.need_le hb'
        rw [hs'.len, hs'.alloc] at hneed
        omega
    · -- the copy overruns the new block
      rw [moveString_run_short hb hs.opened hfit (by omega) rfl] at hres
      rcases hres with hres | ⟨s, m', hres, -⟩ <;> cases hres

theorem roomSound_of_checked (hv : v.At m i) (h : RoomChecked v n) : RoomSound m i v n := by
  by_cases hwrap : v.content.length + n < SIZE_COUNT
  · exact roomSound_of_fits hv hwrap
  · obtain ⟨b, hb, hs⟩ := hv
    have hshort := hs.short_of_wrap (not_lt.mp hwrap)
    intro al hal
    rcases h with h | h | ⟨h0, h8⟩
    · exact absurd h hwrap
    · -- the block would wrap as well, which the assertion notices
      exact Or.inl (sdsMakeRoomFor_run_abort hb hs.opened hshort (not_fits_prealloc.mpr h))
    · -- the length wraps to 0, for which `NULL` is returned in a string of type 8
      obtain ⟨junk, hjunk⟩ := Option.ne_none_iff_exists'.mp hal
      have hgrow : growType (prealloc 0) = .type8 := by decide
      have hfit : FitsSize (growType (prealloc (sizeT (v.content.length + n))))
          (prealloc (sizeT (v.content.length + n))) := by
        rw [h0]
        decide
      obtain ⟨m', hrun⟩ := growInPlace_run_zero_granted (T := v.type) hb hjunk
      refine Or.inr ⟨Ptr.null, m', ?_, Or.inl rfl⟩
      rw [sdsMakeRoomFor_run_grow al hb hs.opened hshort hfit, h0, hgrow, if_pos h8]
      exact hrun

/-! ## New strings -/

theorem newSound_of_fits {init : Init} (hinit : init.Readable m n) (h : FitsSize (newType n) n) :
    NewSound m init n := by
  intro al hal
  cases init with
  | src t =>
      obtain ⟨l, rfl, ht⟩ := hinit
      obtain ⟨j, m', hrun, ⟨b, hb, hs⟩, -⟩ := sdsnewlen_yields hal ht h
      exact ⟨_, m', hrun, .of_sds hb hs (Nat.le_refl _)⟩
  | null =>
      obtain ⟨l, rfl, -, j, m', hrun, ⟨b, hb, hs⟩, -⟩ :=
        sdsnewlen_yields_blank .null hal (fun t ht => by cases ht) h
      exact ⟨_, m', hrun, .of_sds hb hs (Nat.le_refl _)⟩
  | SDS_NOINIT =>
      obtain ⟨l, rfl, -, j, m', hrun, ⟨b, hb, hs⟩, -⟩ :=
        sdsnewlen_yields_blank .SDS_NOINIT hal (fun t ht => by cases ht) h
      exact ⟨_, m', hrun, .of_sds hb hs (Nat.le_refl _)⟩

theorem writeAt_keeps_sizes (p : Ptr) (k : Nat) (f : Nat → UInt8) :
    Keeps Mem.sizes (writeAt p k f) :=
  writeAt_keeps sizes_mapBlock_patch p k f

theorem initHeader_keeps_sizes (T : SdsType) (s : Ptr) (n : Nat) :
    Keeps Mem.sizes (initHeader T s n) := by
  refine (ptrSub_keeps _ s 1).bind fun fp => ?_
  split
  · exact writeAt_keeps_sizes _ _ _
  · refine (ptrSub_keeps _ s _).bind fun sh => ?_
    refine (writeAt_keeps_sizes _ _ _).bind fun _ => ?_
    exact (writeAt_keeps_sizes _ _ _).bind fun _ => writeAt_keeps_sizes _ _ _

theorem zeroInit_keeps_sizes (init : Init) (sh : Ptr) (n : Nat) :
    Keeps Mem.sizes (zeroInit init sh n) := by
  cases init with
  | null => exact writeAt_keeps_sizes _ _ _
  | _ => exact Keeps.pure _

theorem copyInit_keeps_sizes (init : Init) (s : Ptr) (n : Nat) :
    Keeps Mem.sizes (copyInit init s n) := by
  cases init with
  | src t => exact Keeps.ite (memcpy_keeps sizes_mapBlock_patch s t n) (Keeps.pure _)
  | _ => exact Keeps.pure _

/-- A block of the size of a wrapped sum is not larger than the header, and the terminator is
written behind it. -/
theorem not_newSound {init : Init} (h : ¬ FitsSize (newType n) n) :
    ¬ NewSound m init n := by
  intro hsound
  have hhdr := (newType n).hdrSize_le
  have hsize : sizeT ((newType n).hdrSize + n + 1) < (newType n).hdrSize + n + 1 := by
    unfold FitsSize at h
    unfold sizeT SIZE_COUNT at *
    omega
  obtain ⟨s, m', hrun, -⟩ := hsound (fun _ => some fun _ => 0) (Option.some_ne_none _)
  rw [sdsnewlen] at hrun
  replace hrun := (run_bind_of_ok (malloc_run_granted rfl) _).symm.trans hrun
  dsimp only at hrun
  rw [if_neg (Ptr.mk_ne_null _ _), add_hdrSize] at hrun
  -- each part that returns keeps the sizes
  obtain ⟨_, m1, hzero, hrun⟩ := run_bind_eq_ok hrun
  obtain ⟨_, m2, hinit, hrun⟩ := run_bind_eq_ok hrun
  obtain ⟨_, m3, hcopy, hrun⟩ := run_bind_eq_ok hrun
  have hsizes : m3.sizes m.next = some (sizeT ((newType n).hdrSize + n + 1)) := by
    rw [copyInit_keeps_sizes _ _ _ _ _ _ hcopy, initHeader_keeps_sizes _ _ _ _ _ _ hinit,
      zeroInit_keeps_sizes _ _ _ _ _ _ hzero, Mem.sizes, Mem.grant_blocks_next, Option.map_some]
  obtain ⟨b, hb, hbsize⟩ := Option.map_eq_some_iff.mp hsizes
  have hout := writeAt_run_outside (o := (newType n).hdrSize + n) (n := 1) hb (by omega) fun _ => 0
  replace hrun := (run_bind_of_error hout _).symm.trans hrun
  cases hrun

end Sizes

/-- Sizes are sound exactly while the block of a new string fits in `size_t`, and for
`sdsMakeRoomFor` in the cases of `RoomChecked`. -/
theorem sizes_sound_iff (m m' : Mem) (init : Init) (initlen addlen i : Nat) (v : Value)
    (hinit : init.Readable m initlen) (hv : v.At m' i) :
    (NewSound m init initlen ↔ FitsSize (newType initlen) initlen) ∧
      (RoomSound m' i v addlen ↔ RoomChecked v addlen) := by
  refine ⟨⟨?_, newSound_of_fits hinit⟩, ⟨?_, roomSound_of_checked hv⟩⟩
  · intro h
    by_contra hfit
    exact not_newSound hfit h
  · intro h
    by_contra hc
    exact not_roomSound hv hc h

/-- The string `"abc"` in a type 8 header. -/
def abcMem : Mem := Mem.empty.grant ⟨7, ([3, 3, 1, 97, 98, 99, 0].getD · 0)⟩

theorem abc_at : (⟨.type8, [97, 98, 99], 3⟩ : Value).At abcMem 0 :=
  ⟨_, Mem.grant_blocks_next Mem.empty _,
    { tagged := ⟨by decide, by decide⟩, len := by decide, alloc := by decide, len_le := by decide,
      room := by decide, size_lt := by decide, content := by decide, term := by decide }⟩

/-- The equivalences at one length and one string. -/
theorem sizes_sound_iff_abc :
    (NewSound abcMem .null 5 ↔ FitsSize (newType 5) 5) ∧
      (RoomSound abcMem 0 ⟨.type8, [97, 98, 99], 3⟩ 40 ↔
        RoomChecked ⟨.type8, [97, 98, 99], 3⟩ 40) :=
  sizes_sound_iff abcMem abcMem .null 5 40 0 _ trivial abc_at

/-- The block asked for by `sdsnewlen(SDS_NOINIT, SIZE_MAX)` has the size of the header, and room
for `SIZE_MAX` more bytes in `"abc"` is a capacity of 4. -/
theorem sizes_wrap :
    sizeT ((newType (2 ^ 64 - 1)).hdrSize + (2 ^ 64 - 1) + 1) = 17 ∧
      ¬ NewSound abcMem .SDS_NOINIT (2 ^ 64 - 1) ∧
      sizeT (prealloc (sizeT (3 + (2 ^ 64 - 1)))) = 4 ∧
      ¬ RoomSound abcMem 0 ⟨.type8, [97, 98, 99], 3⟩ (2 ^ 64 - 1) := by
  have hnew : ¬ FitsSize (newType (2 ^ 64 - 1)) (2 ^ 64 - 1) := by decide
  have hroom : ¬ RoomChecked ⟨.type8, [97, 98, 99], 3⟩ (2 ^ 64 - 1) := by
    unfold RoomChecked
    decide
  exact ⟨by decide, not_newSound hnew, by decide, not_roomSound abc_at hroom⟩

end CLanguageLearning.Sds
