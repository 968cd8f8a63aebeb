import CLanguageLearning.Sds.Runs

/-!
# Refused requests

What becomes of a string when the allocator refuses a request. `sdsMakeRoomFor`,
`sdsRemoveFreeSpace` and the operations built on them are meant to return `NULL` and leave the
string as it is. Where the header changes its type the refusal is noticed; where a growing string
keeps its type, `sdsMakeRoomFor` tests the new length instead of the pointer it got and writes the
capacity through the null pointer (`failsCleanly_iff`).
-/

set_option autoImplicit false

namespace CLanguageLearning.Sds

open CLanguageLearning.Foundation

/-! ## Growth -/

/-- Making room for `n` bytes grows the string in its header type: the room is not there, the length
asked for is not 0 after wrapping, and the new capacity fits in `size_t` and needs the type the
string has. -/
def Value.GrowsInPlace (v : Value) (n : Nat) : Prop :=
  v.cap - v.content.length < n ∧ sizeT (v.content.length + n) ≠ 0 ∧
    FitsSize v.type (prealloc (sizeT (v.content.length + n))) ∧
    v.type = growType (prealloc (sizeT (v.content.length + n)))

instance (v : Value) (n : Nat) : Decidable (v.GrowsInPlace n) := by
  unfold Value.GrowsInPlace
  infer_instance

section Growth

variable {m : Mem} {i : Nat} {v : Value}

/-- The ways `sdsMakeRoomFor` can go when its request, if it makes one, is refused. -/
inductive RoomRefused (m : Mem) (i : Nat) (v : Value) (n : Nat) : Prop where
  /-- There is room. -/
  | enough (hg : ¬ v.GrowsInPlace n)
      (h : ∀ al, (sdsMakeRoomFor al (handle i v.type) n).run m = .ok (handle i v.type, m))
  /-- The assertion fails. -/
  | abort (hg : ¬ v.GrowsInPlace n)
      (h : ∀ al, (sdsMakeRoomFor al (handle i v.type) n).run m = .error .abort)
  /-- The refusal is noticed, or never looked at because the new length is 0. -/
  | clean (hg : ¬ v.GrowsInPlace n) (k : Nat)
      (h : ∀ al : Allocator, al m.requests.length = none →
        (sdsMakeRoomFor al (handle i v.type) n).run m = .ok (Ptr.null, m.refuse k))
  /-- The refusal goes unnoticed; had the request been granted, the function would have returned. -/
  | silent (hg : v.GrowsInPlace n)
      (h : ∀ al : Allocator, al m.requests.length = none →
        (sdsMakeRoomFor al (handle i v.type) n).run m = .error .undefined)
      (h' : ∀ (al : Allocator) (junk : Nat → UInt8), al m.requests.length = some junk →
        ∃ j m', (sdsMakeRoomFor al (handle i v.type) n).run m = .ok (handle j v.type, m'))

theorem sdsMakeRoomFor_refused (hv : v.At m i) (n : Nat) : RoomRefused m i v n := by
  obtain ⟨b, hb, hs⟩ := hv
  by_cases hroom : n ≤ v.cap - v.content.length
  · refine .enough (fun hg => ?_) fun al => sdsMakeRoomFor_run_enough al hb hs.opened hroom
    have h1 := hg.1
    omega
  · have hshort : v.cap - v.content.length < n := by omega
    by_cases hfit : FitsSize (growType (prealloc (sizeT (v.content.length + n))))
        (prealloc (sizeT (v.content.length + n)))
    · by_cases hT : v.type = growType (prealloc (sizeT (v.content.length + n)))
      · by_cases h0 : prealloc (sizeT (v.content.length + n)) = 0
        · -- a new length of 0 returns `NULL` in any case
          refine .clean (fun hg => hg.2.1 (prealloc_eq_zero.mp h0))
            (sizeT (v.type.hdrSize + 0 + 1)) fun al hal => ?_
          rw [sdsMakeRoomFor_run_grow al hb hs.opened hshort hfit, if_pos hT, h0]
          exact growInPlace_run_zero_refused hb hal
        · -- the pointer that `s_realloc` returned is used unchecked
          refine .silent ⟨hshort, fun h => h0 (prealloc_eq_zero.mpr h), hT ▸ hfit, hT⟩ ?_ ?_
          · intro al hal
            rw [sdsMakeRoomFor_run_grow al hb hs.opened hshort hfit, if_pos hT]
            exact growInPlace_run_refused hb h0 hal
          · intro al junk hal
            rw [sdsMakeRoomFor_run_grow al hb hs.opened hshort hfit, if_pos hT]
            exact ⟨_, _, growInPlace_run_granted hb hs.tagged h0 (hT ▸ hfit) hal⟩
      · -- `s_malloc` is checked when the header changes
        refine .clean (fun hg => hT hg.2.2.2)
          (sizeT ((growType (prealloc (sizeT (v.content.length + n)))).hdrSize +
            prealloc (sizeT (v.content.length + n)) + 1)) fun al hal => ?_
        rw [sdsMakeRoomFor_run_grow al hb hs.opened hshort hfit, if_neg hT]
        exact moveString_run_refused hal _
    · refine .abort (fun hg => hfit (hg.2.2.2 ▸ hg.2.2.1)) fun al => ?_
      exact sdsMakeRoomFor_run_abort hb hs.opened hshort hfit

end Growth

/-! ## At most one request -/

section Requests

variable {β : Type} (obs : Mem → β)

theorem flagsOf_keeps (s : Ptr) : Keeps obs (flagsOf s) :=
  (ptrSub_keeps obs s 1).bind fun _ => (load8_keeps obs _).bind fun _ => Keeps.pure _

theorem hdrLen_keeps (T : SdsType) (s : Ptr) : Keeps obs (hdrLen T s) :=
  (ptrSub_keeps obs s _).bind fun _ => loadField_keeps obs _ _

theorem hdrAlloc_keeps (T : SdsType) (s : Ptr) : Keeps obs (hdrAlloc T s) :=
  (ptrSub_keeps obs s _).bind fun _ => loadField_keeps obs _ _

theorem sdslen_keeps (s : Ptr) : Keeps obs (sdslen s) := by
  refine (flagsOf_keeps obs s).bind fun flags => ?_
  split
  · exact Keeps.pure _
  · exact hdrLen_keeps obs _ s
  · exact Keeps.pure _

theorem sdsalloc_keeps (s : Ptr) : Keeps obs (sdsalloc s) := by
  refine (flagsOf_keeps obs s).bind fun flags => ?_
  split
  · exact Keeps.pure _
  · exact hdrAlloc_keeps obs _ s
  · exact Keeps.pure _

theorem sdsavail_keeps (s : Ptr) : Keeps obs (sdsavail s) := by
  refine (flagsOf_keeps obs s).bind fun flags => ?_
  split
  · exact Keeps.pure _
  · exact (hdrAlloc_keeps obs _ s).bind fun _ => (hdrLen_keeps obs _ s).bind fun _ => Keeps.pure _
  · exact Keeps.pure _

theorem writeAt_keeps_requests (p : Ptr) (n : Nat) (f : Nat → UInt8) :
    Keeps Mem.requests (writeAt p n f) :=
  writeAt_keeps (fun _ _ _ _ _ => rfl) p n f

theorem sdssetlen_keeps_requests (s : Ptr) (n : Nat) : Keeps Mem.requests (sdssetlen s n) := by
  refine (flagsOf_keeps _ s).bind fun flags => ?_
  split
  · exact (ptrSub_keeps _ s 1).bind fun _ => writeAt_keeps_requests _ _ _
  · exact (ptrSub_keeps _ s _).bind fun _ => writeAt_keeps_requests _ _ _
  · exact Keeps.pure _

theorem sdssetalloc_keeps_requests (s : Ptr) (n : Nat) : Keeps Mem.requests (sdssetalloc s n) := by
  refine (flagsOf_keeps _ s).bind fun flags => ?_
  split
  · exact Keeps.pure _
  · exact (ptrSub_keeps _ s _).bind fun _ => writeAt_keeps_requests _ _ _
  · exact Keeps.pure _

variable (al : Allocator)

theorem growInPlace_one (sh : Ptr) (T : SdsType) (n : Nat) :
    AtMostOneRequest (growInPlace al sh T n) := by
  refine (realloc_one al sh _).andThen fun newsh => Keeps.ite (Keeps.pure _) ?_
  exact (sdssetalloc_keeps_requests _ n).bind fun _ => Keeps.pure _

theorem shrinkInPlace_one (sh : Ptr) (hdrlen n : Nat) :
    AtMostOneRequest (shrinkInPlace al sh hdrlen n) := by
  refine (realloc_one al sh _).andThen fun newsh => Keeps.ite (Keeps.pure _) ?_
  exact (sdssetalloc_keeps_requests _ n).bind fun _ => Keeps.pure _

theorem moveString_one (sh s : Ptr) (T : SdsType) (len alloc : Nat) :
    AtMostOneRequest (moveString al sh s T len alloc) := by
  refine (malloc_one al _).andThen fun newsh => Keeps.ite (Keeps.pure _) ?_
  refine (memcpy_keeps (fun _ _ _ _ _ => rfl) _ _ _).bind fun _ => ?_
  refine (free_keeps_requests sh).bind fun _ => ?_
  refine (ptrSub_keeps _ _ 1).bind fun fp => ?_
  refine (writeAt_keeps_requests fp 1 _).bind fun _ => ?_
  refine (sdssetlen_keeps_requests _ len).bind fun _ => ?_
  exact (sdssetalloc_keeps_requests _ alloc).bind fun _ => Keeps.pure _

theorem sdsMakeRoomFor_one (s : Ptr) (addlen : Nat) :
    AtMostOneRequest (sdsMakeRoomFor al s addlen) := by
  refine .after (sdsavail_keeps _ s) fun avail => .after (flagsOf_keeps _ s) fun flags => ?_
  refine .ite (.of_keeps (Keeps.pure _)) ?_
  refine .after (sdslen_keeps _ s) fun len => .after (ptrSub_keeps _ s _) fun sh => ?_
  refine .ite (.of_keeps (Keeps.throw _)) ?_
  exact .ite (growInPlace_one al sh _ _) (moveString_one al sh s _ _ _)

theorem sdsRemoveFreeSpace_one (s : Ptr) : AtMostOneRequest (sdsRemoveFreeSpace al s) := by
  refine .after (flagsOf_keeps _ s) fun flags => .after (sdslen_keeps _ s) fun len => ?_
  refine .after (sdsavail_keeps _ s) fun avail => .after (ptrSub_keeps _ s _) fun sh => ?_
  refine .ite (.of_keeps (Keeps.pure _)) ?_
  exact .ite (shrinkInPlace_one al sh _ len) (moveString_one al sh s _ len len)

end Requests

/-! ## Operations that allocate -/

namespace Op

/-- The bytes of room an operation asks `sdsMakeRoomFor` for, if it is built on that function. -/
def room (v : Value) : Op → Option Nat
  | catlen _ l => some l.length
  | cpylen _ l => some (l.length - v.content.length)
  | growzero len => some (len - v.content.length)
  | makeRoomFor addlen => some addlen
  | _ => none

/-- The length given to `sdscpylen` is a `size_t`. -/
def LengthFits : Op → Prop
  | cpylen _ l => l.length < SIZE_COUNT
  | _ => True

/-- Operations that grow a string make room and go on, without the allocator, from what that
returns. -/
theorem exec_eq_room {m : Mem} {i : Nat} {v : Value} {n : Nat} {op : Op} (hv : v.At m i)
    (hroom : op.room v = some n) (hargs : op.LengthFits) :
    ∃ rest : Ptr → Exec Mem Ptr, ∀ al, (op.exec al (handle i v.type)).run m =
      (sdsMakeRoomFor al (handle i v.type) n >>= fun s =>
        if s = Ptr.null then return Ptr.null else rest s).run m := by
  obtain ⟨b, hb, hs⟩ := hv
  have hle := hs.len_le
  cases op with
  | catlen t l =>
      cases hroom
      refine ⟨fun s => do
        memcpy (s.add v.content.length) t l.length
        sdssetlen s (sizeT (v.content.length + l.length))
        store8 (s.add (sizeT (v.content.length + l.length))) 0
        return s, fun al => ?_⟩
      exact run_bind_of_ok (hs.len_run hb) _
  | cpylen t l =>
      cases hroom
      refine ⟨fun s => overwrite s t l.length, fun al => ?_⟩
      show (sdscpylen al (handle i v.type) t l.length).run m = _
      rw [sdscpylen, run_bind_of_ok (hs.alloc_run hb)]
      by_cases hcap : v.cap < l.length
      · have hn : sizeT (SIZE_COUNT + l.length - v.content.length) =
            l.length - v.content.length := by
          have hlt : l.length < SIZE_COUNT := hargs
          rw [Nat.add_sub_assoc (by omega), sizeT, Nat.add_mod_left]
          exact Nat.mod_eq_of_lt (by omega)
        rw [if_pos hcap]
        apply (run_bind_of_ok (hs.len_run hb) _).trans
        rw [hn]
      · have henough := sdsMakeRoomFor_run_enough al hb hs.opened
          (by omega : l.length - v.content.length ≤ v.cap - v.content.length)
        rw [if_neg hcap, run_bind_of_ok henough, if_neg (handle_ne_null _ _)]
  | growzero len =>
      cases hroom
      by_cases hlen : len ≤ v.content.length
      · refine ⟨fun s => return s, fun al => ?_⟩
        have henough := sdsMakeRoomFor_run_enough al hb hs.opened
          (by omega : len - v.content.length ≤ v.cap - v.content.length)
        show (sdsgrowzero al (handle i v.type) len).run m = _
        rw [sdsgrowzero, run_bind_of_ok (hs.len_run hb), if_pos hlen, run_bind_of_ok henough,
          if_neg (handle_ne_null _ _)]
      · refine ⟨fun s => do
          memset (s.add v.content.length) 0 (sizeT (len - v.content.length + 1))
          sdssetlen s len
          return s, fun al => ?_⟩
        show (sdsgrowzero al (handle i v.type) len).run m = _
        rw [sdsgrowzero, run_bind_of_ok (hs.len_run hb), if_neg hlen]
  | makeRoomFor addlen =>
      cases hroom
      refine ⟨fun s => return s, fun al => ?_⟩
      have hrest : (fun s : Ptr => if s = Ptr.null then (return Ptr.null : Exec Mem Ptr)
          else return s) = pure := by
        funext s
        split
        · rename_i h
          rw [h]
        · rfl
      rw [hrest, bind_pure]
      rfl
  | _ => cases hroom

/-- The part of an operation that uses the allocator (`exec_eq_room`). -/
def allocatingCall (al : Allocator) (s : Ptr) (v : Value) (op : Op) : Exec Mem Ptr :=
  match op.room v with
  | some n => sdsMakeRoomFor al s n
  | none => op.exec al s

/-- An operation makes a request when its allocating part tells allocators apart. -/
def AsksForMemory (m : Mem) (i : Nat) (v : Value) (op : Op) : Prop :=
  ∃ al al' : Allocator, (op.allocatingCall al (handle i v.type) v).run m ≠
    (op.allocatingCall al' (handle i v.type) v).run m

/-- Whatever the allocator: when the request an operation makes is refused, the operation returns
`NULL` and leaves memory as it is, up to the log of requests. -/
def FailsCleanly (m : Mem) (i : Nat) (v : Value) (op : Op) : Prop :=
  ∀ al : Allocator, al m.requests.length = none → op.AsksForMemory m i v →
    ∃ n, (op.exec al (handle i v.type)).run m = .ok (Ptr.null, m.refuse n)

/-- The operations that may allocate through `sdsMakeRoomFor` and `sdsRemoveFreeSpace`. -/
def Allocates : Op → Prop
  | catlen _ _ => True
  | cpylen _ _ => True
  | growzero _ => True
  | makeRoomFor _ => True
  | removeFreeSpace => True
  | _ => False

theorem failsCleanly_removeFreeSpace {m : Mem} {i : Nat} {v : Value} (hv : v.At m i) :
    Op.FailsCleanly m i v .removeFreeSpace := by
  obtain ⟨b, hb, hs⟩ := hv
  intro al hal hasks
  by_cases hfull : v.cap = v.content.length
  · -- nothing to give back, no request
    obtain ⟨al₁, al₂, hne⟩ := hasks
    refine absurd ?_ hne
    exact (sdsRemoveFreeSpace_run_full hb hs hfull).trans
      (sdsRemoveFreeSpace_run_full hb hs hfull).symm
  · have hle := hs.len_le
    have hrun := sdsRemoveFreeSpace_run_spare al hb hs (by omega)
    by_cases hT : v.type = sdsReqType v.content.length ∨
        (sdsReqType v.content.length).code > SdsType.type8.code
    · rw [if_pos hT, shrinkInPlace_run_refused hb hal] at hrun
      exact ⟨_, hrun⟩
    · rw [if_neg hT, moveString_run_refused hal] at hrun
      exact ⟨_, hrun⟩

/-- An operation makes at most one request, so that the one a refusal can meet is the next one. -/
theorem exec_one (al : Allocator) (s : Ptr) (op : Op) (hop : op.Allocates) :
    AtMostOneRequest (op.exec al s) := by
  have hover : ∀ (p : Ptr) (t : Source) (n : Nat), Keeps Mem.requests (overwrite p t n) := by
    intro p t n
    refine (memcpy_keeps (fun _ _ _ _ _ => rfl) p t n).bind fun _ => ?_
    refine (writeAt_keeps_requests _ 1 _).bind fun _ => ?_
    exact (sdssetlen_keeps_requests p n).bind fun _ => Keeps.pure _
  cases op with
  | catlen t l =>
      refine .after (sdslen_keeps _ s) fun curlen => ?_
      refine (sdsMakeRoomFor_one al s _).andThen fun s' => Keeps.ite (Keeps.pure _) ?_
      refine (memcpy_keeps (fun _ _ _ _ _ => rfl) _ t _).bind fun _ => ?_
      refine (sdssetlen_keeps_requests s' _).bind fun _ => ?_
      exact (writeAt_keeps_requests _ 1 _).bind fun _ => Keeps.pure _
  | cpylen t l =>
      refine .after (sdsalloc_keeps _ s) fun alloc => .ite ?_ (.of_keeps (hover s t _))
      refine .after (sdslen_keeps _ s) fun curlen => ?_
      exact (sdsMakeRoomFor_one al s _).andThen fun s' => Keeps.ite (Keeps.pure _) (hover s' t _)
  | growzero len =>
      refine .after (sdslen_keeps _ s) fun curlen => .ite (.of_keeps (Keeps.pure _)) ?_
      refine (sdsMakeRoomFor_one al s _).andThen fun s' => Keeps.ite (Keeps.pure _) ?_
      refine (writeAt_keeps_requests _ _ _).bind fun _ => ?_
      exact (sdssetlen_keeps_requests s' len).bind fun _ => Keeps.pure _
  | makeRoomFor addlen => exact sdsMakeRoomFor_one al s addlen
  | removeFreeSpace => exact sdsRemoveFreeSpace_one al s
  | _ => exact hop.elim

theorem allocatingCall_of_room {v : Value} {op : Op} {n : Nat} (hn : op.room v = some n)
    (al : Allocator) (s : Ptr) : op.allocatingCall al s v = sdsMakeRoomFor al s n := by
  rw [allocatingCall, hn]

/-- A string that grows in place is lost: a grant would be followed by a return, a refusal is
not. -/
theorem not_failsCleanly {m : Mem} {i : Nat} {v : Value} {op : Op} {n : Nat} (hv : v.At m i)
    (hn : op.room v = some n) (hargs : op.LengthFits) (hg : v.GrowsInPlace n) :
    ¬ op.FailsCleanly m i v := by
  intro hclean
  obtain ⟨rest, hrest⟩ := op.exec_eq_room hv hn hargs
  rcases sdsMakeRoomFor_refused hv n with ⟨hg', -⟩ | ⟨hg', -⟩ | ⟨hg', -⟩ | ⟨-, h, h'⟩
  · exact hg' hg
  · exact hg' hg
  · exact hg' hg
  · have hasks : op.AsksForMemory m i v := by
      refine ⟨fun _ => none, fun _ => some fun _ => 0, ?_⟩
      obtain ⟨j, m', hgrant⟩ := h' (fun _ => some fun _ => 0) _ rfl
      rw [allocatingCall_of_room hn, allocatingCall_of_room hn, h _ rfl, hgrant]
      intro he
      cases he
    obtain ⟨k, hok⟩ := hclean (fun _ => none) rfl hasks
    rw [hrest, run_bind_of_error (h _ rfl)] at hok
    cases hok

theorem failsCleanly_of_room {m : Mem} {i : Nat} {v : Value} {op : Op} {n : Nat} (hv : v.At m i)
    (hn : op.room v = some n) (hargs : op.LengthFits) (hg : ¬ v.GrowsInPlace n) :
    op.FailsCleanly m i v := by
  obtain ⟨rest, hrest⟩ := op.exec_eq_room hv hn hargs
  rintro al hal ⟨al₁, al₂, hne⟩
  rw [allocatingCall_of_room hn, allocatingCall_of_room hn] at hne
  rcases sdsMakeRoomFor_refused hv n with ⟨-, h⟩ | ⟨-, h⟩ | ⟨-, k, h⟩ | ⟨hg', -⟩
  · exact absurd ((h al₁).trans (h al₂).symm) hne
  · exact absurd ((h al₁).trans (h al₂).symm) hne
  · refine ⟨k, ?_⟩
    rw [hrest, run_bind_of_ok (h al hal), if_pos rfl]
    rfl
  · exact absurd hg' hg

/-- A refused request is dealt with as intended exactly when the string does not grow in place. -/
theorem failsCleanly_iff (m : Mem) (i : Nat) (v : Value) (op : Op) (hv : v.At m i)
    (hop : op.Allocates) (hargs : op.LengthFits) :
    op.FailsCleanly m i v ↔ ∀ n, op.room v = some n → ¬ v.GrowsInPlace n := by
  by_cases hroom : ∃ n, op.room v = some n
  · obtain ⟨n, hn⟩ := hroom
    constructor
    · intro h n' hn' hg
      exact not_failsCleanly hv hn' hargs hg h
    · intro h
      exact failsCleanly_of_room hv hn hargs (h n hn)
  · cases op with
    | removeFreeSpace =>
        exact iff_of_true (failsCleanly_removeFreeSpace hv) fun n hn => absurd ⟨n, hn⟩ hroom
    | catlen t l => exact absurd ⟨_, rfl⟩ hroom
    | cpylen t l => exact absurd ⟨_, rfl⟩ hroom
    | growzero len => exact absurd ⟨_, rfl⟩ hroom
    | makeRoomFor addlen => exact absurd ⟨_, rfl⟩ hroom
    | _ => exact hop.elim

end Op

/-- The string `"a"` in a type 8 header. -/
def shortMem : Mem := Mem.empty.grant ⟨5, ([1, 1, 1, 97, 0].getD · 0)⟩

theorem short_at : (⟨.type8, [97], 1⟩ : Value).At shortMem 0 :=
  ⟨_, Mem.grant_blocks_next Mem.empty _,
    { tagged := ⟨by decide, by decide⟩, len := by decide, alloc := by decide, len_le := by decide,
      room := by decide, size_lt := by decide, content := by decide, term := by decide }⟩

/-- The equivalence at one string and one request. -/
theorem failsCleanly_iff_short :
    Op.FailsCleanly shortMem 0 ⟨.type8, [97], 1⟩ (.growzero 300) ↔
      ∀ n, Op.room ⟨.type8, [97], 1⟩ (.growzero 300) = some n →
        ¬ Value.GrowsInPlace ⟨.type8, [97], 1⟩ n :=
  Op.failsCleanly_iff shortMem 0 ⟨.type8, [97], 1⟩ (.growzero 300) short_at trivial trivial

/-- Room for one byte in `"a"` is asked of `s_realloc`; the refusal ends in a write through a
pointer computed from the null pointer. -/
theorem makeRoomFor_writes_through_null :
    outcome ((sdsMakeRoomFor (fun _ => none) (handle 0 .type8) 1).run shortMem) =
        .error .undefined ∧
      ¬ Op.FailsCleanly shortMem 0 ⟨.type8, [97], 1⟩ (.makeRoomFor 1) := by
  have hg : Value.GrowsInPlace ⟨.type8, [97], 1⟩ 1 := by decide
  exact ⟨rfl, Op.not_failsCleanly short_at rfl trivial hg⟩

end CLanguageLearning.Sds
