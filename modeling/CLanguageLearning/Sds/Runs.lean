import CLanguageLearning.Sds.InPlace

/-!
# New strings and whole runs

A run starts with `sdsnewlen`, `sdsempty` or `sdsdup` and applies operations to the string the last
one returned. Between two operations the rest of the program may change every block but the
string's own. In each state of such a run the string is well-formed and has the value that the
purposes of the operations say, and the next operation succeeds.
-/

set_option autoImplicit false

namespace CLanguageLearning.Sds

open CLanguageLearning.Foundation

/-! ## Creation -/

section Creation

variable {al : Allocator} {m : Mem} {i : Nat} {b : Block} {T : SdsType} {n : Nat}

/-- The block after `initHeader`: length and capacity are both `n`. -/
def withHeader (T : SdsType) (n : Nat) (b : Block) : Block :=
  match T with
  | .type5 => b.patch 0 1 fun _ => UInt8.ofNat (SdsType.type5.code ||| n <<< SDS_TYPE_BITS)
  | T => ((b.patch 0 T.width (leByte n)).patch T.width T.width (leByte n)).patch (T.hdrSize - 1) 1
      fun _ => UInt8.ofNat T.code

theorem withHeader_type5 (n : Nat) (b : Block) :
    withHeader .type5 n b =
      b.patch 0 1 fun _ => UInt8.ofNat (SdsType.type5.code ||| n <<< SDS_TYPE_BITS) := rfl

theorem withHeader_eq (h5 : T ≠ .type5) (n : Nat) (b : Block) :
    withHeader T n b = (T.withAlloc n (T.withLen n b)).patch (T.hdrSize - 1) 1
      fun _ => UInt8.ofNat T.code := by
  rw [SdsType.withAlloc_eq h5, SdsType.withLen_eq h5]
  cases T with
  | type5 => exact absurd rfl h5
  | _ => rfl

@[simp] theorem withHeader_size (T : SdsType) (n : Nat) (b : Block) :
    (withHeader T n b).size = b.size := by cases T <;> rfl

theorem withHeader_data {k : Nat} (b : Block) (h : T.hdrSize ≤ k) :
    (withHeader T n b).data k = b.data k := by
  by_cases h5 : T = .type5
  · subst h5
    rw [withHeader_type5]
    exact Block.patch_data_of_ge h
  · have hpos := T.hdrSize_pos
    rw [withHeader_eq h5, Block.patch_data_of_ge (by omega), SdsType.withAlloc_data _ (by omega),
      SdsType.withLen_data _ h]

theorem tagged_withHeader (hfits : T.hdrSize ≤ b.size) (hn : n < T.limit) :
    Tagged T (withHeader T n b) := by
  by_cases h5 : T = .type5
  · subst h5
    exact ⟨SdsType.ofFlags_type5 hn, hfits⟩
  · rw [withHeader_eq h5]
    exact tagged_patch_code (by simpa using hfits)

theorem lenIn_withHeader (b : Block) (hn : n < T.limit) : T.lenIn (withHeader T n b) = n := by
  by_cases h5 : T = .type5
  · subst h5
    exact SdsType.lenIn_withLen b hn
  · have hw := SdsType.hdrSize_eq h5
    have hlen : T.lenIn (withHeader T n b) = T.lenIn (T.withAlloc n (T.withLen n b)) := by
      rw [withHeader_eq h5, SdsType.lenIn_eq h5, SdsType.lenIn_eq h5]
      exact leNat_congr fun k hk => Block.patch_data_of_lt (by omega)
    rw [hlen, SdsType.lenIn_withAlloc, SdsType.lenIn_withLen b hn]

theorem allocIn_withHeader (b : Block) (hn : n < T.limit) : T.allocIn (withHeader T n b) = n := by
  by_cases h5 : T = .type5
  · subst h5
    rw [SdsType.allocIn_type5, lenIn_withHeader b hn]
  · have hw := SdsType.hdrSize_eq h5
    have halloc : T.allocIn (withHeader T n b) = T.allocIn (T.withAlloc n (T.withLen n b)) := by
      rw [withHeader_eq h5, SdsType.allocIn_eq h5, SdsType.allocIn_eq h5]
      exact leNat_congr fun k hk => Block.patch_data_of_lt (by omega)
    rw [halloc, SdsType.allocIn_withAlloc _ h5 hn]

theorem initHeader_run (hb : m.blocks i = some b) (h : T.hdrSize ≤ b.size) (n : Nat) :
    (initHeader T (handle i T) n).run m = .ok ((), m.mapBlock i (withHeader T n)) := by
  have hpos := T.hdrSize_pos
  have hsub := ptrSub_run (n := 1) (o := T.hdrSize) (by omega) (some i) m
  apply (run_bind_of_ok hsub _).trans
  by_cases h5 : T = .type5
  · subst h5
    exact store8_run hb h _
  · have hw := SdsType.hdrSize_eq h5
    have hlen := storeField_run (o := 0) (w := T.width) hb (by omega) n
    have hb1 := Mem.mapBlock_blocks_self hb fun b => b.patch 0 T.width (leByte n)
    have halloc := storeField_run (o := 0 + T.width) (w := T.width) hb1
      (by simp only [Block.patch_size]; omega) n
    have hb2 := Mem.mapBlock_blocks_self hb1 fun b => b.patch (0 + T.width) T.width (leByte n)
    have hflags := store8_run (o := T.hdrSize - 1) hb2
      (by simp only [Block.patch_size]; omega) (UInt8.ofNat T.code)
    rw [Mem.mapBlock_mapBlock, Mem.mapBlock_mapBlock] at hflags
    cases T with
    | type5 => exact absurd rfl h5
    | _ =>
        apply (run_bind_of_ok (SDS_HDR_run m i _) _).trans
        apply (run_bind_of_ok hlen _).trans
        apply (run_bind_of_ok halloc _).trans
        rw [Mem.mapBlock_mapBlock]
        exact hflags

/-- The block `sdsnewlen` has written when it returns: `f` is the copied content. -/
def newBlock (T : SdsType) (n : Nat) (f junk : Nat → UInt8) : Block :=
  ((withHeader T n ⟨T.hdrSize + n + 1, junk⟩).patch T.hdrSize n f).patch (T.hdrSize + n) 1 fun _ => 0

@[simp] theorem newBlock_size (T : SdsType) (n : Nat) (f junk : Nat → UInt8) :
    (newBlock T n f junk).size = T.hdrSize + n + 1 := by
  simp only [newBlock, Block.patch_size, withHeader_size]

theorem newBlock_sds {l : List UInt8} {f : Nat → UInt8} (junk : Nat → UInt8)
    (hlim : l.length < T.limit) (hfit : FitsSize T l.length)
    (hf : ∀ k, k < l.length → f k = l.getD k 0) :
    SdsBlock T l l.length (newBlock T l.length f junk) := by
  have hpos := T.hdrSize_pos
  have htag := tagged_withHeader (T := T) (n := l.length)
    (b := ⟨T.hdrSize + l.length + 1, junk⟩) (by show _ ≤ T.hdrSize + l.length + 1; omega) hlim
  have hhdr : ∀ k, k < T.hdrSize → (newBlock T l.length f junk).data k =
      (withHeader T l.length ⟨T.hdrSize + l.length + 1, junk⟩).data k := by
    intro k hk
    rw [newBlock, Block.patch_data_of_lt (by omega), Block.patch_data_of_lt hk]
  refine
    { tagged := htag.congr (hhdr _ (by omega)) (by rw [newBlock_size]; omega)
      len := by rw [SdsType.lenIn_congr hhdr, lenIn_withHeader _ hlim]
      alloc := by rw [SdsType.allocIn_congr hhdr, allocIn_withHeader _ hlim]
      len_le := Nat.le_refl _
      room := by rw [newBlock_size]
      size_lt := by rw [newBlock_size]; exact hfit
      content := ?_
      term := ?_ }
  · intro k hk
    rw [newBlock, Block.patch_data_of_lt (by omega), Block.patch_data_add hk, hf k hk]
  · exact @Block.patch_data_add _ (T.hdrSize + l.length) 1 0 (fun _ => 0) (by omega)

/-- The part of `sdsnewlen` after the block has been granted and cleared; `f` is the content that
the copy leaves. -/
theorem writeNew_run {init : Init} {l : List UInt8} {f d : Nat → UInt8}
    (hb : m.blocks i = some ⟨T.hdrSize + l.length + 1, d⟩) (hlim : l.length < T.limit)
    (hfit : FitsSize T l.length) (hf : ∀ k, k < l.length → f k = l.getD k 0)
    (hcopy : (copyInit init (handle i T) l.length).run (m.mapBlock i (withHeader T l.length)) =
      .ok ((), (m.mapBlock i (withHeader T l.length)).mapBlock i fun b =>
        b.patch T.hdrSize l.length f)) :
    Yields ((do
      initHeader T (handle i T) l.length
      copyInit init (handle i T) l.length
      store8 ((handle i T).add l.length) 0
      return handle i T : Exec Mem Ptr).run m) m i ⟨T, l, l.length⟩ := by
  have hinit := initHeader_run (T := T) hb (by show _ ≤ T.hdrSize + l.length + 1; omega) l.length
  have hb1 := Mem.mapBlock_blocks_self hb (withHeader T l.length)
  have hb2 := Mem.mapBlock_blocks_self hb1 fun b => b.patch T.hdrSize l.length f
  have hterm := store8_run (o := T.hdrSize + l.length) hb2
    (by simp only [Block.patch_size, withHeader_size]; omega) 0
  have hb3 := Mem.mapBlock_blocks_self hb2 fun b => b.patch (T.hdrSize + l.length) 1 fun _ => 0
  refine ⟨i, _, ?_, ⟨_, hb3, newBlock_sds _ hlim hfit hf⟩,
    (((Mem.Moved.refl m i).mapBlock _).mapBlock _).mapBlock _⟩
  apply (run_bind_of_ok hinit _).trans
  apply (run_bind_of_ok hcopy _).trans
  exact run_bind_of_ok hterm _

/-- Bytes of the caller are copied behind the header. -/
theorem copyInit_run_src {t : Source} {l : List UInt8} {d : Nat → UInt8}
    (hb : m.blocks i = some ⟨T.hdrSize + l.length + 1, d⟩) (ht : t.Holds m l) (hav : t.Avoids i) :
    ∃ f, (∀ k, k < l.length → f k = l.getD k 0) ∧
      (copyInit (.src t) (handle i T) l.length).run (m.mapBlock i (withHeader T l.length)) =
        .ok ((), (m.mapBlock i (withHeader T l.length)).mapBlock i fun b =>
          b.patch T.hdrSize l.length f) := by
  have hb1 := Mem.mapBlock_blocks_self hb (withHeader T l.length)
  obtain ⟨ht1, -⟩ := Source.Holds.moved ht hav
    ((Mem.Moved.refl m i).mapBlock (withHeader T l.length))
  obtain ⟨f, hcpy, hf⟩ := memcpy_run (o := T.hdrSize) hb1
    (by simp only [withHeader_size]; omega) ht1 hav
  refine ⟨f, hf, ?_⟩
  rw [copyInit]
  by_cases hl : l.length = 0
  · -- an empty source is not copied
    rw [if_neg (not_not_intro hl), hl]
    simp only [Block.patch_zero, Mem.mapBlock_id]
    rfl
  · rw [if_pos hl]
    exact hcpy

/-- Without bytes of the caller the content is what the block has there. -/
theorem copyInit_run_none {init : Init} {l : List UInt8} {d : Nat → UInt8}
    (hb : m.blocks i = some ⟨T.hdrSize + l.length + 1, d⟩) (hinit : ∀ t, init ≠ .src t) :
    (copyInit init (handle i T) l.length).run (m.mapBlock i (withHeader T l.length)) =
      .ok ((), (m.mapBlock i (withHeader T l.length)).mapBlock i fun b =>
        b.patch T.hdrSize l.length fun k => d (T.hdrSize + k)) := by
  have hb1 := Mem.mapBlock_blocks_self hb (withHeader T l.length)
  have hsame := Block.patch_self (withHeader T l.length ⟨T.hdrSize + l.length + 1, d⟩) T.hdrSize
    l.length (f := fun k => d (T.hdrSize + k)) fun k _ =>
      (withHeader_data ⟨T.hdrSize + l.length + 1, d⟩ (Nat.le_add_right T.hdrSize k)).symm
  rw [Mem.mapBlock_eq_self hb1 hsame]
  cases init with
  | src t => exact absurd rfl (hinit t)
  | _ => rfl

/-- `sdsnewlen` when the block is granted, from the state `m₁` after the block has been cleared, if
it is. -/
theorem sdsnewlen_run_granted {m₁ : Mem} {init : Init} {l : List UInt8} {f d junk : Nat → UInt8}
    (hjunk : al m.requests.length = some junk) (hfit : FitsSize (newType l.length) l.length)
    (hzero : (zeroInit init ⟨some m.next, 0⟩ ((newType l.length).hdrSize + l.length + 1)).run
      (m.grant ⟨(newType l.length).hdrSize + l.length + 1, junk⟩) = .ok ((), m₁))
    (hb : m₁.blocks m.next = some ⟨(newType l.length).hdrSize + l.length + 1, d⟩)
    (hmoved : m.Moved m₁ m.next m.next) (hf : ∀ k, k < l.length → f k = l.getD k 0)
    (hcopy : (copyInit init (handle m.next (newType l.length)) l.length).run
        (m₁.mapBlock m.next (withHeader (newType l.length) l.length)) =
      .ok ((), (m₁.mapBlock m.next (withHeader (newType l.length) l.length)).mapBlock m.next
        fun b => b.patch (newType l.length).hdrSize l.length f)) :
    Yields ((sdsnewlen al init l.length).run m) m m.next (Value.ofBytes l) := by
  obtain ⟨j, m', hrun, hv, hm⟩ := writeNew_run hb (lt_limit_newType hfit.lt) hfit hf hcopy
  refine ⟨j, m', ?_, hv, hmoved.trans hm⟩
  rw [sdsnewlen, hfit.sizeT_eq]
  apply (run_bind_of_ok (malloc_run_granted hjunk) _).trans
  dsimp only
  rw [if_neg (Ptr.mk_ne_null _ _), add_hdrSize]
  apply (run_bind_of_ok hzero _).trans
  exact hrun

theorem grant_moved (m : Mem) (b : Block) : m.Moved (m.grant b) m.next m.next :=
  ⟨fun _ hk _ => Mem.grant_blocks_of_ne hk b, Nat.le_succ _, Or.inl rfl, fun h => absurd rfl h⟩

/-- `sdsnewlen` with initial bytes, when the block fits in `size_t` and is granted. -/
theorem sdsnewlen_yields {t : Source} {l : List UInt8} (hal : al m.requests.length ≠ none)
    (ht : t.Holds m l) (hfit : FitsSize (newType l.length) l.length) :
    Yields ((sdsnewlen al (.src t) l.length).run m) m m.next (Value.ofBytes l) := by
  obtain ⟨junk, hjunk⟩ := Option.ne_none_iff_exists'.mp hal
  -- the source lies in another block, or in none
  have hsrc : ∀ b, t.Holds (m.grant b) l ∧ t.Avoids m.next := by
    intro b
    cases t with
    | bytes l' => exact ⟨ht, trivial⟩
    | mem p =>
        obtain ⟨j, c, hp, hc, hle, hl⟩ := ht
        refine ⟨⟨j, c, hp, Mem.grant_blocks_of_some hc _, hle, hl⟩, ?_⟩
        have hj := Mem.lt_next hc
        intro he
        rw [hp, Option.some.injEq] at he
        omega
  have hb := Mem.grant_blocks_next m ⟨(newType l.length).hdrSize + l.length + 1, junk⟩
  obtain ⟨f, hf, hcopy⟩ := copyInit_run_src hb (hsrc _).1 (hsrc ⟨0, junk⟩).2
  exact sdsnewlen_run_granted hjunk hfit rfl hb (grant_moved m _) hf hcopy

/-- A refusal is passed on. -/
theorem sdsnewlen_refused (hal : al m.requests.length = none) (init : Init) (n : Nat) :
    (sdsnewlen al init n).run m =
      .ok (Ptr.null, m.refuse (sizeT ((newType n).hdrSize + n + 1))) := by
  rw [sdsnewlen]
  apply (run_bind_of_ok (malloc_run_refused hal) _).trans
  rw [if_pos rfl]
  rfl

/-- A new block is cleared for `NULL` and left as it is for `SDS_NOINIT`. -/
theorem zeroInit_run_blank {init : Init} (hinit : ∀ t, init ≠ .src t) (n : Nat)
    (junk : Nat → UInt8) :
    ∃ m₁ d, (zeroInit init ⟨some m.next, 0⟩ n).run (m.grant ⟨n, junk⟩) = .ok ((), m₁) ∧
      m₁.blocks m.next = some ⟨n, d⟩ ∧ m.Moved m₁ m.next m.next ∧
      (init = .null → ∀ k, k < n → d k = 0) := by
  have hb := Mem.grant_blocks_next m ⟨n, junk⟩
  cases init with
  | src t => exact absurd rfl (hinit t)
  | null =>
      have hset := memset_run (o := 0) (n := n) hb (by simp) 0
      refine ⟨_, _, hset, Mem.mapBlock_blocks_self hb _, (grant_moved m _).mapBlock _, ?_⟩
      intro _ k hk
      exact if_pos (by omega)
  | SDS_NOINIT => exact ⟨_, junk, rfl, hb, grant_moved m _, fun h => by cases h⟩

/-- `sdsnewlen` with `NULL` or `SDS_NOINIT`: zeros, or what the new block happens to hold. -/
theorem sdsnewlen_yields_blank (init : Init) {n : Nat} (hal : al m.requests.length ≠ none)
    (hinit : ∀ t, init ≠ .src t) (hfit : FitsSize (newType n) n) :
    ∃ l : List UInt8, l.length = n ∧ (init = .null → ∀ k, k < n → l.getD k 0 = 0) ∧
      Yields ((sdsnewlen al init n).run m) m m.next (Value.ofBytes l) := by
  obtain ⟨junk, hjunk⟩ := Option.ne_none_iff_exists'.mp hal
  obtain ⟨m₁, d, hzero, hb, hmoved, hd⟩ :=
    zeroInit_run_blank (m := m) hinit ((newType n).hdrSize + n + 1) junk
  -- the content is what the block holds behind the header
  obtain ⟨l, rfl, hl⟩ : ∃ l : List UInt8, l.length = n ∧
      ∀ k, k < n → d ((newType n).hdrSize + k) = l.getD k 0 := by
    refine ⟨(List.range n).map fun k => d ((newType n).hdrSize + k), by simp, ?_⟩
    intro k hk
    rw [List.getD_eq_getElem _ _ (by simpa using hk), List.getElem_map, List.getElem_range]
  refine ⟨l, rfl, ?_, ?_⟩
  · intro hnull k hk
    rw [← hl k hk, hd hnull _ (by omega)]
  · exact sdsnewlen_run_granted hjunk hfit hzero hb hmoved hl (copyInit_run_none hb hinit)

end Creation

/-! ## Runs -/

/-- The ways a run can start. -/
inductive Start where
  | newlen (t : Source) (l : List UInt8)
  | empty
  | dup (j : Nat) (w : Value)

namespace Start

/-- The function of the source. -/
def exec (al : Allocator) : Start → Exec Mem Ptr
  | newlen t l => sdsnewlen al (.src t) l.length
  | empty => sdsempty al
  | dup j w => sdsdup al (handle j w.type)

/-- The string it is meant to return. -/
def value : Start → Value
  | newlen _ l => Value.ofBytes l
  | empty => Value.ofBytes []
  | dup _ w => Value.ofBytes w.content

/-- What a caller has to provide. -/
def Valid (m : Mem) : Start → Prop
  | newlen t l => t.Holds m l ∧ FitsSize (newType l.length) l.length
  | empty => True
  | dup j w => w.At m j ∧ FitsSize (newType w.content.length) w.content.length

end Start

section Runs

variable {al : Allocator} {m : Mem}

theorem Start.exec_correct (hal : ∀ k, al k ≠ none) (st : Start) (hst : st.Valid m) :
    Yields ((st.exec al).run m) m m.next st.value := by
  cases st with
  | newlen t l => exact sdsnewlen_yields (hal _) hst.1 hst.2
  | empty =>
      have hnil : (Source.bytes []).Holds m [] := List.prefix_rfl
      have hfit : FitsSize (newType ([] : List UInt8).length) ([] : List UInt8).length := by decide
      have hnew := sdsnewlen_yields (hal m.requests.length) hnil hfit
      exact hnew
  | dup j w =>
      obtain ⟨⟨b, hb, hs⟩, hfit⟩ := hst
      show Yields ((sdsdup al (handle j w.type)).run m) m m.next _
      rw [sdsdup, run_bind_of_ok (hs.len_run hb)]
      exact sdsnewlen_yields (hal _) (hs.holds_content hb) hfit

/-- States of a run, with the value the string is meant to have. Between operations the rest of the
program may do anything to other blocks. -/
inductive Reachable (al : Allocator) : Mem → Ptr → Value → Prop where
  | start {m m' : Mem} {s : Ptr} (st : Start) (hst : st.Valid m)
      (hrun : (st.exec al).run m = .ok (s, m')) : Reachable al m' s st.value
  | step {m m' : Mem} {s s' : Ptr} {v : Value} {i : Nat} (op : Op) (h : Reachable al m s v)
      (hi : s.block = some i) (hop : op.Valid m i v) (hrun : (op.exec al s).run m = .ok (s', m')) :
      Reachable al m' s' (op.apply v)
  | other {m m' : Mem} {s : Ptr} {v : Value} (h : Reachable al m s v)
      (hkeep : ∀ i, s.block = some i → m'.blocks i = m.blocks i) : Reachable al m' s v

/-- What an operation does to the content, the header and the capacity left aside. -/
def Op.onContent (l : List UInt8) : Op → List UInt8
  | catlen _ l' => l ++ l'
  | catsds _ w => l ++ w.content
  | cpylen _ l' => l'
  | growzero len => l ++ List.replicate (len - l.length) 0
  | makeRoomFor _ => l
  | removeFreeSpace => l
  | trim cset => trimContent cset l
  | range first last => sliceContent l first last
  | clear => []
  | mapchars src dst setlen => l.map (mapContent src dst setlen)

theorem sliceContent_nil (first last : Int) : sliceContent [] first last = [] := by
  simp [sliceContent]

theorem Op.apply_content (v : Value) (op : Op) : (op.apply v).content = op.onContent v.content := by
  cases op with
  | cpylen t l =>
      rw [Op.apply]
      split <;> rfl
  | growzero len =>
      rw [Op.apply]
      split
      · rename_i hle
        rw [Op.onContent, Nat.sub_eq_zero_of_le hle, List.replicate_zero, List.append_nil]
      · rfl
  | makeRoomFor addlen => exact v.makeRoom_content addlen
  | removeFreeSpace => exact v.removeFree_content
  | range first last =>
      rw [Op.apply]
      split
      · rename_i hnil
        rw [Op.onContent, hnil, sliceContent_nil]
      · rfl
  | _ => rfl

/-- In every state of a run the string is well-formed and has its intended value. -/
theorem Reachable.at (hal : ∀ k, al k ≠ none) {s : Ptr} {v : Value} (h : Reachable al m s v) :
    ∃ i, s = handle i v.type ∧ v.At m i := by
  induction h with
  | start st hst hrun =>
      obtain ⟨j, m', hrun', hv, -⟩ := st.exec_correct hal hst
      rw [hrun, Except.ok.injEq, Prod.mk.injEq] at hrun'
      obtain ⟨rfl, rfl⟩ := hrun'
      exact ⟨j, rfl, hv⟩
  | step op _ hi hop hrun ih =>
      obtain ⟨k, rfl, hv⟩ := ih
      cases Option.some.inj hi
      obtain ⟨j, m', hrun', hv', -⟩ := Op.exec_correct (hal _) hv op hop
      rw [hrun, Except.ok.injEq, Prod.mk.injEq] at hrun'
      obtain ⟨rfl, rfl⟩ := hrun'
      exact ⟨j, rfl, hv'⟩
  | other _ hkeep ih =>
      obtain ⟨i, rfl, b, hb, hs⟩ := ih
      exact ⟨i, rfl, b, by rw [hkeep i rfl, hb], hs⟩

/-- Whole runs: every start succeeds; in every reachable state the handle points into a block that
holds a well-formed string (`SdsBlock`) of the intended value, and the accessors read that value;
and every operation with valid arguments succeeds, with the value it is for. -/
theorem strings_represent_values (hal : ∀ k, al k ≠ none) :
    (∀ (m : Mem) (st : Start), st.Valid m →
      ∃ s m', (st.exec al).run m = .ok (s, m') ∧ Reachable al m' s st.value) ∧
    ∀ (m : Mem) (s : Ptr) (v : Value), Reachable al m s v →
      ∃ i b, s = handle i v.type ∧ m.blocks i = some b ∧ SdsBlock v.type v.content v.cap b ∧
        (sdslen s).run m = .ok (v.content.length, m) ∧ (sdsalloc s).run m = .ok (v.cap, m) ∧
        ∀ op : Op, op.Valid m i v →
          ∃ s' m', (op.exec al s).run m = .ok (s', m') ∧ Reachable al m' s' (op.apply v) ∧
            (op.apply v).content = op.onContent v.content := by
  refine ⟨?_, ?_⟩
  · intro m st hst
    obtain ⟨j, m', hrun, -, -⟩ := st.exec_correct hal hst
    exact ⟨_, m', hrun, .start st hst hrun⟩
  · intro m s v h
    obtain ⟨i, rfl, b, hb, hs⟩ := h.at hal
    refine ⟨i, b, rfl, hb, hs, hs.len_run hb, hs.alloc_run hb, ?_⟩
    intro op hop
    obtain ⟨j, m', hrun, -, -⟩ := Op.exec_correct (hal _) ⟨b, hb, hs⟩ op hop
    exact ⟨_, m', hrun, .step op h rfl hop hrun, op.apply_content v⟩

/-- A string of one byte gets a longer header when 300 bytes are appended, and keeps it when it is cut
to its first byte again. -/
theorem strings_represent_values_grown :
    ∃ m s i b, s = handle i .type16 ∧ m.blocks i = some b ∧
      SdsBlock .type16 (104 :: List.replicate 300 97) 602 b ∧ (sdslen s).run m = .ok (301, m) ∧
      (sdsalloc s).run m = .ok (602, m) ∧ ∃ s' m',
        ((Op.range 0 0).exec (fun _ => some fun _ => 0xA5) s).run m = .ok (s', m') ∧
          Reachable (fun _ => some fun _ => 0xA5) m' s' ⟨.type16, [104], 602⟩ := by
  have hal : ∀ k, (fun _ => some fun _ => 0xA5 : Allocator) k ≠ none := fun _ => by simp
  obtain ⟨hstart, hnext⟩ := strings_represent_values hal
  -- of the appended bytes only their number matters
  obtain ⟨l, hl⟩ : ∃ l, l = List.replicate 300 (97 : UInt8) := ⟨_, rfl⟩
  have hlength : l.length = 300 := by rw [hl, List.length_replicate]
  rw [← hl]
  clear hl
  obtain ⟨s, m, -, hnew⟩ := hstart Mem.empty (.newlen (.bytes [104]) [104])
    ⟨List.prefix_rfl, by decide⟩
  obtain ⟨i, b, -, -, -, -, -, happend⟩ := hnext m s _ hnew
  obtain ⟨t, m', -, hgrown, -⟩ := happend (.catlen (.bytes l) l)
    ⟨List.prefix_rfl, trivial, Value.roomFits_of_lt (by simp [Start.value, Value.ofBytes, hlength])⟩
  have hvalue : (Op.catlen (.bytes l) l).apply (Start.newlen (.bytes [104]) [104]).value =
      ⟨.type16, 104 :: l, 602⟩ := by
    simp [Op.apply, Start.value, Value.ofBytes, Value.makeRoom, Value.setContent, prealloc,
      SDS_MAX_PREALLOC, growType, sdsReqType, hlength]
  rw [hvalue] at hgrown
  obtain ⟨j, c, rfl, hc, hs, hlen, hcap, hcut⟩ := hnext m' t _ hgrown
  rw [List.length_cons, hlength] at hlen
  obtain ⟨u, m'', hrun, hrange, -⟩ := hcut (.range 0 0) (by simp [Op.Valid])
  have hvalue' : (Op.range 0 0).apply ⟨.type16, 104 :: l, 602⟩ = ⟨.type16, [104], 602⟩ := by
    simp [Op.apply, Value.setContent, sliceContent, sliceIndex, hlength]
  rw [hvalue'] at hrange
  exact ⟨m', _, j, c, rfl, hc, hs, hlen, hcap, u, m'', hrun, hrange⟩

end Runs

end CLanguageLearning.Sds
