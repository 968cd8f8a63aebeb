import CLanguageLearning.Sds.Header

/-!
# Well-formed strings in memory

`SdsBlock T c cap b` says that block `b` holds a string with header type `T`, content `c` and
capacity `cap`: the tag, the length and the capacity are those recorded in the header, the content
is followed by a terminator, and header, capacity and terminator fit in the block. The accessors of
`sds.h` are computed on such a block, and the header updates are shown to keep the bytes of the
string and to record every value below `T.limit`.
-/

set_option autoImplicit false

namespace CLanguageLearning.Sds

open CLanguageLearning.Foundation

/-- The handle of the string with header type `T` in block `i`. -/
def handle (i : Nat) (T : SdsType) : Ptr := ⟨some i, T.hdrSize⟩

theorem handle_ne_null (i : Nat) (T : SdsType) : handle i T ≠ Ptr.null :=
  Ptr.mk_ne_null i T.hdrSize

theorem add_hdrSize (j : Nat) (T : SdsType) : (⟨some j, 0⟩ : Ptr).add T.hdrSize = handle j T := by
  simp [handle]

/-- A string lies in its own block only. -/
theorem avoids_handle {i j : Nat} (T : SdsType) (h : i ≠ j) :
    (Source.mem (handle i T)).Avoids j :=
  fun he => h (Option.some.inj he)

namespace SdsType

theorem hdrSize_pos (T : SdsType) : 0 < T.hdrSize := by cases T <;> decide

theorem hdrSize_eq {T : SdsType} (h : T ≠ type5) : T.hdrSize = 2 * T.width + 1 := by
  cases T with
  | type5 => exact absurd rfl h
  | type8 => rfl
  | type16 => rfl
  | type32 => rfl
  | type64 => rfl

theorem limit_eq {T : SdsType} (h : T ≠ type5) : T.limit = 256 ^ T.width := by
  cases T with
  | type5 => exact absurd rfl h
  | type8 => rfl
  | type16 => rfl
  | type32 => rfl
  | type64 => rfl

theorem hdrSize_le (T : SdsType) : T.hdrSize ≤ 17 := by cases T <;> decide

theorem ofFlags_code (T : SdsType) : ofFlags T.code = some T := by cases T <;> rfl

theorem code_lt (T : SdsType) : T.code < 256 := by cases T <;> decide

/-- The flags byte of type 5 keeps the type apart from the length. -/
theorem ofFlags_type5 {n : Nat} (h : n < 32) :
    ofFlags (UInt8.ofNat (type5.code ||| n <<< SDS_TYPE_BITS)).toNat = some type5 := by
  revert n
  decide

theorem len_type5 {n : Nat} (h : n < 32) :
    SDS_TYPE_5_LEN (UInt8.ofNat (type5.code ||| n <<< SDS_TYPE_BITS)).toNat = n := by
  revert n
  decide

/-- The length recorded in the header. -/
def lenIn (T : SdsType) (b : Block) : Nat :=
  match T with
  | type5 => SDS_TYPE_5_LEN (b.data 0).toNat
  | T => leNat b.data T.width

/-- The capacity recorded in the header; for type 5 the length. -/
def allocIn (T : SdsType) (b : Block) : Nat :=
  match T with
  | type5 => SDS_TYPE_5_LEN (b.data 0).toNat
  | T => leNat (fun k => b.data (T.width + k)) T.width

/-- The block after `sdssetlen`. -/
def withLen (T : SdsType) (n : Nat) (b : Block) : Block :=
  match T with
  | type5 => b.patch 0 1 fun _ => UInt8.ofNat (type5.code ||| n <<< SDS_TYPE_BITS)
  | T => b.patch 0 T.width (leByte n)

/-- The block after `sdssetalloc`. -/
def withAlloc (T : SdsType) (n : Nat) (b : Block) : Block :=
  match T with
  | type5 => b
  | T => b.patch T.width T.width (leByte n)

theorem lenIn_eq {T : SdsType} (h : T ≠ type5) (b : Block) :
    T.lenIn b = leNat b.data T.width := by
  cases T with
  | type5 => exact absurd rfl h
  | _ => rfl

theorem allocIn_eq {T : SdsType} (h : T ≠ type5) (b : Block) :
    T.allocIn b = leNat (fun k => b.data (T.width + k)) T.width := by
  cases T with
  | type5 => exact absurd rfl h
  | _ => rfl

theorem withLen_eq {T : SdsType} (h : T ≠ type5) (n : Nat) (b : Block) :
    T.withLen n b = b.patch 0 T.width (leByte n) := by
  cases T with
  | type5 => exact absurd rfl h
  | _ => rfl

theorem withAlloc_eq {T : SdsType} (h : T ≠ type5) (n : Nat) (b : Block) :
    T.withAlloc n b = b.patch T.width T.width (leByte n) := by
  cases T with
  | type5 => exact absurd rfl h
  | _ => rfl

@[simp] theorem withLen_size (T : SdsType) (n : Nat) (b : Block) :
    (T.withLen n b).size = b.size := by cases T <;> rfl

@[simp] theorem withAlloc_size (T : SdsType) (n : Nat) (b : Block) :
    (T.withAlloc n b).size = b.size := by cases T <;> rfl

theorem withLen_type5 (n : Nat) (b : Block) :
    type5.withLen n b =
      b.patch 0 1 fun _ => UInt8.ofNat (type5.code ||| n <<< SDS_TYPE_BITS) := rfl

/-- Header updates leave the bytes behind the header alone. -/
theorem withLen_data {T : SdsType} {n k : Nat} (b : Block) (h : T.hdrSize ≤ k) :
    (T.withLen n b).data k = b.data k := by
  by_cases h5 : T = type5
  · subst h5
    rw [withLen_type5]
    exact Block.patch_data_of_ge h
  · rw [withLen_eq h5]
    rw [hdrSize_eq h5] at h
    exact Block.patch_data_of_ge (by omega)

theorem withAlloc_data {T : SdsType} {n k : Nat} (b : Block) (h : T.hdrSize ≤ k + 1) :
    (T.withAlloc n b).data k = b.data k := by
  by_cases h5 : T = type5
  · subst h5
    rfl
  · rw [withAlloc_eq h5]
    rw [hdrSize_eq h5] at h
    exact Block.patch_data_of_ge (by omega)

/-- `sdssetlen` records every length below the limit of the type. -/
theorem lenIn_withLen {T : SdsType} {n : Nat} (b : Block) (h : n < T.limit) :
    T.lenIn (T.withLen n b) = n := by
  by_cases h5 : T = type5
  · subst h5
    exact len_type5 h
  · have hf : ∀ k, k < T.width → (b.patch 0 T.width (leByte n)).data k = leByte n k := by
      intro k hk
      have hadd := @Block.patch_data_add b 0 T.width k (leByte n) hk
      rwa [Nat.zero_add] at hadd
    rw [lenIn_eq h5, withLen_eq h5, leNat_congr hf, leNat_leByte]
    rw [limit_eq h5] at h
    exact Nat.mod_eq_of_lt h

theorem allocIn_withAlloc {T : SdsType} {n : Nat} (b : Block) (h5 : T ≠ type5)
    (h : n < T.limit) : T.allocIn (T.withAlloc n b) = n := by
  have hf : ∀ k, k < T.width →
      (b.patch T.width T.width (leByte n)).data (T.width + k) = leByte n k :=
    fun k hk => Block.patch_data_add hk
  rw [allocIn_eq h5, withAlloc_eq h5, leNat_congr hf, leNat_leByte]
  rw [limit_eq h5] at h
  exact Nat.mod_eq_of_lt h

theorem allocIn_withLen {T : SdsType} {n : Nat} (b : Block) (h5 : T ≠ type5) :
    T.allocIn (T.withLen n b) = T.allocIn b := by
  rw [allocIn_eq h5, allocIn_eq h5, withLen_eq h5]
  exact leNat_congr fun k _ => Block.patch_data_of_ge (by omega)

theorem lenIn_withAlloc {T : SdsType} {n : Nat} (b : Block) :
    T.lenIn (T.withAlloc n b) = T.lenIn b := by
  by_cases h5 : T = type5
  · subst h5
    rfl
  · rw [lenIn_eq h5, lenIn_eq h5, withAlloc_eq h5]
    exact leNat_congr fun k hk => Block.patch_data_of_lt hk

/-- Recording a length and writing behind the header commute. -/
theorem withLen_patch {T : SdsType} {n p k : Nat} (b : Block) (h : T.hdrSize ≤ p)
    (f : Nat → UInt8) : (T.withLen n b).patch p k f = T.withLen n (b.patch p k f) := by
  by_cases h5 : T = type5
  · subst h5
    exact Block.patch_comm _ h _ _
  · rw [withLen_eq h5, withLen_eq h5]
    rw [hdrSize_eq h5] at h
    exact Block.patch_comm _ (by omega) _ _

/-- The header's fields depend on the bytes before the string only. -/
theorem lenIn_congr {T : SdsType} {b b' : Block} (h : ∀ k, k < T.hdrSize → b'.data k = b.data k) :
    T.lenIn b' = T.lenIn b := by
  by_cases h5 : T = type5
  · subst h5
    show SDS_TYPE_5_LEN (b'.data 0).toNat = SDS_TYPE_5_LEN (b.data 0).toNat
    rw [h 0 (by decide)]
  · rw [lenIn_eq h5, lenIn_eq h5]
    rw [hdrSize_eq h5] at h
    exact leNat_congr fun k hk => h k (by omega)

theorem allocIn_congr {T : SdsType} {b b' : Block}
    (h : ∀ k, k < T.hdrSize → b'.data k = b.data k) : T.allocIn b' = T.allocIn b := by
  by_cases h5 : T = type5
  · subst h5
    show SDS_TYPE_5_LEN (b'.data 0).toNat = SDS_TYPE_5_LEN (b.data 0).toNat
    rw [h 0 (by decide)]
  · rw [allocIn_eq h5, allocIn_eq h5]
    rw [hdrSize_eq h5] at h
    exact leNat_congr fun k hk => h _ (by omega)

theorem lenIn_lt (T : SdsType) (b : Block) : T.lenIn b < T.limit := by
  by_cases h5 : T = type5
  · subst h5
    have h := (b.data 0).toNat_lt
    show (b.data 0).toNat >>> 3 < 32
    rw [Nat.shiftRight_eq_div_pow]
    omega
  · rw [lenIn_eq h5, limit_eq h5]
    exact leNat_lt _ _

theorem allocIn_lt (T : SdsType) (b : Block) : T.allocIn b < T.limit := by
  by_cases h5 : T = type5
  · subst h5
    exact lenIn_lt type5 b
  · rw [allocIn_eq h5, limit_eq h5]
    exact leNat_lt _ _

theorem allocIn_type5 (b : Block) : type5.allocIn b = type5.lenIn b := rfl

theorem limit_le (T : SdsType) : T.limit ≤ SIZE_COUNT := by cases T <;> decide

end SdsType

/-! ## Tagged blocks -/

/-- The block has room for a header of type `T` and its flags byte names `T`. -/
structure Tagged (T : SdsType) (b : Block) : Prop where
  tag : SdsType.ofFlags (b.data (T.hdrSize - 1)).toNat = some T
  fits : T.hdrSize ≤ b.size

namespace Tagged

variable {T : SdsType} {b b' : Block}

/-- The tag depends on the flags byte only. -/
theorem congr (h : Tagged T b) (hd : b'.data (T.hdrSize - 1) = b.data (T.hdrSize - 1))
    (hs : T.hdrSize ≤ b'.size) : Tagged T b' where
  tag := by rw [hd]; exact h.tag
  fits := hs

theorem withAlloc (h : Tagged T b) (n : Nat) : Tagged T (T.withAlloc n b) :=
  h.congr (SdsType.withAlloc_data b (by omega)) (by rw [SdsType.withAlloc_size]; exact h.fits)

theorem withLen (h : Tagged T b) {n : Nat} (hn : n < T.limit) : Tagged T (T.withLen n b) := by
  by_cases h5 : T = .type5
  · subst h5
    exact ⟨SdsType.ofFlags_type5 hn, h.fits⟩
  · refine h.congr ?_ (by rw [SdsType.withLen_size]; exact h.fits)
    rw [SdsType.withLen_eq h5]
    have := SdsType.hdrSize_eq h5
    exact Block.patch_data_of_ge (by omega)

theorem patch (h : Tagged T b) {pos n : Nat} (hpos : T.hdrSize ≤ pos) (f : Nat → UInt8) :
    Tagged T (b.patch pos n f) :=
  h.congr (Block.patch_data_of_lt (by have := T.hdrSize_pos; omega)) h.fits

end Tagged

section Accessors

variable {m : Mem} {i : Nat} {b : Block} {T : SdsType}

theorem flagsOf_run (hb : m.blocks i = some b) (h : T.hdrSize ≤ b.size) :
    (flagsOf (handle i T)).run m = .ok ((b.data (T.hdrSize - 1)).toNat, m) := by
  have hpos := T.hdrSize_pos
  have hsub := ptrSub_run (n := 1) (o := T.hdrSize) (by omega) (some i) m
  have hload := load8_run (o := T.hdrSize - 1) hb (by omega)
  simp [flagsOf, handle, hsub, hload]

theorem SDS_HDR_run (m : Mem) (i : Nat) (T : SdsType) :
    (SDS_HDR T (handle i T)).run m = .ok (⟨some i, 0⟩, m) := by
  have := ptrSub_run (Nat.le_refl T.hdrSize) (some i) m
  rwa [Nat.sub_self] at this

theorem hdrLen_run (hb : m.blocks i = some b) (h : T.hdrSize ≤ b.size) (h5 : T ≠ .type5) :
    (hdrLen T (handle i T)).run m = .ok (T.lenIn b, m) := by
  have hw := SdsType.hdrSize_eq h5
  have hload := loadField_run (o := 0) (w := T.width) hb (by omega)
  simp [hdrLen, SDS_HDR_run, hload, SdsType.lenIn_eq h5]

theorem hdrAlloc_run (hb : m.blocks i = some b) (h : T.hdrSize ≤ b.size) (h5 : T ≠ .type5) :
    (hdrAlloc T (handle i T)).run m = .ok (T.allocIn b, m) := by
  have hw := SdsType.hdrSize_eq h5
  have hload := loadField_run (o := T.width) (w := T.width) hb (by omega)
  simp [hdrAlloc, SDS_HDR_run, hload, SdsType.allocIn_eq h5]

theorem sdslen_run (hb : m.blocks i = some b) (h : Tagged T b) :
    (sdslen (handle i T)).run m = .ok (T.lenIn b, m) := by
  have hf := flagsOf_run hb h.fits
  rw [sdslen, run_bind_of_ok hf, h.tag]
  by_cases h5 : T = .type5
  · subst h5
    rfl
  · cases T with
    | type5 => exact absurd rfl h5
    | _ => exact hdrLen_run hb h.fits h5

theorem sdsalloc_run (hb : m.blocks i = some b) (h : Tagged T b) :
    (sdsalloc (handle i T)).run m = .ok (T.allocIn b, m) := by
  have hf := flagsOf_run hb h.fits
  rw [sdsalloc, run_bind_of_ok hf, h.tag]
  by_cases h5 : T = .type5
  · subst h5
    rfl
  · cases T with
    | type5 => exact absurd rfl h5
    | _ => exact hdrAlloc_run hb h.fits h5

/-- With the length at most the capacity the subtraction in `sdsavail` does not wrap. -/
theorem sdsavail_run (hb : m.blocks i = some b) (h : Tagged T b)
    (hle : T.lenIn b ≤ T.allocIn b) :
    (sdsavail (handle i T)).run m = .ok (T.allocIn b - T.lenIn b, m) := by
  have hf := flagsOf_run hb h.fits
  rw [sdsavail, run_bind_of_ok hf, h.tag]
  by_cases h5 : T = .type5
  · subst h5
    show Except.ok (0, m) = _
    rw [SdsType.allocIn_type5, Nat.sub_self]
  · have hlt : T.allocIn b < T.subModulus := by
      apply Nat.lt_of_lt_of_le (T.allocIn_lt b)
      cases T <;> decide
    have hsub : (T.subModulus + T.allocIn b - T.lenIn b) % T.subModulus =
        T.allocIn b - T.lenIn b := by
      rw [Nat.add_sub_assoc hle, Nat.add_mod_left]
      exact Nat.mod_eq_of_lt (by omega)
    have ha := hdrAlloc_run hb h.fits h5
    have hl := hdrLen_run hb h.fits h5
    cases T with
    | type5 => exact absurd rfl h5
    | _ =>
        show StateT.run (_ >>= _) m = _
        rw [run_bind_of_ok ha, run_bind_of_ok hl, hsub]
        rfl

theorem sdssetlen_run (hb : m.blocks i = some b) (h : Tagged T b) (n : Nat) :
    (sdssetlen (handle i T) n).run m = .ok ((), m.mapBlock i (T.withLen n)) := by
  have hf := flagsOf_run hb h.fits
  rw [sdssetlen, run_bind_of_ok hf, h.tag]
  by_cases h5 : T = .type5
  · subst h5
    exact store8_run hb h.fits _
  · have hw := SdsType.hdrSize_eq h5
    have hfits := h.fits
    have hst := storeField_run (o := 0) (w := T.width) hb (by omega) n
    have he : (fun b : Block => b.patch 0 T.width (leByte n)) = T.withLen n :=
      funext fun b => (SdsType.withLen_eq h5 n b).symm
    rw [he] at hst
    cases T with
    | type5 => exact absurd rfl h5
    | _ =>
        show StateT.run (_ >>= _) m = _
        rw [run_bind_of_ok (SDS_HDR_run m i _)]
        exact hst

/-- A header with a field for the length records the sum. -/
theorem sdsinclen_run (hb : m.blocks i = some b) (h : Tagged T b) (h5 : T ≠ .type5) (n : Nat) :
    (sdsinclen (handle i T) n).run m = .ok ((), m.mapBlock i (T.withLen (T.lenIn b + n))) := by
  have hw := SdsType.hdrSize_eq h5
  have hfits := h.fits
  have hlen := hdrLen_run hb h.fits h5
  have hst := storeField_run (o := 0) (w := T.width) hb (by omega) (T.lenIn b + n)
  have he : (fun b' : Block => b'.patch 0 T.width (leByte (T.lenIn b + n))) =
      T.withLen (T.lenIn b + n) :=
    funext fun b' => (SdsType.withLen_eq h5 _ b').symm
  rw [he] at hst
  rw [sdsinclen, run_bind_of_ok (flagsOf_run hb h.fits), h.tag]
  cases T with
  | type5 => exact absurd rfl h5
  | _ =>
      change StateT.run (_ >>= _) m = _
      rw [run_bind_of_ok hlen, run_bind_of_ok (SDS_HDR_run m i _)]
      exact hst

theorem sdssetalloc_run (hb : m.blocks i = some b) (h : Tagged T b) (n : Nat) :
    (sdssetalloc (handle i T) n).run m = .ok ((), m.mapBlock i (T.withAlloc n)) := by
  have hf := flagsOf_run hb h.fits
  rw [sdssetalloc, run_bind_of_ok hf, h.tag]
  by_cases h5 : T = .type5
  · subst h5
    show Except.ok ((), m) = .ok ((), m.mapBlock i fun b => b)
    rw [Mem.mapBlock_id]
  · have hw := SdsType.hdrSize_eq h5
    have hfits := h.fits
    have hst := storeField_run (o := T.width) (w := T.width) hb (by omega) n
    have he : (fun b : Block => b.patch T.width T.width (leByte n)) = T.withAlloc n :=
      funext fun b => (SdsType.withAlloc_eq h5 n b).symm
    rw [he] at hst
    cases T with
    | type5 => exact absurd rfl h5
    | _ =>
        show StateT.run (_ >>= _) m = _
        rw [run_bind_of_ok (SDS_HDR_run m i _)]
        simpa using hst

end Accessors

/-! ## Strings -/

/-- Block `b` holds a well-formed string with header type `T`, content `c` and capacity `cap`. -/
structure SdsBlock (T : SdsType) (c : List UInt8) (cap : Nat) (b : Block) : Prop where
  tagged : Tagged T b
  len : T.lenIn b = c.length
  alloc : T.allocIn b = cap
  len_le : c.length ≤ cap
  room : T.hdrSize + cap + 1 ≤ b.size
  size_lt : b.size < SIZE_COUNT
  content : ∀ k, k < c.length → b.data (T.hdrSize + k) = c.getD k 0
  term : b.data (T.hdrSize + c.length) = 0

/-- The same before the terminator is written: any byte may stand behind the content. -/
structure OpenBlock (T : SdsType) (c : List UInt8) (cap : Nat) (b : Block) : Prop where
  tagged : Tagged T b
  len : T.lenIn b = c.length
  alloc : T.allocIn b = cap
  len_le : c.length ≤ cap
  room : T.hdrSize + cap + 1 ≤ b.size
  size_lt : b.size < SIZE_COUNT
  content : ∀ k, k < c.length → b.data (T.hdrSize + k) = c.getD k 0

theorem SdsBlock.opened {T : SdsType} {c : List UInt8} {cap : Nat} {b : Block}
    (h : SdsBlock T c cap b) : OpenBlock T c cap b :=
  ⟨h.tagged, h.len, h.alloc, h.len_le, h.room, h.size_lt, h.content⟩

theorem OpenBlock.closed {T : SdsType} {c : List UInt8} {cap : Nat} {b : Block}
    (h : OpenBlock T c cap b) (hterm : b.data (T.hdrSize + c.length) = 0) : SdsBlock T c cap b :=
  ⟨h.tagged, h.len, h.alloc, h.len_le, h.room, h.size_lt, h.content, hterm⟩

/-- Block `i` of memory `m` holds a well-formed string. -/
def SdsAt (m : Mem) (i : Nat) (T : SdsType) (c : List UInt8) (cap : Nat) : Prop :=
  ∃ b, m.blocks i = some b ∧ SdsBlock T c cap b

namespace SdsBlock

variable {T : SdsType} {c : List UInt8} {cap : Nat} {b : Block}

theorem cap_lt (h : SdsBlock T c cap b) : cap < T.limit := by
  rw [← h.alloc]
  exact T.allocIn_lt b

/-- For type 5 the capacity is the length. -/
theorem cap_eq_of_type5 (h : SdsBlock .type5 c cap b) : cap = c.length := by
  rw [← h.alloc, ← h.len]
  rfl

/-- Recording the length of a terminated string `l` that was written over a string of capacity at
least `l.length` gives the string with content `l`; a type 5 header takes the length for its
capacity. -/
theorem withLen {l : List UInt8} {d : Block} (h : SdsBlock T c cap b) (hl : l.length ≤ cap)
    (hsize : d.size = b.size) (hhdr : ∀ k, k < T.hdrSize → d.data k = b.data k)
    (hdata : ∀ k, k < l.length → d.data (T.hdrSize + k) = l.getD k 0)
    (hterm : d.data (T.hdrSize + l.length) = 0) :
    SdsBlock T l (if T = .type5 then l.length else cap) (T.withLen l.length d) := by
  have hlim : l.length < T.limit := Nat.lt_of_le_of_lt hl h.cap_lt
  have hpos := T.hdrSize_pos
  have hroom := h.room
  have hfits := h.tagged.fits
  have htag : Tagged T d := h.tagged.congr (hhdr _ (by omega)) (by omega)
  have hlen := SdsType.lenIn_withLen d hlim
  have hcap : l.length ≤ (if T = .type5 then l.length else cap) ∧
      (if T = .type5 then l.length else cap) ≤ cap := by
    split
    · exact ⟨Nat.le_refl _, hl⟩
    · exact ⟨hl, Nat.le_refl _⟩
  refine
    { tagged := htag.withLen hlim
      len := hlen
      alloc := ?_
      len_le := hcap.1
      room := by rw [SdsType.withLen_size]; omega
      size_lt := by rw [SdsType.withLen_size, hsize]; exact h.size_lt
      content := fun k hk => by rw [SdsType.withLen_data _ (by omega)]; exact hdata k hk
      term := by rw [SdsType.withLen_data _ (by omega)]; exact hterm }
  by_cases h5 : T = .type5
  · subst h5
    rw [if_pos rfl, SdsType.allocIn_type5, hlen]
  · rw [if_neg h5, SdsType.allocIn_withLen _ h5, SdsType.allocIn_congr hhdr, h.alloc]

/-- The same with the terminator written as well, before or after the length. -/
theorem terminated {l : List UInt8} {d : Block} (h : SdsBlock T c cap b) (hl : l.length ≤ cap)
    (hsize : d.size = b.size) (hhdr : ∀ k, k < T.hdrSize → d.data k = b.data k)
    (hdata : ∀ k, k < l.length → d.data (T.hdrSize + k) = l.getD k 0) :
    SdsBlock T l (if T = .type5 then l.length else cap)
      (T.withLen l.length (d.patch (T.hdrSize + l.length) 1 fun _ => 0)) := by
  refine h.withLen hl hsize ?_ ?_ ?_
  · intro k hk
    rw [Block.patch_data_of_lt (by omega), hhdr k hk]
  · intro k hk
    rw [Block.patch_data_of_lt (by omega), hdata k hk]
  · exact @Block.patch_data_add d (T.hdrSize + l.length) 1 0 (fun _ => 0) (by omega)

end SdsBlock

end CLanguageLearning.Sds
