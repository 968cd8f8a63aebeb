import CLanguageLearning.Sds.Representation

/-!
# Length updates by the caller

`sdsIncrLen` records the length of a string whose caller has written into the spare room. Each
header type has an assertion of its own, and they do not convert the increment in the same way: in
type 64 both comparisons are made in 64 bits, in the others the decrement, and in type 32 the
increment as well, is converted to `unsigned int` first. Type 5 has no spare room to compare with.

`IncrChecked` is what an assertion is there for, and `sdsIncrLen_checked_iff` says for which
increments it is achieved.
-/

set_option autoImplicit false

namespace CLanguageLearning.Sds

open CLanguageLearning.Foundation

/-! ## The function -/

def LONG_MIN : Int := -2 ^ 63

def LONG_MAX : Int := 2 ^ 63 - 1

/-- A value computed in `long`. -/
def longValue (x : Int) : Exec Mem Int :=
  if LONG_MIN ≤ x ∧ x ≤ LONG_MAX then return x else throw .overflow

/-- The conversion of `incr`, and the type of the difference it is compared with: `long` for the
two narrow types, whose fields are promoted to `int`. -/
def SdsType.growOperand : SdsType → Int → Int
  | .type32, x => x % 2 ^ 32
  | .type64, x => x % 2 ^ 64
  | _, x => x

/-- The conversion of `-incr`: `uint64_t` for type 64, else `unsigned int`. -/
def SdsType.shrinkOperand : SdsType → Int → Int
  | .type64, x => x % 2 ^ 64
  | _, x => x % 2 ^ 32

/-- `oldlen >= (unsigned int)(-incr)` and its siblings. -/
def shrinkAllowed (T : SdsType) (len : Nat) (incr : Int) : Exec Mem Bool := do
  let n ← longValue (-incr)
  return decide (T.shrinkOperand n ≤ len)

/-- The condition asserted for type 5. -/
def type5Allows (oldlen : Nat) (incr : Int) : Exec Mem Bool := do
  if 0 < incr then
    let n ← longValue (oldlen + incr)
    return decide (n < 32)
  else if incr < 0 then shrinkAllowed .type5 oldlen incr
  else return false

/-- The condition asserted for the types with a length and a capacity. -/
def fieldAllows (T : SdsType) (alloc len : Nat) (incr : Int) : Exec Mem Bool :=
  if 0 ≤ incr then return decide (T.growOperand incr ≤ T.growOperand (alloc - len))
  else shrinkAllowed T len incr

/-- The update of the flags byte of type 5. The sum is shifted to the left, which has no meaning for
a negative one. -/
def type5Update (s : Ptr) (oldlen : Nat) (incr : Int) : Exec Mem Nat := do
  let n ← longValue (oldlen + incr)
  if n < 0 then throw .undefined
  let fp ← ptrSub s 1
  store8 fp (UInt8.ofNat (SdsType.type5.code ||| n.toNat <<< SDS_TYPE_BITS))
  return n.toNat

/-- `sh->len + incr` is a `long`, and for type 64 a `uint64_t`, which the update reduces. -/
def fieldSum (T : SdsType) (oldlen : Nat) (incr : Int) : Exec Mem Int :=
  if T = .type64 then return oldlen + incr else longValue (oldlen + incr)

/-- `len = (sh->len += incr)`: what the field keeps of the sum is the new length. -/
def fieldUpdate (T : SdsType) (s : Ptr) (oldlen : Nat) (incr : Int) : Exec Mem Nat := do
  let n ← fieldSum T oldlen incr
  let len := (n % (256 ^ T.width : Nat)).toNat
  let sh ← SDS_HDR T s
  storeField T.width sh len
  return len

/-- `assert(condition)`, the update of the header and `s[len] = '\0'`. The run ends with `false`
where the assertion stops the program, in the memory as it is there. -/
def asserted (s : Ptr) (condition : Exec Mem Bool) (update : Exec Mem Nat) : Exec Mem Bool := do
  let holds ← condition
  if holds then
    let len ← update
    store8 (s.add len) 0
    return true
  else return false

/-- The body of `sdsIncrLen`, ending with `false` at a failed assertion. -/
def incrLenBody (s : Ptr) (incr : Int) : Exec Mem Bool := do
  let flags ← flagsOf s
  match SdsType.ofFlags flags with
  -- the flags byte has the length, and there is no capacity
  | some .type5 =>
      let oldlen := SDS_TYPE_5_LEN flags
      asserted s (type5Allows oldlen incr) (type5Update s oldlen incr)
  | some T =>
      let alloc ← hdrAlloc T s
      let oldlen ← hdrLen T s
      asserted s (fieldAllows T alloc oldlen incr) (fieldUpdate T s oldlen incr)
  -- the branch `default`: the length stays 0
  | none =>
      store8 (s.add 0) 0
      return true

def sdsIncrLen (s : Ptr) (incr : Int) : Exec Mem Unit := do
  let done ← incrLenBody s incr
  if done then return () else throw .abort

/-! ## What the assertions are for -/

/-- The `n` bytes behind the header. -/
def textOf (T : SdsType) (b : Block) (n : Nat) : List UInt8 :=
  (List.range n).map fun k => b.data (T.hdrSize + k)

/-- Block `b'` is block `b` with the length `len + incr` recorded: a well-formed string whose
content is what stood in the block. -/
structure Recorded (T : SdsType) (len cap : Nat) (incr : Int) (b b' : Block) (n : Nat) : Prop where
  length : (n : Int) = len + incr
  le_cap : n ≤ cap
  size : b'.size = b.size
  string : SdsBlock T (textOf T b n) (if T = .type5 then n else cap) b'

/-- An assertion stops the program before anything has been modified, or the length has been
recorded and terminated inside the block. -/
def IncrChecked (m : Mem) (i : Nat) (T : SdsType) (len cap : Nat) (b : Block) (incr : Int) : Prop :=
  ((incrLenBody (handle i T) incr).run m = .ok (false, m) ∧
    (sdsIncrLen (handle i T) incr).run m = .error .abort) ∨
  ∃ m' b' n, (sdsIncrLen (handle i T) incr).run m = .ok ((), m') ∧ m'.blocks i = some b' ∧
    (∀ j, j ≠ i → m'.blocks j = m.blocks j) ∧ Recorded T len cap incr b b' n

/-- The increments that are checked: the negation of a decrement exists, type 5 is not asked to
grow within 31 bytes, and a value that `unsigned int` does not hold is refused after its
conversion. -/
structure IncrCovered (T : SdsType) (len cap : Nat) (incr : Int) : Prop where
  negatable : incr ≠ LONG_MIN
  full : T = .type5 → 0 < incr → 32 ≤ len + incr ∧ len + incr ≤ LONG_MAX
  grow : T = .type32 → 2 ^ 32 ≤ incr → (cap : Int) - len < incr % 2 ^ 32
  shrink : T ≠ .type64 → incr ≤ -2 ^ 32 → (len : Int) < -incr % 2 ^ 32

/-! ## The assertions -/

section Assertions

variable {m : Mem} {T : SdsType} {len cap : Nat} {incr x : Int}

theorem longValue_run (h1 : LONG_MIN ≤ x) (h2 : x ≤ LONG_MAX) (m : Mem) :
    (longValue x).run m = .ok (x, m) := by
  simp [longValue, h1, h2]

theorem longValue_run_overflow (h : ¬(LONG_MIN ≤ x ∧ x ≤ LONG_MAX)) (m : Mem) :
    (longValue x).run m = .error .overflow := by
  simp [longValue, h]

theorem shrinkAllowed_run (h1 : LONG_MIN < incr) (h2 : incr < 0) (m : Mem) :
    (shrinkAllowed T len incr).run m = .ok (decide (T.shrinkOperand (-incr) ≤ len), m) := by
  rw [shrinkAllowed, run_bind_of_ok (longValue_run (by simp [LONG_MIN] at *; omega)
    (by simp [LONG_MIN, LONG_MAX] at *; omega) m)]
  rfl

theorem shrinkAllowed_run_min (m : Mem) :
    (shrinkAllowed T len LONG_MIN).run m = .error .overflow := by
  rw [shrinkAllowed, run_bind_of_error (longValue_run_overflow (by decide) m)]

/-- What the assertion of a header with fields says. -/
def FieldAccepts (T : SdsType) (cap len : Nat) (incr : Int) : Prop :=
  (0 ≤ incr ∧ T.growOperand incr ≤ T.growOperand (cap - len)) ∨
    (incr < 0 ∧ T.shrinkOperand (-incr) ≤ len)

/-- What the assertion of type 5 says. -/
def Type5Accepts (len : Nat) (incr : Int) : Prop :=
  (0 < incr ∧ len + incr < 32) ∨ (incr < 0 ∧ SdsType.type5.shrinkOperand (-incr) ≤ len)

instance (T : SdsType) (cap len : Nat) (incr : Int) : Decidable (FieldAccepts T cap len incr) :=
  inferInstanceAs (Decidable (_ ∨ _))

instance (len : Nat) (incr : Int) : Decidable (Type5Accepts len incr) :=
  inferInstanceAs (Decidable (_ ∨ _))

theorem fieldAllows_run (h : LONG_MIN < incr) (m : Mem) :
    (fieldAllows T cap len incr).run m = .ok (decide (FieldAccepts T cap len incr), m) := by
  rcases lt_or_ge incr 0 with hneg | hpos
  · simp [fieldAllows, FieldAccepts, hneg, not_le.mpr hneg, shrinkAllowed_run h hneg]
  · simp [fieldAllows, FieldAccepts, hpos, not_lt.mpr hpos]

theorem fieldAllows_run_min (m : Mem) :
    (fieldAllows T cap len LONG_MIN).run m = .error .overflow := by
  simp [fieldAllows, shrinkAllowed_run_min, show ¬0 ≤ LONG_MIN by decide]

theorem type5Allows_run (h : LONG_MIN < incr) (hsum : len + incr ≤ LONG_MAX) (m : Mem) :
    (type5Allows len incr).run m = .ok (decide (Type5Accepts len incr), m) := by
  rcases lt_trichotomy incr 0 with hneg | rfl | hpos
  · simp [type5Allows, Type5Accepts, hneg, not_lt.mpr hneg.le, shrinkAllowed_run h hneg]
  · simp [type5Allows, Type5Accepts]
  · have hrun := longValue_run (show LONG_MIN ≤ len + incr by omega) hsum m
    simp [type5Allows, Type5Accepts, hpos, not_lt.mpr hpos.le, hrun]

theorem type5Allows_run_min (m : Mem) :
    (type5Allows len LONG_MIN).run m = .error .overflow := by
  simp [type5Allows, shrinkAllowed_run_min, show ¬0 < LONG_MIN by decide,
    show LONG_MIN < 0 by decide]

/-- The sum asserted for type 5 has to exist even when the assertion is going to fail. -/
theorem type5Allows_run_overflow (hpos : 0 < incr) (hsum : LONG_MAX < len + incr) (m : Mem) :
    (type5Allows len incr).run m = .error .overflow := by
  have hrun := longValue_run_overflow (x := len + incr) (by omega) m
  simp [type5Allows, hpos, hrun]

end Assertions

/-! ## An assertion and what follows it -/

section Asserted

variable {m m' : Mem} {s : Ptr} {condition : Exec Mem Bool} {update : Exec Mem Nat}

theorem asserted_run_refused (h : condition.run m = .ok (false, m)) :
    (asserted s condition update).run m = .ok (false, m) := by
  simp [asserted, h]

theorem asserted_run_error {e : Halt} (h : condition.run m = .error e) :
    (asserted s condition update).run m = .error e := by
  simp [asserted, h]

/-- Once the assertion holds the program is not stopped by it. -/
theorem asserted_ne_refused (h : condition.run m = .ok (true, m)) :
    (asserted s condition update).run m ≠ .ok (false, m') := by
  intro hrun
  rw [asserted, run_bind_of_ok h] at hrun
  obtain ⟨len, m₁, -, hrest⟩ := run_bind_eq_ok hrun
  obtain ⟨u, m₂, -, hend⟩ := run_bind_eq_ok hrest
  cases hend

end Asserted

/-! ## Which increments the assertions let through -/

section Covered

variable {T : SdsType} {len cap : Nat} {incr : Int}

/-- The assertion of a header with fields lets only lengths from 0 to the capacity through, except
where a conversion to `unsigned int` loses something. -/
theorem fieldAccepts_iff_covered (h5 : T ≠ .type5) (hle : len ≤ cap) (hlim : cap < T.limit)
    (hmin : LONG_MIN < incr) (hmax : incr ≤ LONG_MAX) :
    (FieldAccepts T cap len incr → 0 ≤ len + incr ∧ len + incr ≤ cap) ↔
      IncrCovered T len cap incr := by
  rw [LONG_MIN] at hmin
  rw [LONG_MAX] at hmax
  constructor
  · intro h
    refine ⟨by rw [LONG_MIN]; omega, fun h' => absurd h' h5, ?_, ?_⟩
    · rintro rfl hbig
      by_contra hlt
      have := h (Or.inl ⟨by omega, by simp only [SdsType.growOperand, SdsType.limit] at *; omega⟩)
      simp only [SdsType.limit] at hlim
      omega
    · intro h64 hbig
      by_contra hlt
      have hop : T.shrinkOperand (-incr) = -incr % 2 ^ 32 := by
        cases T with
        | type64 => exact absurd rfl h64
        | _ => rfl
      have := h (Or.inr ⟨by omega, by rw [hop]; omega⟩)
      have hcap : cap < 2 ^ 32 := by
        apply Nat.lt_of_lt_of_le hlim
        cases T with
        | type64 => exact absurd rfl h64
        | _ => decide
      omega
  · rintro ⟨-, -, hgrow, hshrink⟩ (⟨hpos, hacc⟩ | ⟨hneg, hacc⟩)
    · cases T with
      | type5 => exact absurd rfl h5
      | type32 =>
          have := hgrow rfl
          simp only [SdsType.growOperand, SdsType.limit] at *
          omega
      | _ =>
          simp only [SdsType.growOperand, SdsType.limit] at *
          omega
    · cases T with
      | type5 => exact absurd rfl h5
      | type64 =>
          simp only [SdsType.shrinkOperand, SdsType.limit] at *
          omega
      | _ =>
          have := hshrink (by decide)
          simp only [SdsType.shrinkOperand, SdsType.limit] at *
          omega

/-- The assertion of type 5 lets a decrement through as the others do, and every increment that
its five bits can record. -/
theorem type5Accepts_iff_covered (hlen : len < 32) (hmin : LONG_MIN < incr)
    (hsum : len + incr ≤ LONG_MAX) :
    (Type5Accepts len incr → 0 ≤ len + incr ∧ incr < 0) ↔ IncrCovered .type5 len cap incr := by
  rw [LONG_MIN] at hmin
  constructor
  · intro h
    refine ⟨by rw [LONG_MIN]; omega, fun _ hpos => ⟨?_, hsum⟩, fun h' => (by cases h'), ?_⟩
    · by_contra hlt
      have := h (Or.inl ⟨hpos, by omega⟩)
      omega
    · intro _ hbig
      by_contra hlt
      have := h (Or.inr ⟨by omega, by simp only [SdsType.shrinkOperand]; omega⟩)
      omega
  · rintro ⟨-, hfull, -, hshrink⟩ (⟨hpos, hacc⟩ | ⟨hneg, hacc⟩)
    · have := hfull rfl hpos
      omega
    · have := hshrink (by decide)
      simp only [SdsType.shrinkOperand] at hacc
      omega

end Covered

/-! ## The update -/

section Update

variable {m : Mem} {i : Nat} {T : SdsType} {c : List UInt8} {cap : Nat} {b : Block} {incr : Int}

theorem textOf_length (T : SdsType) (b : Block) (n : Nat) : (textOf T b n).length = n := by
  simp [textOf]

theorem textOf_getD {k n : Nat} (h : k < n) : (textOf T b n).getD k 0 = b.data (T.hdrSize + k) := by
  simp [textOf, h]

/-- The block after the update and the terminator. -/
def recordLen (T : SdsType) (n : Nat) (b : Block) : Block :=
  (T.withLen n b).patch (T.hdrSize + n) 1 fun _ => 0

/-- Recording a length up to the capacity gives a string whose content is what stands there. -/
theorem recordLen_recorded (h : SdsBlock T c cap b) {n : Nat} (hn : (n : Int) = c.length + incr)
    (hcap : n ≤ cap) : Recorded T c.length cap incr b (recordLen T n b) n where
  length := hn
  le_cap := hcap
  size := by simp [recordLen]
  string := by
    have hlen := textOf_length T b n
    have hs := h.terminated (d := b) (by rw [hlen]; exact hcap) rfl (fun k _ => rfl)
      (fun k hk => (textOf_getD (by rwa [hlen] at hk)).symm)
    rw [hlen] at hs
    rw [recordLen, SdsType.withLen_patch b (Nat.le_add_right _ _)]
    exact hs

/-- The update of the header and the write of the terminator, from the run of the update. -/
theorem asserted_run_recorded (hb : m.blocks i = some b) (h : SdsBlock T c cap b) {n : Nat}
    (hn : n ≤ cap) {condition : Exec Mem Bool} {update : Exec Mem Nat}
    (hcond : condition.run m = .ok (true, m))
    (hupd : update.run m = .ok (n, m.mapBlock i (T.withLen n))) :
    (asserted (handle i T) condition update).run m =
      .ok (true, m.mapBlock i (recordLen T n)) := by
  have hroom := h.room
  have hstore := store8_run (o := T.hdrSize + n) (Mem.mapBlock_blocks_self hb (T.withLen n))
    (by rw [SdsType.withLen_size]; omega) 0
  rw [asserted, run_bind_of_ok hcond, if_pos rfl, run_bind_of_ok hupd]
  rw [handle, Ptr.add_mk, run_bind_of_ok hstore, Mem.mapBlock_mapBlock]
  rfl

theorem fieldUpdate_run (hb : m.blocks i = some b) (h : SdsBlock T c cap b) (h5 : T ≠ .type5)
    {n : Nat} (hn : (n : Int) = c.length + incr) (hcap : n ≤ cap)
    (hmax : T ≠ .type64 → c.length + incr ≤ LONG_MAX) :
    (fieldUpdate T (handle i T) c.length incr).run m =
      .ok (n, m.mapBlock i (T.withLen n)) := by
  have hw := SdsType.hdrSize_eq h5
  have hfits := h.tagged.fits
  have hsum : (fieldSum T c.length incr).run m = .ok ((n : Int), m) := by
    rw [fieldSum, run_ite, ← hn]
    split
    · rfl
    · next h64 =>
        exact longValue_run (by rw [LONG_MIN]; omega) (by rw [hn]; exact hmax h64) m
  have hmod : ((n : Int) % (256 ^ T.width : Nat)).toNat = n := by
    have hlim := h.cap_lt
    rw [SdsType.limit_eq h5] at hlim
    rw [← Int.natCast_emod, Int.toNat_natCast, Nat.mod_eq_of_lt (by omega)]
  have hst := storeField_run (o := 0) (w := T.width) hb (by omega) n
  rw [fieldUpdate, run_bind_of_ok hsum, hmod, run_bind_of_ok (SDS_HDR_run m i T),
    run_bind_of_ok hst]
  have he : (fun b : Block => b.patch 0 T.width (leByte n)) = T.withLen n :=
    funext fun b => (SdsType.withLen_eq h5 n b).symm
  rw [he]
  rfl

theorem type5Update_run (hb : m.blocks i = some b) (h : SdsBlock .type5 c cap b) {n : Nat}
    (hn : (n : Int) = c.length + incr) (hmax : c.length + incr ≤ LONG_MAX) :
    (type5Update (handle i .type5) c.length incr).run m =
      .ok (n, m.mapBlock i (SdsType.type5.withLen n)) := by
  have hsum := longValue_run (x := n) (by rw [LONG_MIN]; omega) (by rw [hn]; exact hmax) m
  have hsub := ptrSub_run (Nat.le_refl 1) (some i) m
  have hst := store8_run (o := 0) hb (by have := h.tagged.fits; exact this)
    (UInt8.ofNat (SdsType.type5.code ||| n <<< SDS_TYPE_BITS))
  rw [type5Update, ← hn, run_bind_of_ok hsum, if_neg (by omega), Int.toNat_natCast]
  show StateT.run (ptrSub ⟨some i, 1⟩ 1 >>= _) m = _
  rw [run_bind_of_ok hsub, run_bind_of_ok hst]
  rfl

end Update

/-! ## Which increments are checked -/

section Checked

variable {m : Mem} {i : Nat} {T : SdsType} {c : List UInt8} {cap : Nat} {b : Block} {incr : Int}

theorem checked_of_refused (h : (incrLenBody (handle i T) incr).run m = .ok (false, m)) :
    IncrChecked m i T c.length cap b incr := by
  refine Or.inl ⟨h, ?_⟩
  rw [sdsIncrLen, run_bind_of_ok h]
  rfl

theorem checked_of_recorded (hb : m.blocks i = some b) (h : SdsBlock T c cap b) {n : Nat}
    (hn : (n : Int) = c.length + incr) (hcap : n ≤ cap)
    (hrun : (incrLenBody (handle i T) incr).run m = .ok (true, m.mapBlock i (recordLen T n))) :
    IncrChecked m i T c.length cap b incr := by
  refine Or.inr ⟨_, recordLen T n b, n, ?_, Mem.mapBlock_blocks_self hb _,
    fun j hj => Mem.mapBlock_blocks_of_ne hj _, recordLen_recorded h hn hcap⟩
  rw [sdsIncrLen, run_bind_of_ok hrun]
  rfl

theorem not_checked_of_error {e : Halt} (h : (incrLenBody (handle i T) incr).run m = .error e) :
    ¬IncrChecked m i T c.length cap b incr := by
  rintro (⟨hrun, -⟩ | ⟨m', b', n, hrun, -⟩)
  · rw [h] at hrun
    cases hrun
  · rw [sdsIncrLen, run_bind_of_error h] at hrun
    cases hrun

/-- An accepted increment is not checked when it leads below 0 or beyond the capacity. -/
theorem not_checked_of_accepted (h : (incrLenBody (handle i T) incr).run m ≠ .ok (false, m))
    (hout : ¬(0 ≤ c.length + incr ∧ c.length + incr ≤ cap)) :
    ¬IncrChecked m i T c.length cap b incr := by
  rintro (⟨hrun, -⟩ | ⟨m', b', n, -, -, -, hrec⟩)
  · exact h hrun
  · have hn := hrec.length
    have hcap := hrec.le_cap
    omega

/-- The body on a string whose header has fields. -/
theorem incrLenBody_run_field (hb : m.blocks i = some b) (h : SdsBlock T c cap b)
    (h5 : T ≠ .type5) :
    (incrLenBody (handle i T) incr).run m = (asserted (handle i T)
      (fieldAllows T cap c.length incr) (fieldUpdate T (handle i T) c.length incr)).run m := by
  have ha := hdrAlloc_run hb h.tagged.fits h5
  have hl := hdrLen_run hb h.tagged.fits h5
  rw [h.alloc] at ha
  rw [h.len] at hl
  rw [incrLenBody, run_bind_of_ok (flagsOf_run hb h.tagged.fits), h.tagged.tag]
  cases T with
  | type5 => exact absurd rfl h5
  | _ =>
      show StateT.run (_ >>= _) m = _
      rw [run_bind_of_ok ha, run_bind_of_ok hl]

/-- The body on a string of type 5. -/
theorem incrLenBody_run_type5 (hb : m.blocks i = some b) (h : SdsBlock .type5 c cap b) :
    (incrLenBody (handle i .type5) incr).run m = (asserted (handle i .type5)
      (type5Allows c.length incr) (type5Update (handle i .type5) c.length incr)).run m := by
  have hl : SDS_TYPE_5_LEN (b.data (SdsType.type5.hdrSize - 1)).toNat = c.length := h.len
  rw [incrLenBody, run_bind_of_ok (flagsOf_run hb h.tagged.fits), h.tagged.tag, hl]

theorem field_checked_iff (hb : m.blocks i = some b) (h : SdsBlock T c cap b) (h5 : T ≠ .type5)
    (hmin : LONG_MIN < incr) (hmax : incr ≤ LONG_MAX) :
    IncrChecked m i T c.length cap b incr ↔ IncrCovered T c.length cap incr := by
  have hlim := h.cap_lt
  have hle := h.len_le
  have hallow : (fieldAllows T cap c.length incr).run m =
      .ok (decide (FieldAccepts T cap c.length incr), m) := fieldAllows_run hmin m
  have hbody : (incrLenBody (handle i T) incr).run m = _ := incrLenBody_run_field hb h h5
  rw [← fieldAccepts_iff_covered h5 hle hlim hmin hmax]
  by_cases hacc : FieldAccepts T cap c.length incr
  · rw [decide_eq_true hacc] at hallow
    constructor
    · intro hchk _
      by_contra hout
      refine not_checked_of_accepted ?_ hout hchk
      rw [hbody]
      exact asserted_ne_refused hallow
    · intro hin
      obtain ⟨h0, hcap⟩ := hin hacc
      obtain ⟨n, hn⟩ := Int.eq_ofNat_of_zero_le h0
      have hncap : n ≤ cap := by omega
      have hlong : T ≠ .type64 → c.length + incr ≤ LONG_MAX := by
        intro h64
        have : cap < 2 ^ 32 := by
          apply Nat.lt_of_lt_of_le hlim
          cases T with
          | type64 => exact absurd rfl h64
          | _ => decide
        rw [LONG_MAX]
        omega
      have hupd := fieldUpdate_run hb h h5 hn.symm hncap hlong
      refine checked_of_recorded hb h hn.symm hncap ?_
      rw [hbody]
      exact asserted_run_recorded hb h hncap hallow hupd
  · rw [decide_eq_false hacc] at hallow
    refine iff_of_true (checked_of_refused ?_) fun hacc' => absurd hacc' hacc
    rw [hbody]
    exact asserted_run_refused hallow

/-- An accepted growth of type 5 puts the terminator behind the block. -/
theorem type5_grown_undefined (hb : m.blocks i = some b) (h : SdsBlock .type5 c cap b)
    (hsize : b.size = SdsType.type5.hdrSize + cap + 1) (hpos : 0 < incr)
    (hsum : c.length + incr < 32) :
    (incrLenBody (handle i .type5) incr).run m = .error .undefined := by
  have hcap := h.cap_eq_of_type5
  obtain ⟨n, hn⟩ := Int.eq_ofNat_of_zero_le (show 0 ≤ c.length + incr by omega)
  have hallow : (type5Allows c.length incr).run m =
      .ok (decide (Type5Accepts c.length incr), m) :=
    type5Allows_run (by rw [LONG_MIN]; omega) (by rw [LONG_MAX]; omega) m
  rw [decide_eq_true (show Type5Accepts c.length incr from Or.inl ⟨hpos, hsum⟩)] at hallow
  have hupd := type5Update_run (n := n) hb h hn.symm (by rw [LONG_MAX]; omega)
  have hb' := Mem.mapBlock_blocks_self hb (SdsType.type5.withLen n)
  have hout : (SdsType.type5.withLen n b).size < SdsType.type5.hdrSize + n + 1 := by
    rw [SdsType.withLen_size, hsize]
    omega
  rw [incrLenBody_run_type5 hb h, asserted, run_bind_of_ok hallow, if_pos rfl,
    run_bind_of_ok hupd, handle, Ptr.add_mk]
  exact run_bind_of_error (writeAt_run_outside hb' hout _) _

theorem type5_checked_iff (hb : m.blocks i = some b) (h : SdsBlock .type5 c cap b)
    (hsize : b.size = SdsType.type5.hdrSize + cap + 1) (hmin : LONG_MIN < incr)
    (hsum : c.length + incr ≤ LONG_MAX) :
    IncrChecked m i .type5 c.length cap b incr ↔ IncrCovered .type5 c.length cap incr := by
  have hlen : c.length < 32 := Nat.lt_of_le_of_lt h.len_le h.cap_lt
  have hcap := h.cap_eq_of_type5
  have hallow : (type5Allows c.length incr).run m =
      .ok (decide (Type5Accepts c.length incr), m) := type5Allows_run hmin hsum m
  have hbody : (incrLenBody (handle i .type5) incr).run m = _ := incrLenBody_run_type5 hb h
  have hiff : _ ↔ IncrCovered .type5 c.length cap incr :=
    type5Accepts_iff_covered hlen hmin hsum
  rw [← hiff]
  by_cases hacc : Type5Accepts c.length incr
  · rw [decide_eq_true hacc] at hallow
    constructor
    · intro hchk _
      by_contra hout
      rcases hacc with ⟨hpos, hlt⟩ | ⟨hneg, -⟩
      · exact not_checked_of_error (type5_grown_undefined hb h hsize hpos hlt) hchk
      · refine not_checked_of_accepted ?_ (by omega) hchk
        rw [hbody]
        exact asserted_ne_refused hallow
    · intro hin
      obtain ⟨h0, hneg⟩ := hin hacc
      obtain ⟨n, hn⟩ := Int.eq_ofNat_of_zero_le h0
      have hncap : n ≤ cap := by omega
      refine checked_of_recorded hb h hn.symm hncap ?_
      rw [hbody]
      exact asserted_run_recorded hb h hncap hallow (type5Update_run hb h hn.symm hsum)
  · rw [decide_eq_false hacc] at hallow
    refine iff_of_true (checked_of_refused ?_) fun hacc' => absurd hacc' hacc
    rw [hbody]
    exact asserted_run_refused hallow

/-- For a string in a block of exactly header, capacity and terminator and for every increment of
type `ssize_t`: the update is checked exactly for the covered increments. -/
theorem sdsIncrLen_checked_iff (hb : m.blocks i = some b) (h : SdsBlock T c cap b)
    (hsize : b.size = T.hdrSize + cap + 1) (hincr : LONG_MIN ≤ incr ∧ incr ≤ LONG_MAX) :
    IncrChecked m i T c.length cap b incr ↔ IncrCovered T c.length cap incr := by
  rcases eq_or_lt_of_le hincr.1 with rfl | hmin
  · refine iff_of_false (not_checked_of_error (e := .overflow) ?_) fun hcov =>
      hcov.negatable rfl
    by_cases h5 : T = .type5
    · subst h5
      rw [incrLenBody_run_type5 hb h]
      exact asserted_run_error (type5Allows_run_min m)
    · rw [incrLenBody_run_field hb h h5]
      exact asserted_run_error (fieldAllows_run_min m)
  · by_cases h5 : T = .type5
    · subst h5
      by_cases hsum : c.length + incr ≤ LONG_MAX
      · exact type5_checked_iff hb h hsize hmin hsum
      · have hlen : c.length < 32 := Nat.lt_of_le_of_lt h.len_le h.cap_lt
        have hpos : 0 < incr := by
          rw [LONG_MAX] at hsum
          omega
        refine iff_of_false (not_checked_of_error (e := .overflow) ?_) fun hcov =>
          hsum (hcov.full rfl hpos).2
        rw [incrLenBody_run_type5 hb h]
        exact asserted_run_error (type5Allows_run_overflow hpos (by omega) m)
    · exact field_checked_iff hb h h5 hmin hincr.2

end Checked

/-- The string `"a"` in a type 8 header without spare room. -/
def fullBlock : Block := ⟨5, ([1, 1, 1, 97, 0].getD · 0)⟩

def fullMem : Mem := Mem.empty.grant fullBlock

theorem full_sds : SdsBlock .type8 [97] 1 fullBlock :=
  { tagged := ⟨by decide, by decide⟩, len := by decide, alloc := by decide, len_le := by decide,
    room := by decide, size_lt := by decide, content := by decide, term := by decide }

/-- The equivalence for removing the only byte of `"a"`. -/
theorem sdsIncrLen_checked_iff_full :
    IncrChecked fullMem 0 .type8 [97].length 1 fullBlock (-1) ↔
      IncrCovered .type8 [97].length 1 (-1) :=
  sdsIncrLen_checked_iff (Mem.grant_blocks_next Mem.empty _) full_sds rfl (by decide)

/-- A decrement by `2 ^ 32` is converted to 0, which the assertion lets through: the function
returns, with the length still 1. -/
theorem sdsIncrLen_clipped :
    outcome ((sdsIncrLen (handle 0 .type8) (-2 ^ 32)).run fullMem) = .ok () ∧
      ¬IncrChecked fullMem 0 .type8 [97].length 1 fullBlock (-2 ^ 32) := by
  have hb : fullMem.blocks 0 = some fullBlock := Mem.grant_blocks_next Mem.empty _
  refine ⟨by rfl, fun h => ?_⟩
  have hcov := (field_checked_iff hb full_sds (by decide) (by decide) (by decide)).mp h
  exact absurd (hcov.shrink (by decide) (by decide)) (by decide)

end CLanguageLearning.Sds
