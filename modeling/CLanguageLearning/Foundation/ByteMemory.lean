import CLanguageLearning.Foundation.Exec
import Mathlib.Data.List.GetD

/-!
# Byte memory with an allocator

Memory is a set of blocks of bytes. A pointer names a block and an offset; the null pointer names
no block, and neither does a pointer computed from it. An access is defined when all its bytes lie
in a live block. The allocator is a parameter: its answer to the `k`-th request is a refusal or the
initial bytes of the new block, so that a statement over all allocators covers every pattern of
failures and every content of fresh memory. Multi-byte fields are little endian.
-/

set_option autoImplicit false

namespace CLanguageLearning.Foundation

/-! ## Little-endian fields -/

/-- The number stored in the `w` bytes `f 0, …, f (w - 1)`, least significant first. -/
def leNat (f : Nat → UInt8) : Nat → Nat
  | 0 => 0
  | w + 1 => leNat f w + (f w).toNat * 256 ^ w

/-- Byte `k` of the number `v`. -/
def leByte (v k : Nat) : UInt8 := UInt8.ofNat (v / 256 ^ k)

theorem leNat_congr {f g : Nat → UInt8} {w : Nat} (h : ∀ k, k < w → f k = g k) :
    leNat f w = leNat g w := by
  induction w with
  | zero => rfl
  | succ w ih => rw [leNat, leNat, ih fun k hk => h k (by omega), h w (by omega)]

/-- Storing a number in `w` bytes keeps it modulo `256 ^ w`. -/
theorem leNat_leByte (v w : Nat) : leNat (leByte v) w = v % 256 ^ w := by
  induction w with
  | zero => simp [leNat, Nat.mod_one]
  | succ w ih =>
      have hb : (leByte v w).toNat = v / 256 ^ w % 256 := by simp [leByte]
      rw [leNat, ih, hb, Nat.mod_pow_succ, Nat.mul_comm]

theorem leNat_lt (f : Nat → UInt8) (w : Nat) : leNat f w < 256 ^ w := by
  induction w with
  | zero => simp [leNat]
  | succ w ih =>
      have hf : (f w).toNat < 256 := (f w).toNat_lt
      have hm : (f w).toNat * 256 ^ w ≤ 255 * 256 ^ w := Nat.mul_le_mul_right _ (by omega)
      rw [leNat, Nat.pow_succ]
      omega

/-! ## Blocks -/

/-- An allocated block: its size and its bytes. Only the bytes below the size exist. -/
structure Block where
  size : Nat
  data : Nat → UInt8

namespace Block

/-- The block with its `n` bytes from `pos` replaced by `f 0, …, f (n - 1)`. -/
def patch (b : Block) (pos n : Nat) (f : Nat → UInt8) : Block where
  size := b.size
  data k := if pos ≤ k ∧ k < pos + n then f (k - pos) else b.data k

/-- The block with `n` bytes that keeps the first bytes of `b`; further ones come from `junk`. -/
def resize (b : Block) (n : Nat) (junk : Nat → UInt8) : Block where
  size := n
  data k := if k < b.size ∧ k < n then b.data k else junk k

@[simp] theorem resize_size (b : Block) (n : Nat) (junk : Nat → UInt8) :
    (b.resize n junk).size = n := rfl

theorem resize_data {b : Block} {n k : Nat} {junk : Nat → UInt8} (hb : k < b.size) (hn : k < n) :
    (b.resize n junk).data k = b.data k :=
  if_pos ⟨hb, hn⟩

@[simp] theorem patch_size (b : Block) (pos n : Nat) (f : Nat → UInt8) :
    (b.patch pos n f).size = b.size := rfl

theorem patch_data_of_lt {b : Block} {pos n k : Nat} {f : Nat → UInt8} (h : k < pos) :
    (b.patch pos n f).data k = b.data k :=
  if_neg (by omega)

theorem patch_data_of_ge {b : Block} {pos n k : Nat} {f : Nat → UInt8} (h : pos + n ≤ k) :
    (b.patch pos n f).data k = b.data k :=
  if_neg (by omega)

theorem patch_data_add {b : Block} {pos n k : Nat} {f : Nat → UInt8} (h : k < n) :
    (b.patch pos n f).data (pos + k) = f k := by
  have hk : pos ≤ pos + k ∧ pos + k < pos + n := by omega
  simp [patch, hk]

/-- Writing no bytes changes nothing. -/
theorem patch_zero (b : Block) (pos : Nat) (f : Nat → UInt8) : b.patch pos 0 f = b := by
  cases b with
  | mk size data =>
      simp only [patch, mk.injEq, true_and]
      funext k
      exact if_neg (by omega)

/-- Writing the bytes that are there changes nothing. -/
theorem patch_self (b : Block) (pos n : Nat) {f : Nat → UInt8}
    (h : ∀ k, k < n → f k = b.data (pos + k)) : b.patch pos n f = b := by
  cases b with
  | mk size data =>
      simp only [patch, mk.injEq, true_and]
      funext k
      by_cases hk : pos ≤ k ∧ k < pos + n
      · rw [if_pos hk, h (k - pos) (by omega)]
        show data (pos + (k - pos)) = data k
        rw [Nat.add_sub_cancel' hk.1]
      · exact if_neg hk

/-- Writes to disjoint ranges commute. -/
theorem patch_comm {p q n k : Nat} (b : Block) (h : p + n ≤ q) (f g : Nat → UInt8) :
    (b.patch p n f).patch q k g = (b.patch q k g).patch p n f := by
  simp only [patch, mk.injEq, true_and]
  funext x
  by_cases hq : q ≤ x ∧ x < q + k
  · rw [if_pos hq, if_neg (by omega), if_pos hq]
  · rw [if_neg hq, if_neg hq]

/-- The block with the bytes `l` at `o`. -/
def put (b : Block) (o : Nat) (l : List UInt8) : Block := b.patch o l.length fun k => l.getD k 0

@[simp] theorem put_size (b : Block) (o : Nat) (l : List UInt8) : (b.put o l).size = b.size := rfl

theorem put_nil (b : Block) (o : Nat) : b.put o [] = b := patch_zero ..

theorem put_data {b : Block} {o k : Nat} {l : List UInt8} (h : k < l.length) :
    (b.put o l).data (o + k) = l.getD k 0 := patch_data_add h

theorem put_singleton (b : Block) (o : Nat) (c : UInt8) :
    b.put o [c] = b.patch o 1 fun _ => c := by
  simp only [put, patch, mk.injEq, true_and, List.length_singleton]
  funext k
  by_cases hk : o ≤ k ∧ k < o + 1
  · rw [if_pos hk, if_pos hk, Nat.sub_eq_zero_of_le (by omega), List.getD_cons_zero]
  · rw [if_neg hk, if_neg hk]

/-- Bytes written behind the first `l`, over those that were there. -/
theorem put_put (b : Block) (o : Nat) {l r l' : List UInt8} (h : r.length ≤ l'.length) :
    (b.put o (l ++ r)).put (o + l.length) l' = b.put o (l ++ l') := by
  simp only [put, patch, mk.injEq, true_and, List.length_append]
  funext k
  by_cases hlate : o + l.length ≤ k ∧ k < o + l.length + l'.length
  · rw [if_pos hlate, if_pos (by omega), List.getD_append_right _ _ _ _ (by omega)]
    congr 1
    omega
  · rw [if_neg hlate]
    by_cases hearly : o ≤ k ∧ k < o + l.length
    · rw [if_pos (by omega), if_pos (by omega), List.getD_append _ _ _ _ (by omega),
        List.getD_append _ _ _ _ (by omega)]
    · rw [if_neg (by omega), if_neg (by omega)]

end Block

/-! ## Memory -/

/-- A pointer: a block, or none for the null pointer and what is computed from it, and an offset. -/
structure Ptr where
  block : Option Nat
  off : Nat
  deriving DecidableEq, Repr

namespace Ptr

/-- The null pointer. -/
def null : Ptr := ⟨none, 0⟩

/-- Pointer plus offset. -/
def add (p : Ptr) (n : Nat) : Ptr := ⟨p.block, p.off + n⟩

@[simp] theorem add_mk (o : Option Nat) (k n : Nat) : (Ptr.mk o k).add n = ⟨o, k + n⟩ := rfl

/-- A pointer into a block is not null. -/
theorem mk_ne_null (i o : Nat) : (⟨some i, o⟩ : Ptr) ≠ Ptr.null := by simp [Ptr.null]

end Ptr

/-- One request made to the allocator. -/
structure Request where
  size : Nat
  granted : Bool
  deriving DecidableEq, Repr

/-- Memory: the live blocks, the name of the next block and the log of requests, newest first.
Names from `next` on are unused. -/
structure Mem where
  blocks : Nat → Option Block
  next : Nat
  requests : List Request
  unused : ∀ i, next ≤ i → blocks i = none

/-- An allocator, by its answer to the request with a given number. -/
abbrev Allocator := Nat → Option (Nat → UInt8)

namespace Mem

/-- Memory without blocks. -/
def empty : Mem := ⟨fun _ => none, 0, [], fun _ _ => rfl⟩

theorem lt_next {m : Mem} {i : Nat} {b : Block} (h : m.blocks i = some b) : i < m.next := by
  by_contra hge
  rw [m.unused i (by omega)] at h
  cases h

/-- A new block for a granted request. -/
def grant (m : Mem) (b : Block) : Mem where
  blocks j := if j = m.next then some b else m.blocks j
  next := m.next + 1
  requests := ⟨b.size, true⟩ :: m.requests
  unused j hj := by rw [if_neg (by omega)]; exact m.unused j (by omega)

/-- A refused request. -/
def refuse (m : Mem) (n : Nat) : Mem := { m with requests := ⟨n, false⟩ :: m.requests }

/-- Apply `f` to block `i`. -/
def mapBlock (m : Mem) (i : Nat) (f : Block → Block) : Mem where
  blocks j := if j = i then (m.blocks i).map f else m.blocks j
  next := m.next
  requests := m.requests
  unused j hj := by
    by_cases h : j = i
    · rw [if_pos h, ← h, m.unused j hj]; rfl
    · rw [if_neg h]; exact m.unused j hj

/-- Give block `i` back. -/
def release (m : Mem) (i : Nat) : Mem where
  blocks j := if j = i then none else m.blocks j
  next := m.next
  requests := m.requests
  unused j hj := by
    by_cases h : j = i
    · rw [if_pos h]
    · rw [if_neg h]; exact m.unused j hj

@[simp] theorem grant_blocks_next (m : Mem) (b : Block) :
    (m.grant b).blocks m.next = some b := if_pos rfl

theorem grant_blocks_of_ne {m : Mem} {j : Nat} (h : j ≠ m.next) (b : Block) :
    (m.grant b).blocks j = m.blocks j := if_neg h

theorem grant_blocks_of_some {m : Mem} {j : Nat} {b : Block} (h : m.blocks j = some b)
    (b' : Block) : (m.grant b').blocks j = some b := by
  rw [grant_blocks_of_ne (Nat.ne_of_lt (lt_next h)), h]

theorem mapBlock_blocks_self {m : Mem} {i : Nat} {b : Block} (h : m.blocks i = some b)
    (f : Block → Block) : (m.mapBlock i f).blocks i = some (f b) := by
  simp [mapBlock, h]

theorem mapBlock_blocks_of_ne {m : Mem} {i j : Nat} (h : j ≠ i) (f : Block → Block) :
    (m.mapBlock i f).blocks j = m.blocks j := if_neg h

@[simp] theorem release_blocks_self (m : Mem) (i : Nat) : (m.release i).blocks i = none :=
  if_pos rfl

theorem release_blocks_of_ne {m : Mem} {i j : Nat} (h : j ≠ i) :
    (m.release i).blocks j = m.blocks j := if_neg h

/-- Two updates of one block are one update. -/
theorem mapBlock_mapBlock (m : Mem) (i : Nat) (f g : Block → Block) :
    (m.mapBlock i f).mapBlock i g = m.mapBlock i (g ∘ f) := by
  cases m with
  | mk blocks next requests unused =>
      simp only [mapBlock, mk.injEq, and_true]
      funext j
      by_cases h : j = i
      · simp [h]
      · simp [h]

theorem mapBlock_id (m : Mem) (i : Nat) : (m.mapBlock i fun b => b) = m := by
  cases m with
  | mk blocks next requests unused =>
      simp only [mapBlock, mk.injEq, and_true]
      funext j
      by_cases h : j = i
      · rw [if_pos h, h, Option.map_id']
      · rw [if_neg h]

/-- An update that leaves the block as it is changes nothing. -/
theorem mapBlock_eq_self {m : Mem} {i : Nat} {b : Block} {f : Block → Block}
    (hb : m.blocks i = some b) (hf : f b = b) : m.mapBlock i f = m := by
  cases m with
  | mk blocks next requests unused =>
      simp only [mapBlock, mk.injEq, and_true]
      funext j
      by_cases h : j = i
      · subst h
        change blocks j = some b at hb
        rw [if_pos rfl, hb, Option.map_some, hf]
      · rw [if_neg h]

/-- What an operation on the object in block `i` may do to memory: the object is now in block `j`,
which is block `i` or new, a block it has left is given back, and other blocks are as before. -/
structure Moved (m m' : Mem) (i j : Nat) : Prop where
  keeps : ∀ k, k ≠ i → k < m.next → m'.blocks k = m.blocks k
  next_le : m.next ≤ m'.next
  target : j = i ∨ m.next ≤ j
  freed : j ≠ i → m'.blocks i = none

namespace Moved

variable {m m' : Mem} {i j : Nat}

theorem refl (m : Mem) (i : Nat) : Moved m m i i where
  keeps _ _ _ := rfl
  next_le := Nat.le_refl _
  target := Or.inl rfl
  freed h := absurd rfl h

/-- An update in place before. -/
theorem trans {m₁ : Mem} (h : Moved m m₁ i i) (h' : Moved m₁ m' i j) : Moved m m' i j where
  keeps k hk hlt := by rw [h'.keeps k hk (Nat.lt_of_lt_of_le hlt h.next_le), h.keeps k hk hlt]
  next_le := Nat.le_trans h.next_le h'.next_le
  target := h'.target.imp_right (Nat.le_trans h.next_le)
  freed := h'.freed

/-- One operation after another on a live object. -/
theorem comp {m₁ : Mem} {k : Nat} (h : Moved m m₁ i j) (h' : Moved m₁ m' j k) (hi : i < m.next) :
    Moved m m' i k where
  keeps x hx hlt := by
    have hxj : x ≠ j := by
      rcases h.target with rfl | hj
      · exact hx
      · omega
    rw [h'.keeps x hxj (Nat.lt_of_lt_of_le hlt h.next_le), h.keeps x hx hlt]
  next_le := Nat.le_trans h.next_le h'.next_le
  target := by
    rcases h'.target with rfl | hk
    · exact h.target
    · exact Or.inr (Nat.le_trans h.next_le hk)
  freed hk := by
    rcases eq_or_ne j i with rfl | hj
    · exact h'.freed hk
    · rw [h'.keeps i (Ne.symm hj) (Nat.lt_of_lt_of_le hi h.next_le), h.freed hj]

/-- Writing to the object afterwards changes nothing else. -/
theorem mapBlock (h : Moved m m' i j) (f : Block → Block) : Moved m (m'.mapBlock j f) i j where
  keeps k hk hlt := by
    have hkj : k ≠ j := by
      rcases h.target with rfl | hj
      · exact hk
      · omega
    rw [mapBlock_blocks_of_ne hkj, h.keeps k hk hlt]
  next_le := h.next_le
  target := h.target
  freed hj := by rw [mapBlock_blocks_of_ne (Ne.symm hj), h.freed hj]

end Moved

/-- The blocks of `m` are as they were; there may be new ones. -/
structure Extends (m m' : Mem) : Prop where
  next_le : m.next ≤ m'.next
  keeps : ∀ k, k < m.next → m'.blocks k = m.blocks k

namespace Extends

variable {m m' m'' : Mem} {i j : Nat} {b : Block}

theorem refl (m : Mem) : Extends m m := ⟨Nat.le_refl _, fun _ _ => rfl⟩

theorem trans (h : Extends m m') (h' : Extends m' m'') : Extends m m'' where
  next_le := Nat.le_trans h.next_le h'.next_le
  keeps k hk := by rw [h'.keeps k (Nat.lt_of_lt_of_le hk h.next_le), h.keeps k hk]

/-- An object that is not one of `m` is moved. -/
theorem moved (h : Extends m m') (hm : Moved m' m'' i j) (hi : m.next ≤ i) : Extends m m'' where
  next_le := Nat.le_trans h.next_le hm.next_le
  keeps k hk := by
    rw [hm.keeps k (by omega) (Nat.lt_of_lt_of_le hk h.next_le), h.keeps k hk]

theorem block (h : Extends m m') (hb : m.blocks i = some b) : m'.blocks i = some b := by
  rw [h.keeps i (lt_next hb), hb]

end Extends

end Mem

/-! ## Accesses -/

/-- The block behind the `n` bytes at `p`, when all of them exist. -/
def access (p : Ptr) (n : Nat) : Exec Mem (Nat × Block) := do
  let m ← get
  match p.block with
  | none => throw .undefined
  | some i =>
      match m.blocks i with
      | none => throw .undefined
      | some b => if p.off + n ≤ b.size then return (i, b) else throw .undefined

/-- Read the `n` bytes at `p`; the result is meaningful below `n`. -/
def readAt (p : Ptr) (n : Nat) : Exec Mem (Nat → UInt8) := do
  let (_, b) ← access p n
  return fun k => b.data (p.off + k)

/-- Write `f 0, …, f (n - 1)` at `p`. -/
def writeAt (p : Ptr) (n : Nat) (f : Nat → UInt8) : Exec Mem Unit := do
  let (i, _) ← access p n
  modify fun m => m.mapBlock i fun b => b.patch p.off n f

/-- `p - n`; a pointer before the start of its block is not defined. -/
def ptrSub (p : Ptr) (n : Nat) : Exec Mem Ptr :=
  if n ≤ p.off then return ⟨p.block, p.off - n⟩ else throw .undefined

/-- Read the byte at `p`. -/
def load8 (p : Ptr) : Exec Mem UInt8 := do
  let f ← readAt p 1
  return f 0

/-- Write the byte at `p`. -/
def store8 (p : Ptr) (v : UInt8) : Exec Mem Unit := writeAt p 1 fun _ => v

/-- Read an unsigned field of `w` bytes. -/
def loadField (w : Nat) (p : Ptr) : Exec Mem Nat := do
  let f ← readAt p w
  return leNat f w

/-- Write an unsigned field of `w` bytes; the value is truncated to the field. -/
def storeField (w : Nat) (p : Ptr) (v : Nat) : Exec Mem Unit := writeAt p w (leByte v)

section Access

variable {m : Mem} {i o n : Nat} {b : Block}

theorem access_run (hb : m.blocks i = some b) (h : o + n ≤ b.size) :
    (access ⟨some i, o⟩ n).run m = .ok ((i, b), m) := by
  simp [access, hb, h]

theorem access_run_outside (hb : m.blocks i = some b) (h : b.size < o + n) :
    (access ⟨some i, o⟩ n).run m = .error .undefined := by
  simp [access, hb, Nat.not_le.mpr h]

theorem readAt_run (hb : m.blocks i = some b) (h : o + n ≤ b.size) :
    (readAt ⟨some i, o⟩ n).run m = .ok (fun k => b.data (o + k), m) := by
  simp [readAt, access_run hb h]

theorem readAt_run_outside (hb : m.blocks i = some b) (h : b.size < o + n) :
    (readAt ⟨some i, o⟩ n).run m = .error .undefined := by
  simp [readAt, access_run_outside hb h]

theorem writeAt_run (hb : m.blocks i = some b) (h : o + n ≤ b.size) (f : Nat → UInt8) :
    (writeAt ⟨some i, o⟩ n f).run m = .ok ((), m.mapBlock i fun b => b.patch o n f) := by
  simp [writeAt, access_run hb h]

theorem writeAt_run_outside (hb : m.blocks i = some b) (h : b.size < o + n) (f : Nat → UInt8) :
    (writeAt ⟨some i, o⟩ n f).run m = .error .undefined := by
  simp [writeAt, access_run_outside hb h]

theorem ptrSub_run (h : n ≤ o) (p : Option Nat) (m : Mem) :
    (ptrSub ⟨p, o⟩ n).run m = .ok (⟨p, o - n⟩, m) := by
  simp [ptrSub, h]

theorem load8_run (hb : m.blocks i = some b) (h : o < b.size) :
    (load8 ⟨some i, o⟩).run m = .ok (b.data o, m) := by
  simp [load8, readAt_run hb (show o + 1 ≤ b.size from h)]

@[simp] theorem load8_run_none (m : Mem) (o : Nat) :
    (load8 ⟨none, o⟩).run m = .error .undefined := rfl

theorem store8_run (hb : m.blocks i = some b) (h : o < b.size) (v : UInt8) :
    (store8 ⟨some i, o⟩ v).run m = .ok ((), m.mapBlock i fun b => b.patch o 1 fun _ => v) :=
  writeAt_run hb h _

theorem loadField_run {w : Nat} (hb : m.blocks i = some b) (h : o + w ≤ b.size) :
    (loadField w ⟨some i, o⟩).run m = .ok (leNat (fun k => b.data (o + k)) w, m) := by
  simp [loadField, readAt_run hb h]

theorem storeField_run {w : Nat} (hb : m.blocks i = some b) (h : o + w ≤ b.size) (v : Nat) :
    (storeField w ⟨some i, o⟩ v).run m =
      .ok ((), m.mapBlock i fun b => b.patch o w (leByte v)) :=
  writeAt_run hb h _

end Access

/-! ## The allocator's functions -/

/-- `malloc(n)`. -/
def malloc (al : Allocator) (n : Nat) : Exec Mem Ptr := do
  let m ← get
  match al m.requests.length with
  | none => set (m.refuse n); return Ptr.null
  | some junk => set (m.grant ⟨n, junk⟩); return ⟨some m.next, 0⟩

/-- `free(p)`: nothing for the null pointer, otherwise the start of a live block. -/
def free (p : Ptr) : Exec Mem Unit := do
  if p = Ptr.null then return ()
  match p.block with
  | none => throw .undefined
  | some i =>
      let (_, _) ← access p 0
      if p.off = 0 then modify fun m => m.release i else throw .undefined

/-- `realloc(p, n)` of a live block: a refusal leaves the block as it is, a grant moves its bytes
to a new block of `n` bytes and gives the old one back. -/
def realloc (al : Allocator) (p : Ptr) (n : Nat) : Exec Mem Ptr := do
  let (i, b) ← access p 0
  if p.off ≠ 0 then throw .undefined
  let m ← get
  match al m.requests.length with
  | none => set (m.refuse n); return Ptr.null
  | some junk =>
      set ((m.grant (b.resize n junk)).release i)
      return ⟨some m.next, 0⟩

section Allocator

variable {al : Allocator} {m : Mem} {i n : Nat} {b : Block}

theorem malloc_run_refused (h : al m.requests.length = none) :
    (malloc al n).run m = .ok (Ptr.null, m.refuse n) := by
  simp [malloc, h]

theorem malloc_run_granted {junk : Nat → UInt8} (h : al m.requests.length = some junk) :
    (malloc al n).run m = .ok (⟨some m.next, 0⟩, m.grant ⟨n, junk⟩) := by
  simp [malloc, h]

theorem free_run (hb : m.blocks i = some b) :
    (free ⟨some i, 0⟩).run m = .ok ((), m.release i) := by
  simp [free, Ptr.mk_ne_null, access_run (o := 0) (n := 0) hb (Nat.zero_le _)]

theorem realloc_run_refused (hb : m.blocks i = some b) (h : al m.requests.length = none) :
    (realloc al ⟨some i, 0⟩ n).run m = .ok (Ptr.null, m.refuse n) := by
  simp [realloc, access_run (o := 0) (n := 0) hb (Nat.zero_le _), h]

theorem realloc_run_granted (hb : m.blocks i = some b) {junk : Nat → UInt8}
    (h : al m.requests.length = some junk) :
    (realloc al ⟨some i, 0⟩ n).run m =
      .ok (⟨some m.next, 0⟩, (m.grant (b.resize n junk)).release i) := by
  simp [realloc, access_run (o := 0) (n := 0) hb (Nat.zero_le _), h]

end Allocator

/-! ## Copying and comparing -/

/-- Where a copy reads from: bytes outside the allocator's blocks, such as a literal or an array of
the caller, or a pointer into a block. -/
inductive Source where
  | bytes (l : List UInt8)
  | mem (p : Ptr)

namespace Source

/-- The first `n` bytes of the source. -/
def read : Source → Nat → Exec Mem (Nat → UInt8)
  | bytes l, n => if n ≤ l.length then return fun k => l.getD k 0 else throw .undefined
  | mem p, n => readAt p n

/-- Whether the `n` bytes of the source share a byte with the `n` bytes at `dst`. -/
def overlaps (src : Source) (dst : Ptr) (n : Nat) : Bool :=
  match src with
  | bytes _ => false
  | mem p => p.block == dst.block && decide (p.off < dst.off + n) && decide (dst.off < p.off + n)

/-- The first bytes of the source in memory `m` are `l`. -/
def Holds (m : Mem) (l : List UInt8) : Source → Prop
  | bytes l' => l <+: l'
  | mem p => ∃ i b, p.block = some i ∧ m.blocks i = some b ∧ p.off + l.length ≤ b.size ∧
      ∀ k, k < l.length → b.data (p.off + k) = l.getD k 0

/-- The source does not lie in block `i`. -/
def Avoids (i : Nat) : Source → Prop
  | bytes _ => True
  | mem p => p.block ≠ some i

theorem read_run {m : Mem} {l : List UInt8} {src : Source} (h : src.Holds m l) :
    ∃ f, (src.read l.length).run m = .ok (f, m) ∧ ∀ k, k < l.length → f k = l.getD k 0 := by
  cases src with
  | bytes l' =>
      obtain ⟨t, rfl⟩ := h
      refine ⟨_, by simp [read]; rfl, fun k hk => ?_⟩
      exact List.getD_append l t 0 k hk
  | mem p =>
      obtain ⟨i, b, hp, hb, hle, hl⟩ := h
      obtain ⟨o, k⟩ := p
      subst hp
      exact ⟨_, readAt_run hb hle, hl⟩

theorem overlaps_of_avoids {src : Source} {i : Nat} (h : src.Avoids i) (o n : Nat) :
    src.overlaps ⟨some i, o⟩ n = false := by
  cases src with
  | bytes l => rfl
  | mem p =>
      have hp : (p.block == some i) = false := beq_false_of_ne h
      simp [overlaps, hp]

/-- A source outside the object of block `i` is not touched by an operation on that object. -/
theorem Holds.moved {m m' : Mem} {i j : Nat} {l : List UInt8} {src : Source}
    (h : src.Holds m l) (hav : src.Avoids i) (hm : m.Moved m' i j) :
    src.Holds m' l ∧ src.Avoids j := by
  cases src with
  | bytes l' => exact ⟨h, trivial⟩
  | mem p =>
      obtain ⟨k, b, hp, hb, hle, hl⟩ := h
      have hki : k ≠ i := by
        intro he
        exact hav (by rw [hp, he])
      have hlt := Mem.lt_next hb
      have hkj : k ≠ j := by
        rcases hm.target with rfl | hj
        · exact hki
        · omega
      refine ⟨⟨k, b, hp, ?_, hle, hl⟩, ?_⟩
      · rw [hm.keeps k hki hlt, hb]
      · show p.block ≠ some j
        rw [hp]
        exact fun he => hkj (Option.some.inj he)

/-- The source from its byte `n` on. -/
def drop : Source → Nat → Source
  | bytes l, n => bytes (l.drop n)
  | mem p, n => mem (p.add n)

theorem Holds.drop {m : Mem} {l : List UInt8} {src : Source} (h : src.Holds m l) {n : Nat}
    (hn : n ≤ l.length) : (src.drop n).Holds m (l.drop n) := by
  cases src with
  | bytes l' => exact List.IsPrefix.drop h n
  | mem p =>
      obtain ⟨i, b, hp, hb, hle, hl⟩ := h
      refine ⟨i, b, hp, hb, ?_, fun k hk => ?_⟩
      · rw [List.length_drop]
        show p.off + n + (l.length - n) ≤ b.size
        omega
      · rw [List.length_drop] at hk
        show b.data (p.off + n + k) = _
        rw [Nat.add_assoc, hl (n + k) (by omega)]
        simp [List.getD_eq_getElem?_getD]

theorem Holds.of_prefix {m : Mem} {l l' : List UInt8} {src : Source} (h : src.Holds m l)
    (hl : l' <+: l) : src.Holds m l' := by
  obtain ⟨r, rfl⟩ := hl
  cases src with
  | bytes l'' => exact (List.prefix_append l' r).trans h
  | mem p =>
      obtain ⟨i, b, hp, hb, hle, hdata⟩ := h
      rw [List.length_append] at hle hdata
      refine ⟨i, b, hp, hb, by omega, fun k hk => ?_⟩
      rw [hdata k (by omega), List.getD_append _ _ _ _ hk]

/-- A source in the blocks of `m`. -/
theorem Holds.extends {m m' : Mem} {l : List UInt8} {src : Source} (h : src.Holds m l)
    (hm : m.Extends m') : src.Holds m' l := by
  cases src with
  | bytes l' => exact h
  | mem p =>
      obtain ⟨i, b, hp, hb, hle, hl⟩ := h
      exact ⟨i, b, hp, hm.block hb, hle, hl⟩

/-- A new block is not where a source lies. -/
theorem Holds.avoids {m : Mem} {l : List UInt8} {src : Source} (h : src.Holds m l) {i : Nat}
    (hi : m.next ≤ i) : src.Avoids i := by
  cases src with
  | bytes l' => trivial
  | mem p =>
      obtain ⟨k, b, hp, hb, -⟩ := h
      have hlt := Mem.lt_next hb
      show p.block ≠ some i
      rw [hp]
      exact fun he => absurd (Option.some.inj he) (by omega)

end Source

/-- `memcpy(dst, src, n)`; overlapping objects are not defined. -/
def memcpy (dst : Ptr) (src : Source) (n : Nat) : Exec Mem Unit := do
  if src.overlaps dst n then throw .undefined
  let f ← src.read n
  writeAt dst n f

/-- `memmove(dst, src, n)`. -/
def memmove (dst src : Ptr) (n : Nat) : Exec Mem Unit := do
  let f ← readAt src n
  writeAt dst n f

/-- `memset(dst, v, n)`. -/
def memset (dst : Ptr) (v : UInt8) (n : Nat) : Exec Mem Unit := writeAt dst n fun _ => v

/-- The difference of the first bytes that differ, as unsigned numbers, or 0. -/
def compareBytes (f g : Nat → UInt8) : Nat → Int
  | 0 => 0
  | n + 1 =>
      let r := compareBytes f g n
      if r ≠ 0 then r else ((f n).toNat : Int) - (g n).toNat

/-- The sign of the comparison is decided by the first bytes that differ. -/
theorem compareBytes_cases (f g : Nat → UInt8) (n : Nat) :
    (compareBytes f g n = 0 ∧ ∀ k, k < n → f k = g k) ∨
    (compareBytes f g n < 0 ∧ ∃ k, k < n ∧ (∀ j, j < k → f j = g j) ∧ f k < g k) ∨
    (0 < compareBytes f g n ∧ ∃ k, k < n ∧ (∀ j, j < k → f j = g j) ∧ g k < f k) := by
  induction n with
  | zero => exact Or.inl ⟨rfl, fun k hk => absurd hk (Nat.not_lt_zero k)⟩
  | succ n ih =>
      rw [compareBytes]
      rcases ih with ⟨hr, heq⟩ | ⟨hr, k, hk, heq, hlt⟩ | ⟨hr, k, hk, heq, hlt⟩
      · rw [if_neg (not_not_intro hr)]
        rcases Nat.lt_trichotomy (f n).toNat (g n).toNat with hlt | he | hgt
        · exact Or.inr (Or.inl ⟨by omega, n, Nat.lt_succ_self n, heq, UInt8.lt_iff_toNat_lt.mpr hlt⟩)
        · refine Or.inl ⟨by omega, fun k hk => ?_⟩
          rcases Nat.lt_succ_iff_lt_or_eq.mp hk with hk | rfl
          · exact heq k hk
          · exact UInt8.toNat_inj.mp he
        · exact Or.inr (Or.inr ⟨by omega, n, Nat.lt_succ_self n, heq, UInt8.lt_iff_toNat_lt.mpr hgt⟩)
      · rw [if_pos (by omega)]
        exact Or.inr (Or.inl ⟨hr, k, Nat.lt_succ_of_lt hk, heq, hlt⟩)
      · rw [if_pos (by omega)]
        exact Or.inr (Or.inr ⟨hr, k, Nat.lt_succ_of_lt hk, heq, hlt⟩)

/-- `memcmp(p, q, n)`: all `n` bytes of both objects have to exist. -/
def memcmp (p q : Ptr) (n : Nat) : Exec Mem Int := do
  let f ← readAt p n
  let g ← readAt q n
  return compareBytes f g n

/-- The byte `n` of a source. -/
def sourceAt (src : Source) (n : Nat) : Exec Mem UInt8 := do
  let f ← (src.drop n).read 1
  return f 0

/-- `memcmp` of the first `n` bytes of two sources. -/
def memcmpSource (src src' : Source) (n : Nat) : Exec Mem Int := do
  let f ← src.read n
  let g ← src'.read n
  return compareBytes f g n

/-- The number of bytes that exist from the start of the source on. -/
def Source.extent (m : Mem) : Source → Nat
  | bytes l => l.length
  | mem p => (p.block.bind m.blocks).elim 0 fun b => b.size - p.off

/-- The bytes from `n` on up to the terminator, in at most the given number of turns. -/
def strlenLoop (src : Source) : Nat → Nat → Exec Mem Nat
  | 0, _ => throw .undefined
  | fuel + 1, n => do
      let c ← sourceAt src n
      if c = 0 then return n else strlenLoop src fuel (n + 1)

/-- `strlen(src)`; without a terminator in the object it has no meaning. -/
def strlen (src : Source) : Exec Mem Nat := do
  let m ← get
  strlenLoop src (src.extent m) 0

section Sources

variable {m : Mem} {l l' : List UInt8} {src src' : Source}

theorem sourceAt_run (h : src.Holds m l) {n : Nat} (hn : n < l.length) :
    (sourceAt src n).run m = .ok (l[n], m) := by
  have hone : (src.drop n).Holds m [l[n]] := by
    have htail : [l[n]] ++ l.drop (n + 1) = l.drop n := (List.drop_eq_getElem_cons hn).symm
    exact Source.Holds.of_prefix (h.drop hn.le) ⟨l.drop (n + 1), htail⟩
  obtain ⟨f, hf, hk⟩ := Source.read_run hone
  rw [sourceAt]
  exact (run_bind_of_ok hf _).trans (by rw [hk 0 (by simp)]; rfl)

theorem Source.Holds.length_le (h : src.Holds m l) : l.length ≤ src.extent m := by
  cases src with
  | bytes l' => exact List.IsPrefix.length_le h
  | mem p =>
      obtain ⟨i, b, hp, hb, hle, -⟩ := h
      rw [Source.extent, hp, Option.bind_some, hb, Option.elim_some]
      omega

theorem strlenLoop_run (h : src.Holds m (l ++ [0])) (hz : 0 ∉ l) (fuel : Nat) :
    ∀ n, n ≤ l.length → l.length - n < fuel →
      (strlenLoop src fuel n).run m = .ok (l.length, m) := by
  induction fuel with
  | zero =>
      intro n _ hfuel
      omega
  | succ fuel ih =>
      intro n hn hfuel
      have hin : n < (l ++ [0]).length := by
        rw [List.length_append]
        exact Nat.lt_succ_of_le hn
      rw [strlenLoop, run_bind_of_ok (sourceAt_run h hin)]
      rcases Nat.eq_or_lt_of_le hn with rfl | hlt
      · simp
      · have hne : (l ++ [0])[n] ≠ 0 := by
          rw [List.getElem_append_left hlt]
          exact fun he => hz (he ▸ List.getElem_mem hlt)
        rw [if_neg hne]
        exact ih (n + 1) hlt (by omega)

/-- The length of a C string is that of what stands in front of its terminator. -/
theorem strlen_run (h : src.Holds m (l ++ [0])) (hz : 0 ∉ l) :
    (strlen src).run m = .ok (l.length, m) := by
  have hle := h.length_le
  rw [List.length_append, List.length_singleton] at hle
  exact strlenLoop_run h hz _ 0 (Nat.zero_le _) (by omega)

/-- Equal bytes compare as 0, and only they do. -/
theorem memcmpSource_run (h : src.Holds m l) (h' : src'.Holds m l') (hlen : l.length = l'.length) :
    ∃ r, (memcmpSource src src' l'.length).run m = .ok (r, m) ∧ (r = 0 ↔ l = l') := by
  obtain ⟨f, hf, hfk⟩ := Source.read_run h
  obtain ⟨g, hg, hgk⟩ := Source.read_run h'
  rw [hlen] at hf
  refine ⟨compareBytes f g l'.length, ?_, ?_⟩
  · rw [memcmpSource, run_bind_of_ok hf, run_bind_of_ok hg]
    rfl
  · constructor
    · intro hr
      have hall : ∀ k, k < l'.length → f k = g k := by
        rcases compareBytes_cases f g l'.length with ⟨-, heq⟩ | ⟨hneg, -⟩ | ⟨hpos, -⟩
        · exact heq
        · omega
        · omega
      refine List.ext_getElem hlen fun k hk hk' => ?_
      have hkeq := hall k hk'
      rwa [hfk k hk, hgk k hk', List.getD_eq_getElem _ _ hk, List.getD_eq_getElem _ _ hk'] at hkeq
    · rintro rfl
      have heq : ∀ k, k < l.length → f k = g k := fun k hk => by rw [hfk k hk, hgk k hk]
      rcases compareBytes_cases f g l.length with ⟨hr, -⟩ | ⟨-, k, hk, -, hlt⟩ | ⟨-, k, hk, -, hlt⟩
      · exact hr
      · rw [heq k hk] at hlt
        exact absurd hlt (UInt8.lt_irrefl _)
      · rw [heq k hk] at hlt
        exact absurd hlt (UInt8.lt_irrefl _)

end Sources

section Copy

variable {m : Mem} {i o n : Nat} {b : Block}

theorem memcpy_run {l : List UInt8} {src : Source} (hb : m.blocks i = some b)
    (h : o + l.length ≤ b.size) (hs : src.Holds m l) (hav : src.Avoids i) :
    ∃ f, (memcpy ⟨some i, o⟩ src l.length).run m =
        .ok ((), m.mapBlock i fun b => b.patch o l.length f) ∧
      ∀ k, k < l.length → f k = l.getD k 0 := by
  obtain ⟨f, hf, hk⟩ := Source.read_run hs
  refine ⟨f, ?_, hk⟩
  simp [memcpy, Source.overlaps_of_avoids hav, hf, writeAt_run hb h]

theorem memmove_run {q : Nat} (hb : m.blocks i = some b) (h : o + n ≤ b.size)
    (h' : q + n ≤ b.size) :
    (memmove ⟨some i, o⟩ ⟨some i, q⟩ n).run m =
      .ok ((), m.mapBlock i fun b' => b'.patch o n fun k => b.data (q + k)) := by
  simp [memmove, readAt_run hb h', writeAt_run hb h]

theorem memset_run (hb : m.blocks i = some b) (h : o + n ≤ b.size) (v : UInt8) :
    (memset ⟨some i, o⟩ v n).run m = .ok ((), m.mapBlock i fun b => b.patch o n fun _ => v) :=
  writeAt_run hb h _

theorem memcmp_run {j p q : Nat} {d : Block} (hb : m.blocks i = some b) (hd : m.blocks j = some d)
    (h : p + n ≤ b.size) (h' : q + n ≤ d.size) :
    (memcmp ⟨some i, p⟩ ⟨some j, q⟩ n).run m =
      .ok (compareBytes (fun k => b.data (p + k)) (fun k => d.data (q + k)) n, m) := by
  simp [memcmp, readAt_run hb h, readAt_run hd h']

/-- A comparison that leaves one of the two objects has no meaning. -/
theorem memcmp_run_outside {j p q : Nat} {d : Block} (hb : m.blocks i = some b)
    (hd : m.blocks j = some d) (h : b.size < p + n ∨ d.size < q + n) :
    (memcmp ⟨some i, p⟩ ⟨some j, q⟩ n).run m = .error .undefined := by
  by_cases hp : p + n ≤ b.size
  · have hq : d.size < q + n := by omega
    simp [memcmp, readAt_run hb hp, readAt_run_outside hd hq]
  · simp [memcmp, readAt_run_outside hb (Nat.not_le.mp hp)]

end Copy

/-! ## What is kept -/

/-- The sizes of the live blocks. -/
def Mem.sizes (m : Mem) (i : Nat) : Option Nat := (m.blocks i).map Block.size

section Kept

variable {β : Type} {obs : Mem → β}

theorem access_keeps (obs : Mem → β) (p : Ptr) (n : Nat) : Keeps obs (access p n) := by
  intro m a m' h
  obtain ⟨_ | i, o⟩ := p
  · cases h
  · cases hb : m.blocks i with
    | none => simp [access, hb] at h
    | some b =>
        by_cases hle : o + n ≤ b.size
        · rw [access_run hb hle] at h
          cases h
          rfl
        · rw [access_run_outside hb (Nat.not_le.mp hle)] at h
          cases h

theorem readAt_keeps (obs : Mem → β) (p : Ptr) (n : Nat) : Keeps obs (readAt p n) :=
  (access_keeps obs p n).bind fun _ => Keeps.pure _

theorem ptrSub_keeps (obs : Mem → β) (p : Ptr) (n : Nat) : Keeps obs (ptrSub p n) :=
  Keeps.ite (Keeps.pure _) (Keeps.throw _)

theorem load8_keeps (obs : Mem → β) (p : Ptr) : Keeps obs (load8 p) :=
  (readAt_keeps obs p 1).bind fun _ => Keeps.pure _

theorem loadField_keeps (obs : Mem → β) (w : Nat) (p : Ptr) : Keeps obs (loadField w p) :=
  (readAt_keeps obs p w).bind fun _ => Keeps.pure _

/-- Writing keeps what every update of bytes keeps. -/
theorem writeAt_keeps (h : ∀ m i pos n f, obs (m.mapBlock i fun b => b.patch pos n f) = obs m)
    (p : Ptr) (n : Nat) (f : Nat → UInt8) : Keeps obs (writeAt p n f) := by
  apply (access_keeps obs p n).bind
  rintro ⟨i, b⟩ m a m' hm
  cases hm
  exact h m i p.off n f

theorem sizes_mapBlock_patch (m : Mem) (i pos n : Nat) (f : Nat → UInt8) :
    (m.mapBlock i fun b => b.patch pos n f).sizes = m.sizes := by
  funext j
  simp only [Mem.sizes]
  by_cases h : j = i
  · subst h
    cases hb : m.blocks j with
    | none => simp [Mem.mapBlock, hb]
    | some b => simp [Mem.mapBlock_blocks_self hb]
  · rw [Mem.mapBlock_blocks_of_ne h]

theorem memcpy_keeps (h : ∀ m i pos n f, obs (m.mapBlock i fun b => b.patch pos n f) = obs m)
    (dst : Ptr) (src : Source) (n : Nat) : Keeps obs (memcpy dst src n) := by
  apply Keeps.ite (Keeps.throw _)
  refine Keeps.bind ?_ fun f => writeAt_keeps h dst n f
  cases src with
  | bytes l => exact Keeps.ite (Keeps.pure _) (Keeps.throw _)
  | mem p => exact readAt_keeps obs p n

theorem free_keeps_requests (p : Ptr) : Keeps Mem.requests (free p) := by
  apply Keeps.ite (Keeps.pure _)
  obtain ⟨_ | i, o⟩ := p
  · exact Keeps.throw _
  · refine (access_keeps Mem.requests _ _).bind fun _ => Keeps.ite ?_ (Keeps.throw _)
    intro m a m' hm
    cases hm
    rfl

end Kept

/-! ## Code that makes at most one request -/

/-- Whenever the code returns, it has made no request or one. -/
def AtMostOneRequest {α : Type} (x : Exec Mem α) : Prop :=
  ∀ m a m', x.run m = .ok (a, m') →
    m'.requests = m.requests ∨ ∃ r, m'.requests = r :: m.requests

namespace AtMostOneRequest

variable {α α' : Type}

theorem of_keeps {x : Exec Mem α} (h : Keeps Mem.requests x) : AtMostOneRequest x :=
  fun m a m' hx => Or.inl (h m a m' hx)

theorem after {x : Exec Mem α} {f : α → Exec Mem α'} (hx : Keeps Mem.requests x)
    (hf : ∀ a, AtMostOneRequest (f a)) : AtMostOneRequest (x >>= f) := by
  intro m b m' h
  obtain ⟨a, t, ht, hrest⟩ := run_bind_eq_ok h
  rw [← hx m a t ht]
  exact hf a t b m' hrest

theorem andThen {x : Exec Mem α} {f : α → Exec Mem α'} (hx : AtMostOneRequest x)
    (hf : ∀ a, Keeps Mem.requests (f a)) : AtMostOneRequest (x >>= f) := by
  intro m b m' h
  obtain ⟨a, t, ht, hrest⟩ := run_bind_eq_ok h
  rw [hf a t b m' hrest]
  exact hx m a t ht

theorem ite {c : Prop} [Decidable c] {x y : Exec Mem α} (hx : AtMostOneRequest x)
    (hy : AtMostOneRequest y) : AtMostOneRequest (if c then x else y) := by
  split
  · exact hx
  · exact hy

end AtMostOneRequest

theorem malloc_one (al : Allocator) (n : Nat) : AtMostOneRequest (malloc al n) := by
  intro m a m' h
  apply Or.inr
  cases hal : al m.requests.length with
  | none =>
      rw [malloc_run_refused hal] at h
      cases h
      exact ⟨_, rfl⟩
  | some junk =>
      rw [malloc_run_granted hal] at h
      cases h
      exact ⟨_, rfl⟩

theorem realloc_one (al : Allocator) (p : Ptr) (n : Nat) : AtMostOneRequest (realloc al p n) := by
  apply AtMostOneRequest.after (access_keeps _ p 0)
  rintro ⟨i, b⟩ m a m' h
  dsimp only at h
  by_cases ho : p.off ≠ 0
  · rw [if_pos ho] at h
    cases h
  · rw [if_neg ho] at h
    apply Or.inr
    cases hal : al m.requests.length with
    | none =>
        simp [hal] at h
        obtain ⟨-, rfl⟩ := h
        exact ⟨_, rfl⟩
    | some junk =>
        simp [hal] at h
        obtain ⟨-, rfl⟩ := h
        exact ⟨_, rfl⟩

end CLanguageLearning.Foundation
