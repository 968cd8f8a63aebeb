import CLanguageLearning.Foundation.ByteMemory

/-!
# String headers

The five packed headers of `sds.h` and the accessors that switch on the type stored in the byte
before the string. A string handle points just behind its header. A header of type `T` other than
type 5 holds the length and the capacity in `T.width` bytes each, then the flags byte; type 5 is the
flags byte alone, with the length in its upper five bits and no capacity.
-/

set_option autoImplicit false

namespace CLanguageLearning.Sds

open CLanguageLearning.Foundation

/-- The header types. -/
inductive SdsType where
  | type5
  | type8
  | type16
  | type32
  | type64
  deriving DecidableEq, Repr

/-- The bits of the flags byte that name the type. -/
def SDS_TYPE_MASK : Nat := 7

/-- The bits below the length that type 5 keeps in its flags byte. -/
def SDS_TYPE_BITS : Nat := 3

/-- One megabyte. -/
def SDS_MAX_PREALLOC : Nat := 1024 * 1024

/-- The number of values of `size_t`. -/
def SIZE_COUNT : Nat := 2 ^ 64

namespace SdsType

/-- `SDS_TYPE_5` to `SDS_TYPE_64`. -/
def code : SdsType → Nat
  | type5 => 0
  | type8 => 1
  | type16 => 2
  | type32 => 3
  | type64 => 4

/-- `sizeof(struct sdshdrT)`. -/
def hdrSize : SdsType → Nat
  | type5 => 1
  | type8 => 3
  | type16 => 5
  | type32 => 9
  | type64 => 17

/-- Bytes of the fields `len` and `alloc`; type 5 has no such fields. -/
def width : SdsType → Nat
  | type5 => 0
  | type8 => 1
  | type16 => 2
  | type32 => 4
  | type64 => 8

/-- One more than the largest length the header can record. -/
def limit : SdsType → Nat
  | type5 => 32
  | type8 => 2 ^ 8
  | type16 => 2 ^ 16
  | type32 => 2 ^ 32
  | type64 => 2 ^ 64

/-- The type the flags byte names: `flags & SDS_TYPE_MASK`. -/
def ofFlags (flags : Nat) : Option SdsType :=
  match flags &&& SDS_TYPE_MASK with
  | 0 => some type5
  | 1 => some type8
  | 2 => some type16
  | 3 => some type32
  | 4 => some type64
  | _ => none

/-- Modulus of `alloc - len` in `sdsavail`: 32-bit fields are subtracted as `uint32_t`, narrower
ones as `int` and converted to `size_t`. -/
def subModulus : SdsType → Nat
  | type32 => 2 ^ 32
  | _ => 2 ^ 64

end SdsType

/-- `SDS_TYPE_5_LEN(f)`. -/
def SDS_TYPE_5_LEN (f : Nat) : Nat := f >>> SDS_TYPE_BITS

/-- `s[-1]`. -/
def flagsOf (s : Ptr) : Exec Mem Nat := do
  let fp ← ptrSub s 1
  let flags ← load8 fp
  return flags.toNat

/-- `SDS_HDR(T, s)`. -/
def SDS_HDR (T : SdsType) (s : Ptr) : Exec Mem Ptr := ptrSub s T.hdrSize

/-- `SDS_HDR(T, s)->len`. -/
def hdrLen (T : SdsType) (s : Ptr) : Exec Mem Nat := do
  let sh ← SDS_HDR T s
  loadField T.width sh

/-- `SDS_HDR(T, s)->alloc`. -/
def hdrAlloc (T : SdsType) (s : Ptr) : Exec Mem Nat := do
  let sh ← SDS_HDR T s
  loadField T.width (sh.add T.width)

/-- The length that the header records; a flags byte without a type counts as length 0. -/
def sdslen (s : Ptr) : Exec Mem Nat := do
  let flags ← flagsOf s
  match SdsType.ofFlags flags with
  | some .type5 => return SDS_TYPE_5_LEN flags
  | some T => hdrLen T s
  | none => return 0

/-- The free space behind the string. Type 5 has none, and the difference is taken in the type of the
fields. -/
def sdsavail (s : Ptr) : Exec Mem Nat := do
  let flags ← flagsOf s
  match SdsType.ofFlags flags with
  | some .type5 => return 0
  | some T =>
      let alloc ← hdrAlloc T s
      let len ← hdrLen T s
      return (T.subModulus + alloc - len) % T.subModulus
  | none => return 0

/-- Record a new length. Type 5 keeps it in the flags byte, which is written whole. -/
def sdssetlen (s : Ptr) (newlen : Nat) : Exec Mem Unit := do
  let flags ← flagsOf s
  match SdsType.ofFlags flags with
  | some .type5 =>
      let fp ← ptrSub s 1
      store8 fp (UInt8.ofNat (SdsType.type5.code ||| newlen <<< SDS_TYPE_BITS))
  | some T =>
      let sh ← SDS_HDR T s
      storeField T.width sh newlen
  | none => return ()

/-- Raise the recorded length by `inc`, without a test that it still fits. -/
def sdsinclen (s : Ptr) (inc : Nat) : Exec Mem Unit := do
  let flags ← flagsOf s
  match SdsType.ofFlags flags with
  | some .type5 =>
      let fp ← ptrSub s 1
      let newlen := UInt8.ofNat (SDS_TYPE_5_LEN flags + inc)
      store8 fp (UInt8.ofNat (SdsType.type5.code ||| newlen.toNat <<< SDS_TYPE_BITS))
  | some T =>
      let len ← hdrLen T s
      let sh ← SDS_HDR T s
      storeField T.width sh (len + inc)
  | none => return ()

/-- The capacity that the header records, which for type 5 is the length. -/
def sdsalloc (s : Ptr) : Exec Mem Nat := do
  let flags ← flagsOf s
  match SdsType.ofFlags flags with
  | some .type5 => return SDS_TYPE_5_LEN flags
  | some T => hdrAlloc T s
  | none => return 0

/-- Record a new capacity; type 5 has nowhere to keep it. -/
def sdssetalloc (s : Ptr) (newlen : Nat) : Exec Mem Unit := do
  let flags ← flagsOf s
  match SdsType.ofFlags flags with
  | some .type5 => return ()
  | some T =>
      let sh ← SDS_HDR T s
      storeField T.width (sh.add T.width) newlen
  | none => return ()

end CLanguageLearning.Sds
