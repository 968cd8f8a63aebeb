import CLanguageLearning.Sds.Header

/-!
# The string functions

The functions of `sds.c` that create, grow, shrink, rewrite and compare strings, in the order of the
source and on the byte memory of `ByteMemory`. `size_t` arithmetic is reduced modulo `SIZE_COUNT`
wherever the source computes in that type, and `s_malloc`, `s_realloc` and `s_free` are the
allocator's functions with the allocator as a parameter.
-/

set_option autoImplicit false

namespace CLanguageLearning.Sds

open CLanguageLearning.Foundation

/-- Conversion to `size_t`. -/
def sizeT (n : Nat) : Nat := n % SIZE_COUNT

/-- Conversion to `ssize_t`. -/
def ssizeT (x : Int) : Int := x.bmod SIZE_COUNT

/-- Conversion of an `ssize_t` to `size_t`. -/
def sizeOfSsize (x : Int) : Nat := (x % SIZE_COUNT).toNat

/-- The header size for a type byte, 0 if it names no type. -/
def sdsHdrSize : Option SdsType → Nat
  | some T => T.hdrSize
  | none => 0

/-- The smallest type for a string of the given size; `long` and `long long` have one width. -/
def sdsReqType (string_size : Nat) : SdsType :=
  if string_size < 1 <<< 5 then .type5
  else if string_size < 1 <<< 8 then .type8
  else if string_size < 1 <<< 16 then .type16
  else if string_size < 1 <<< 32 then .type32
  else .type64

/-- The argument `init` of `sdsnewlen`. -/
inductive Init where
  | null
  | SDS_NOINIT
  | src (t : Source)

/-- The type of a new string: an empty one is meant to be appended to. -/
def newType (initlen : Nat) : SdsType :=
  if sdsReqType initlen = .type5 ∧ initlen = 0 then .type8 else sdsReqType initlen

/-- The `switch (type)` of `sdsnewlen`. -/
def initHeader (type : SdsType) (s : Ptr) (initlen : Nat) : Exec Mem Unit := do
  let fp ← ptrSub s 1
  match type with
  | .type5 => store8 fp (UInt8.ofNat (SdsType.type5.code ||| initlen <<< SDS_TYPE_BITS))
  | T =>
      let sh ← SDS_HDR T s
      storeField T.width sh initlen
      storeField T.width (sh.add T.width) initlen
      store8 fp (UInt8.ofNat T.code)

/-- `if (!init) memset(sh, 0, n)`. -/
def zeroInit (init : Init) (sh : Ptr) (n : Nat) : Exec Mem Unit :=
  match init with
  | .null => memset sh 0 n
  | _ => pure ()

/-- `if (initlen && init) memcpy(s, init, initlen)`. -/
def copyInit (init : Init) (s : Ptr) (initlen : Nat) : Exec Mem Unit :=
  match init with
  | .src t => if initlen ≠ 0 then memcpy s t initlen else pure ()
  | _ => pure ()

/-- A new string of `initlen` bytes with the content `init`, or `NULL`. -/
def sdsnewlen (al : Allocator) (init : Init) (initlen : Nat) : Exec Mem Ptr := do
  let type := newType initlen
  let hdrlen := type.hdrSize
  let sh ← malloc al (sizeT (hdrlen + initlen + 1))
  if sh = Ptr.null then return Ptr.null
  zeroInit init sh (sizeT (hdrlen + initlen + 1))
  let s := sh.add hdrlen
  initHeader type s initlen
  copyInit init s initlen
  store8 (s.add initlen) 0
  return s

/-- `sdsnewlen("", 0)`. -/
def sdsempty (al : Allocator) : Exec Mem Ptr := sdsnewlen al (.src (.bytes [])) 0

/-- A new string with the same content. -/
def sdsdup (al : Allocator) (s : Ptr) : Exec Mem Ptr := do
  let len ← sdslen s
  sdsnewlen al (.src (.mem s)) len

/-- The string becomes empty in its block. -/
def sdsclear (s : Ptr) : Exec Mem Unit := do
  sdssetlen s 0
  store8 s 0

/-- The capacity `sdsMakeRoomFor` asks for: double below `SDS_MAX_PREALLOC`, else one megabyte
more. -/
def prealloc (reqlen : Nat) : Nat :=
  if reqlen < SDS_MAX_PREALLOC then reqlen * 2 else reqlen + SDS_MAX_PREALLOC

/-- Type 5 cannot remember empty space, so a grown string does not use it. -/
def growType (newlen : Nat) : SdsType :=
  if sdsReqType newlen = .type5 then .type8 else sdsReqType newlen

/-- Growth with the same header: `s_realloc`. The source tests `newlen`, not `newsh`. -/
def growInPlace (al : Allocator) (sh : Ptr) (type : SdsType) (newlen : Nat) : Exec Mem Ptr := do
  let hdrlen := type.hdrSize
  let newsh ← realloc al sh (sizeT (hdrlen + newlen + 1))
  if newlen = 0 then return Ptr.null
  let s := newsh.add hdrlen
  sdssetalloc s newlen
  return s

/-- A change of the header's type moves the string to a new block of `type` with capacity
`alloc`. -/
def moveString (al : Allocator) (sh s : Ptr) (type : SdsType) (len alloc : Nat) : Exec Mem Ptr := do
  let hdrlen := type.hdrSize
  let newsh ← malloc al (sizeT (hdrlen + alloc + 1))
  if newsh = Ptr.null then return Ptr.null
  memcpy (newsh.add hdrlen) (.mem s) (sizeT (len + 1))
  free sh
  let s := newsh.add hdrlen
  let fp ← ptrSub s 1
  store8 fp (UInt8.ofNat type.code)
  sdssetlen s len
  sdssetalloc s alloc
  return s

/-- Room for `addlen` more bytes. The assertion is about numbers that have been reduced already. -/
def sdsMakeRoomFor (al : Allocator) (s : Ptr) (addlen : Nat) : Exec Mem Ptr := do
  let avail ← sdsavail s
  let flags ← flagsOf s
  let oldtype := SdsType.ofFlags flags
  if addlen ≤ avail then return s
  let len ← sdslen s
  let sh ← ptrSub s (sdsHdrSize oldtype)
  let reqlen := sizeT (len + addlen)
  let newlen := sizeT (prealloc reqlen)
  let type := growType newlen
  -- assert(hdrlen + newlen + 1 > reqlen)
  if sizeT (type.hdrSize + newlen + 1) ≤ reqlen then throw .abort
  if oldtype = some type then growInPlace al sh type newlen
  else moveString al sh s type len newlen

/-- Shrinking with the same header: `s_realloc`, checked for refusal. -/
def shrinkInPlace (al : Allocator) (sh : Ptr) (oldhdrlen len : Nat) : Exec Mem Ptr := do
  let newsh ← realloc al sh (sizeT (oldhdrlen + len + 1))
  if newsh = Ptr.null then return Ptr.null
  let s := newsh.add oldhdrlen
  sdssetalloc s len
  return s

/-- Give the free space back, with the smallest header that is enough. -/
def sdsRemoveFreeSpace (al : Allocator) (s : Ptr) : Exec Mem Ptr := do
  let flags ← flagsOf s
  let oldtype := SdsType.ofFlags flags
  let oldhdrlen := sdsHdrSize oldtype
  let len ← sdslen s
  let avail ← sdsavail s
  let sh ← ptrSub s oldhdrlen
  if avail = 0 then return s
  let type := sdsReqType len
  if oldtype = some type ∨ type.code > SdsType.type8.code then shrinkInPlace al sh oldhdrlen len
  else moveString al sh s type len len

/-- Grow to the length `len` with zeros; a string that is as long already stays. -/
def sdsgrowzero (al : Allocator) (s : Ptr) (len : Nat) : Exec Mem Ptr := do
  let curlen ← sdslen s
  if len ≤ curlen then return s
  let s ← sdsMakeRoomFor al s (len - curlen)
  if s = Ptr.null then return Ptr.null
  -- also sets the trailing terminator
  memset (s.add curlen) 0 (sizeT (len - curlen + 1))
  sdssetlen s len
  return s

/-- Append `len` bytes of `t`. -/
def sdscatlen (al : Allocator) (s : Ptr) (t : Source) (len : Nat) : Exec Mem Ptr := do
  let curlen ← sdslen s
  let s ← sdsMakeRoomFor al s len
  if s = Ptr.null then return Ptr.null
  memcpy (s.add curlen) t len
  sdssetlen s (sizeT (curlen + len))
  store8 (s.add (sizeT (curlen + len))) 0
  return s

/-- Append another string. -/
def sdscatsds (al : Allocator) (s t : Ptr) : Exec Mem Ptr := do
  let len ← sdslen t
  sdscatlen al s (.mem t) len

/-- The last part of `sdscpylen`, on a string with room for `len` bytes. -/
def overwrite (s : Ptr) (t : Source) (len : Nat) : Exec Mem Ptr := do
  memcpy s t len
  store8 (s.add len) 0
  sdssetlen s len
  return s

/-- The content becomes the `len` bytes of `t`. -/
def sdscpylen (al : Allocator) (s : Ptr) (t : Source) (len : Nat) : Exec Mem Ptr := do
  let alloc ← sdsalloc s
  if alloc < len then
    let curlen ← sdslen s
    let s ← sdsMakeRoomFor al s (sizeT (SIZE_COUNT + len - curlen))
    if s = Ptr.null then return Ptr.null
    overwrite s t len
  else overwrite s t len

/-- `strchr(cset, c) != NULL`, for the bytes `cset` of a C string: the terminator is found too. -/
def strchr (cset : List UInt8) (c : UInt8) : Bool := c == 0 || cset.contains c

/-- `while (sp <= end && strchr(cset, *sp)) sp++;`, in at most the given number of iterations. -/
def skipFront (cset : List UInt8) (last : Ptr) : Nat → Ptr → Exec Mem Ptr
  | 0, _ => throw .diverged
  | fuel + 1, sp =>
      if sp.off ≤ last.off then do
        let c ← load8 sp
        if strchr cset c then skipFront cset last fuel (sp.add 1) else return sp
      else return sp

/-- `while (ep > sp && strchr(cset, *ep)) ep--;`, in at most the given number of iterations. -/
def skipBack (cset : List UInt8) (sp : Ptr) : Nat → Ptr → Exec Mem Ptr
  | 0, _ => throw .diverged
  | fuel + 1, ep =>
      if sp.off < ep.off then do
        let c ← load8 ep
        if strchr cset c then
          let ep' ← ptrSub ep 1
          skipBack cset sp fuel ep'
        else return ep
      else return ep

/-- Remove the bytes of `cset` from both ends. -/
def sdstrim (s : Ptr) (cset : List UInt8) : Exec Mem Ptr := do
  let n ← sdslen s
  let last ← ptrSub (s.add n) 1
  let sp ← skipFront cset last (n + 1) s
  let ep ← skipBack cset sp (n + 1) last
  let len := ep.off + 1 - sp.off
  if s ≠ sp then memmove s sp len
  store8 (s.add len) 0
  sdssetlen s len
  return s

/-- An end of the range given to `sdsrange`: a negative one counts from the end of the string. -/
def rangeIndex (len : Nat) (x : Int) : Int :=
  if x < 0 then
    let y := ssizeT (len + x)
    if y < 0 then 0 else y
  else x

/-- The length `sdsrange` computes from the two ends. -/
def rangeLen (len : Nat) (first last : Int) : Nat :=
  let newlen := if first > last then 0 else sizeOfSsize (ssizeT (ssizeT (last - first) + 1))
  if newlen ≠ 0 then
    if first ≥ ssizeT len then 0
    else if last ≥ ssizeT len then
      sizeOfSsize (ssizeT (ssizeT (ssizeT (len - 1) - first) + 1))
    else newlen
  else 0

/-- Keep the bytes from `first` to `last`; nothing happens to an empty string. -/
def sdsrange (s : Ptr) (first last : Int) : Exec Mem Unit := do
  let len ← sdslen s
  if len = 0 then return ()
  let first := rangeIndex len first
  let last := rangeIndex len last
  let newlen := rangeLen len first last
  if first ≠ 0 ∧ newlen ≠ 0 then memmove s (s.add first.toNat) newlen
  store8 (s.add newlen) 0
  sdssetlen s newlen

/-- `memcmp` over the larger of the two lengths; after that the longer string is the larger one. -/
def sdscmp (s1 s2 : Ptr) : Exec Mem Int := do
  let l1 ← sdslen s1
  let l2 ← sdslen s2
  let minlen := if l1 > l2 then l1 else l2
  let cmp ← memcmp s1 s2 minlen
  if cmp = 0 then return if l1 > l2 then 1 else if l1 < l2 then -1 else 0
  return cmp

/-- Byte `i` of a buffer of the caller. -/
def bufferAt (buf : List UInt8) (i : Nat) : Exec Mem UInt8 :=
  match buf[i]? with
  | some c => return c
  | none => throw .undefined

/-- The inner loop of `sdsmapchars`, from index `i` on with `n` indices left. -/
def mapByte (p : Ptr) (src dst : List UInt8) : Nat → Nat → Exec Mem Unit
  | _, 0 => return ()
  | i, n + 1 => do
      let c ← load8 p
      let f ← bufferAt src i
      if c = f then
        let t ← bufferAt dst i
        store8 p t
      else mapByte p src dst (i + 1) n

/-- The outer loop of `sdsmapchars`, from `p` on with `n` bytes left. -/
def mapBytes (src dst : List UInt8) (setlen : Nat) : Ptr → Nat → Exec Mem Unit
  | _, 0 => return ()
  | p, n + 1 => do
      mapByte p src dst 0 setlen
      mapBytes src dst setlen (p.add 1) n

/-- Replace every byte that `src` has by the byte of `dst` at the same index. -/
def sdsmapchars (s : Ptr) (src dst : List UInt8) (setlen : Nat) : Exec Mem Ptr := do
  let l ← sdslen s
  mapBytes src dst setlen s l
  return s

end CLanguageLearning.Sds
