import CLanguageLearning.Sds.Growth
import Mathlib.Data.List.DropRight

/-!
# What the strings are for

A `Value` is a string without its memory: the header's type, the content and the capacity its owner
may count on. Each operation of `sds.c` has a purpose on values: append, replace, extend by zeros,
reserve, give back, trim, slice, clear, map. `Op.exec` runs the function of the source, `Op.apply`
states its purpose, and the modules that follow show that the first does the second.
-/

set_option autoImplicit false

namespace CLanguageLearning.Sds

open CLanguageLearning.Foundation

/-- A string without its memory. -/
structure Value where
  type : SdsType
  content : List UInt8
  cap : Nat
  deriving DecidableEq, Repr

namespace Value

/-- The value of a new string. -/
def ofBytes (l : List UInt8) : Value := ⟨newType l.length, l, l.length⟩

/-- New content in the same block; type 5 records no capacity beyond the length. -/
def setContent (v : Value) (l : List UInt8) : Value :=
  ⟨v.type, l, if v.type = .type5 then l.length else v.cap⟩

/-- Room for `n` more bytes. -/
def makeRoom (v : Value) (n : Nat) : Value :=
  if n ≤ v.cap - v.content.length then v
  else ⟨growType (prealloc (v.content.length + n)), v.content, prealloc (v.content.length + n)⟩

/-- No capacity beyond the content; the header shrinks when a small one is enough. -/
def removeFree (v : Value) : Value :=
  if v.cap = v.content.length then v
  else if v.type = sdsReqType v.content.length ∨
      (sdsReqType v.content.length).code > SdsType.type8.code
    then ⟨v.type, v.content, v.content.length⟩
  else ⟨sdsReqType v.content.length, v.content, v.content.length⟩

/-- The sizes asked for when room for `n` more bytes is made fit in `size_t`. -/
def RoomFits (v : Value) (n : Nat) : Prop :=
  v.cap - v.content.length < n →
    FitsSize (growType (prealloc (v.content.length + n))) (prealloc (v.content.length + n))

/-- A string that an object can hold has its room. -/
theorem roomFits_of_lt {v : Value} {n : Nat} (h : v.content.length + n < 2 ^ 63) :
    v.RoomFits n := by
  intro _
  have hhdr := (growType (prealloc (v.content.length + n))).hdrSize_le
  have hpre : prealloc (v.content.length + n) ≤ 2 ^ 63 + SDS_MAX_PREALLOC := by
    unfold prealloc SDS_MAX_PREALLOC
    split <;> omega
  rw [SDS_MAX_PREALLOC] at hpre
  unfold FitsSize SIZE_COUNT
  omega

/-- Block `i` of memory `m` holds the value. -/
def At (v : Value) (m : Mem) (i : Nat) : Prop := SdsAt m i v.type v.content v.cap

/-- Reserving room does not change the content. -/
@[simp] theorem makeRoom_content (v : Value) (n : Nat) : (v.makeRoom n).content = v.content := by
  unfold makeRoom
  split <;> rfl

/-- Giving room back does not change the content. -/
@[simp] theorem removeFree_content (v : Value) : v.removeFree.content = v.content := by
  unfold removeFree
  split
  · rfl
  · split <;> rfl

/-- After reserving room for `n` bytes there is room for them. -/
theorem le_cap_makeRoom (v : Value) (n : Nat) (hle : v.content.length ≤ v.cap) :
    v.content.length + n ≤ (v.makeRoom n).cap := by
  unfold makeRoom
  split
  · omega
  · exact le_prealloc _

end Value

/-- The longest prefix and then the longest suffix of bytes found in `cset` removed. -/
def trimContent (cset l : List UInt8) : List UInt8 :=
  (l.dropWhile (strchr cset)).rdropWhile (strchr cset)

/-- An end of a range, counted from the end of the string when negative. -/
def sliceIndex (len : Nat) (x : Int) : Nat := (if x < 0 then max 0 (len + x) else x).toNat

/-- The bytes from position `first` to position `last`, both included. Lengths from `2 ^ 63` on
have no representation in `ssize_t` and give the empty string. -/
def sliceContent (l : List UInt8) (first last : Int) : List UInt8 :=
  if l.length < 2 ^ 63 then
    (l.take (sliceIndex l.length last + 1)).drop (sliceIndex l.length first)
  else []

/-- The byte that replaces `c`: the entry of `dst` at the first of the `n` indices where `src` has
`c`. -/
def mapContent (src dst : List UInt8) (n : Nat) (c : UInt8) : UInt8 :=
  match (List.range n).find? fun i => c == src.getD i 0 with
  | some i => dst.getD i 0
  | none => c

/-- The operations on a string. Sources are given with the bytes they hold. -/
inductive Op where
  | catlen (t : Source) (l : List UInt8)
  | catsds (j : Nat) (w : Value)
  | cpylen (t : Source) (l : List UInt8)
  | growzero (len : Nat)
  | makeRoomFor (addlen : Nat)
  | removeFreeSpace
  | trim (cset : List UInt8)
  | range (first last : Int)
  | clear
  | mapchars (src dst : List UInt8) (setlen : Nat)

namespace Op

/-- The function of the source. -/
def exec (al : Allocator) (s : Ptr) : Op → Exec Mem Ptr
  | catlen t l => sdscatlen al s t l.length
  | catsds j w => sdscatsds al s (handle j w.type)
  | cpylen t l => sdscpylen al s t l.length
  | growzero len => sdsgrowzero al s len
  | makeRoomFor addlen => sdsMakeRoomFor al s addlen
  | removeFreeSpace => sdsRemoveFreeSpace al s
  | trim cset => sdstrim s cset
  | range first last => do sdsrange s first last; return s
  | clear => do sdsclear s; return s
  | mapchars src dst setlen => sdsmapchars s src dst setlen

/-- What the operation is for. -/
def apply (v : Value) : Op → Value
  | catlen _ l => (v.makeRoom l.length).setContent (v.content ++ l)
  | catsds _ w => (v.makeRoom w.content.length).setContent (v.content ++ w.content)
  | cpylen _ l =>
      if v.cap < l.length then (v.makeRoom (l.length - v.content.length)).setContent l
      else v.setContent l
  | growzero len =>
      if len ≤ v.content.length then v
      else (v.makeRoom (len - v.content.length)).setContent
        (v.content ++ List.replicate (len - v.content.length) 0)
  | makeRoomFor addlen => v.makeRoom addlen
  | removeFreeSpace => v.removeFree
  | trim cset => v.setContent (trimContent cset v.content)
  | range first last =>
      if v.content = [] then v else v.setContent (sliceContent v.content first last)
  | clear => v.setContent []
  | mapchars src dst setlen => v.setContent (v.content.map (mapContent src dst setlen))

/-- What a caller has to provide: sources that hold their bytes outside the string, arguments in
the range of their type, and sizes that fit in `size_t`. -/
def Valid (m : Mem) (i : Nat) (v : Value) : Op → Prop
  | catlen t l => t.Holds m l ∧ t.Avoids i ∧ v.RoomFits l.length
  | catsds j w => w.At m j ∧ j ≠ i ∧ v.RoomFits w.content.length
  | cpylen t l => t.Holds m l ∧ t.Avoids i ∧ v.RoomFits (l.length - v.content.length)
  | growzero len => v.RoomFits (len - v.content.length)
  | makeRoomFor addlen => v.RoomFits addlen
  | removeFreeSpace => True
  | trim _ => True
  | range first last =>
      (-2 ^ 63 ≤ first ∧ first < 2 ^ 63) ∧ -2 ^ 63 ≤ last ∧ last < 2 ^ 63
  | clear => True
  | mapchars src dst setlen => setlen ≤ src.length ∧ setlen ≤ dst.length

end Op

end CLanguageLearning.Sds
