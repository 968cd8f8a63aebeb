import CLanguageLearning.Foundation.LocalArray
import CLanguageLearning.Sds.Quoting

/-!
# Formatted text appended to a string

`sdscatfmt` appends what a format and its arguments stand for. The string has no terminator while
the loop runs, and its length, its room and the position that is written next are updated one by
one. `Expands` says what the format stands for, `Writing` what holds at the head of the loop and
`Written` what one turn does to memory; `sdscatfmt_expands` puts them together.
-/

set_option autoImplicit false

namespace CLanguageLearning.Sds

open CLanguageLearning.Foundation

/-! ## Numbers -/

def SDS_LLSTR_SIZE : Nat := 21

def LLONG_MIN : Int64 := Int64.minValue

def LLONG_MAX : Int64 := Int64.maxValue

/-- The decimal digits of the largest `unsigned long long`. -/
def ULLONG_DIGITS : Nat := 20

/-- What both functions do with the `l` bytes they have written: the terminator behind them, and
then their order is turned around. -/
def turnAround (l : Nat) : Exec (List UInt8) Nat := do
  Array8.store l 0
  swapLoop (l + 1) 0 (l - 1)
  return l

/-- The absolute value as an `unsigned long long`; that of `LLONG_MIN` is no `long long`. -/
def magnitude (value : Int64) : UInt64 :=
  if value < 0 then
    if value ≠ LLONG_MIN then (-value).toUInt64 else LLONG_MAX.toUInt64 + 1
  else value.toUInt64

def sdsll2str (value : Int64) : Exec (List UInt8) Nat := do
  let p ← digitLoop ULLONG_DIGITS 0 (magnitude value)
  if value < 0 then
    Array8.store p 45
    turnAround (p + 1)
  else turnAround p

def sdsull2str (v : UInt64) : Exec (List UInt8) Nat := do
  let p ← digitLoop ULLONG_DIGITS 0 v
  turnAround p

section Numbers

variable {buf : List UInt8}

theorem turnAround_run (text rest : List UInt8) (c : UInt8) :
    (turnAround text.length).run (text ++ c :: rest) =
      .ok (text.length, text.reverse ++ 0 :: rest) := by
  have hend : 0 + text.length - 1 = text.length - 1 := by rw [Nat.zero_add]
  have hnil : ([] : List UInt8).length = 0 := rfl
  have hswap := swapLoop_run text [] (0 :: rest) (Nat.lt_add_one text.length) hnil hend
  simp only [List.nil_append] at hswap
  rw [turnAround, run_bind_of_ok (Array8.store_run rfl c 0 rest), run_bind_of_ok hswap]
  rfl

theorem length_decimal_toNat (v : UInt64) : (decimal v.toNat).length ≤ ULLONG_DIGITS :=
  length_decimal_le (by decide) (Nat.lt_of_lt_of_le v.toNat_lt (by decide))

/-- The digits, the last one first, and what is left of the array. -/
theorem digitLoop_run_buf (hbuf : buf.length = SDS_LLSTR_SIZE) (v : UInt64) :
    (digitLoop ULLONG_DIGITS 0 v).run buf = .ok ((decimal v.toNat).length,
      (decimal v.toNat).reverse ++ buf.drop (decimal v.toNat).length) := by
  have hle := length_decimal_toNat v
  have hroom : (decimal v.toNat).length ≤ buf.length := by
    rw [hbuf]
    exact hle.trans (by decide)
  have hnil : ([] : List UInt8).length = 0 := rfl
  have hrun := digitLoop_run ULLONG_DIGITS [] buf hnil hle hroom
  rwa [Nat.zero_add] at hrun

/-- The numeral and its terminator are written, and nothing behind them. -/
theorem sdsull2str_run (hbuf : buf.length = SDS_LLSTR_SIZE) (v : UInt64) :
    (sdsull2str v).run buf = .ok ((decimal v.toNat).length,
      decimal v.toNat ++ 0 :: buf.drop ((decimal v.toNat).length + 1)) := by
  have hle := length_decimal_toNat v
  have hlt : (decimal v.toNat).length < buf.length := by
    rw [ULLONG_DIGITS] at hle
    rw [hbuf, SDS_LLSTR_SIZE]
    omega
  have hturn := turnAround_run (decimal v.toNat).reverse (buf.drop ((decimal v.toNat).length + 1))
    buf[(decimal v.toNat).length]
  rw [List.length_reverse, List.reverse_reverse] at hturn
  rw [sdsull2str, run_bind_of_ok (digitLoop_run_buf hbuf v), List.drop_eq_getElem_cons hlt]
  exact hturn

theorem toNat_magnitude (value : Int64) : (magnitude value).toNat = value.toInt.natAbs := by
  have hlow := value.le_toInt
  have hneg : value < 0 ↔ value.toInt < 0 := Int64.lt_iff_toInt_lt
  rw [magnitude]
  by_cases h : value < 0
  · rw [if_pos h]
    have hlt := hneg.mp h
    rcases eq_or_ne value LLONG_MIN with rfl | hmin
    · rfl
    · have hne : value.toInt ≠ -2 ^ 63 := fun he => hmin (Int64.toInt_inj.mp he)
      -- no other value overflows when its sign changes
      have hopp : (-value).toInt = -value.toInt := by
        rw [Int64.toInt_neg]
        exact Int.bmod_eq_of_le (by omega) (by omega)
      have hle : 0 ≤ -value := by
        rw [Int64.le_iff_toInt_le, hopp]
        change 0 ≤ -value.toInt
        omega
      rw [if_pos hmin, Int64.toNat_toUInt64_of_le hle, ← Int64.toNat_toInt, hopp]
      omega
  · rw [if_neg h]
    have hge : 0 ≤ value.toInt := not_lt.mp (mt hneg.mpr h)
    have hle : 0 ≤ value := Int64.le_iff_toInt_le.mpr hge
    rw [Int64.toNat_toUInt64_of_le hle, ← Int64.toNat_toInt]
    omega

theorem sdsll2str_run (hbuf : buf.length = SDS_LLSTR_SIZE) (value : Int64) :
    (sdsll2str value).run buf = .ok ((decimalInt value.toInt).length,
      decimalInt value.toInt ++ 0 :: buf.drop ((decimalInt value.toInt).length + 1)) := by
  have hlow := value.le_toInt
  have hhigh := value.toInt_lt
  have hneg : value < 0 ↔ value.toInt < 0 := Int64.lt_iff_toInt_lt
  have hdigits := digitLoop_run_buf hbuf (magnitude value)
  -- the absolute value has 19 digits, which leaves room for the sign and the terminator
  have hle : (decimal (magnitude value).toNat).length ≤ 19 := by
    refine length_decimal_le (by decide) ?_
    rw [toNat_magnitude]
    omega
  rw [toNat_magnitude] at hdigits hle
  generalize hn : value.toInt.natAbs = n at *
  rw [SDS_LLSTR_SIZE] at hbuf
  have hfirst : (decimal n).length < buf.length := by omega
  have hsecond : (decimal n).length + 1 < buf.length := by omega
  rw [sdsll2str, run_bind_of_ok hdigits, List.drop_eq_getElem_cons hfirst, decimalInt, hn]
  by_cases h : value < 0
  · rw [if_pos h, if_pos (hneg.mp h), List.drop_eq_getElem_cons hsecond, List.length_cons]
    have hlen : (decimal n).reverse.length = (decimal n).length := List.length_reverse
    have hstore := Array8.store_run hlen buf[(decimal n).length] 45
      (buf[(decimal n).length + 1] :: buf.drop ((decimal n).length + 1 + 1))
    have hturn := turnAround_run ((decimal n).reverse ++ [45])
      (buf.drop ((decimal n).length + 1 + 1)) buf[(decimal n).length + 1]
    simp only [List.length_append, List.length_reverse, List.length_singleton, List.append_assoc,
      List.reverse_append, List.reverse_reverse, List.reverse_singleton, List.singleton_append]
      at hturn
    exact (run_bind_of_ok hstore _).trans hturn
  · rw [if_neg h, if_neg (mt hneg.mpr h)]
    have hturn := turnAround_run (decimal n).reverse (buf.drop ((decimal n).length + 1))
      buf[(decimal n).length]
    rw [List.length_reverse, List.reverse_reverse] at hturn
    exact hturn

end Numbers

/-! ## The function -/

/-- An argument behind the format. -/
inductive FmtArg where
  | ptr (str : Source)
  | int (x : Int32)
  | longlong (x : Int64)
  | unsigned (x : UInt32)
  | ulonglong (x : UInt64)

/-- The variables of `sdscatfmt`; `f` is what is left of the format in front of its terminator. -/
structure Fmt where
  s : Ptr
  f : List UInt8
  i : Nat
  ap : List FmtArg

/-- `va_arg(ap, char *)`; an argument of another type has no meaning. -/
def vaPtr : List FmtArg → Exec Mem (Source × List FmtArg)
  | .ptr str :: ap => return (str, ap)
  | _ => throw .undefined

/-- `num`, from an `int` for `i` and from a `long long` for `I`. -/
def vaSigned (next : UInt8) : List FmtArg → Exec Mem (Int64 × List FmtArg)
  | .int x :: ap => if next = chr 'i' then return (x.toInt64, ap) else throw .undefined
  | .longlong x :: ap => if next = chr 'i' then throw .undefined else return (x, ap)
  | _ => throw .undefined

/-- `unum`, from an `unsigned int` for `u` and from an `unsigned long long` for `U`. -/
def vaUnsigned (next : UInt8) : List FmtArg → Exec Mem (UInt64 × List FmtArg)
  | .unsigned x :: ap => if next = chr 'u' then return (x.toUInt64, ap) else throw .undefined
  | .ulonglong x :: ap => if next = chr 'u' then throw .undefined else return (x, ap)
  | _ => throw .undefined

/-- `(next == 's') ? strlen(str) : sdslen(str)` -/
def strLen (next : UInt8) (str : Source) : Exec Mem Nat :=
  if next = chr 's' then strlen str
  else
    match str with
    | .mem p => sdslen p
    | .bytes _ => throw .undefined

/-- `if (short) s = sdsMakeRoomFor(s, l);` -/
def roomIf (al : Allocator) (short : Bool) (s : Ptr) (l : Nat) : Exec Mem Ptr :=
  if short then sdsMakeRoomFor al s l else return s

/-- Make room for `l` bytes, copy them to `s + i` and count them. -/
def catItem (al : Allocator) (q : Fmt) (str : Source) (l : Nat) : Exec Mem Fmt := do
  let avail ← sdsavail q.s
  let s ← roomIf al (avail < l) q.s l
  -- the bytes are counted after they are in place
  memcpy (s.add q.i) str l
  sdsinclen s l
  return { q with s, i := q.i + l }

/-- `s[i++] = c; sdsinclen(s, 1);` -/
def catChar (q : Fmt) (c : UInt8) : Exec Mem Fmt := do
  store8 (q.s.add q.i) c
  sdsinclen q.s 1
  return { q with i := q.i + 1 }

/-- `switch (next)`; `buf` is what the array for the digits holds at first. -/
def catSpec (al : Allocator) (buf : List UInt8) (q : Fmt) (next : UInt8) : Exec Mem Fmt := do
  if next = chr 's' ∨ next = chr 'S' then
    let (str, ap) ← vaPtr q.ap
    let l ← strLen next str
    catItem al { q with ap } str l
  else if next = chr 'i' ∨ next = chr 'I' then
    let (num, ap) ← vaSigned next q.ap
    let (l, buf) ← (sdsll2str num).run buf
    catItem al { q with ap } (.bytes buf) l
  else if next = chr 'u' ∨ next = chr 'U' then
    let (unum, ap) ← vaUnsigned next q.ap
    let (l, buf) ← (sdsull2str unum).run buf
    catItem al { q with ap } (.bytes buf) l
  else catChar q next

/-- One turn of `while (*f)`. -/
def fmtTurn (al : Allocator) (buf : List UInt8) (q : Fmt) : Exec Mem Fmt := do
  match q.f with
  | [] => return q
  | c :: f =>
      let avail ← sdsavail q.s
      -- one byte is made sure of, whatever the turn appends
      let s ← roomIf al (avail = 0) q.s 1
      if c = chr '%' then
        match f with
        -- a lone `%` at the end of the format
        | [] => return { q with s, f }
        | next :: f => catSpec al buf { q with s, f } next
      else catChar { q with s, f } c

/-- The loop, in at most the given number of turns. -/
def fmtLoop (al : Allocator) (buf : List UInt8) : Nat → Fmt → Exec Mem Fmt
  | 0, _ => throw .diverged
  | fuel + 1, q =>
      if q.f = [] then return q
      else do
        let q ← fmtTurn al buf q
        fmtLoop al buf fuel q

/-- `fmt` are the bytes in front of the terminator of the format. -/
def sdscatfmt (al : Allocator) (buf : Vector UInt8 SDS_LLSTR_SIZE) (s : Ptr) (fmt : List UInt8)
    (ap : List FmtArg) : Exec Mem Ptr := do
  let initlen ← sdslen s
  -- a guess: room is made again where it is not enough
  let s ← sdsMakeRoomFor al s (sizeT (initlen + fmt.length * 2))
  let q ← fmtLoop al buf.toList (fmt.length + 1) ⟨s, fmt, initlen, ap⟩
  store8 (q.s.add q.i) 0
  return q.s

/-! ## What a format stands for -/

/-- The argument stands for the text `t` where the format has `%c`. It does not lie in block `i`,
the string that is appended to. -/
def FmtArg.Renders (m : Mem) (i : Nat) (c : UInt8) : FmtArg → List UInt8 → Prop
  | ptr str, t =>
      (c = chr 's' ∧ str.Holds m (t ++ [0]) ∧ 0 ∉ t ∧ str.Avoids i) ∨
      (c = chr 'S' ∧ ∃ (k : Nat) (w : Value), str = .mem (handle k w.type) ∧ k ≠ i ∧ w.At m k ∧
        w.content = t)
  | int x, t => c = chr 'i' ∧ t = decimalInt x.toInt
  | longlong x, t => c = chr 'I' ∧ t = decimalInt x.toInt
  | unsigned x, t => c = chr 'u' ∧ t = decimal x.toNat
  | ulonglong x, t => c = chr 'U' ∧ t = decimal x.toNat

/-- The characters behind `%` that take an argument. -/
def specChars : List UInt8 := [chr 's', chr 'S', chr 'i', chr 'I', chr 'u', chr 'U']

/-- The format and the arguments, which match it, stand for a text. -/
inductive Expands (m : Mem) (i : Nat) : List UInt8 → List FmtArg → List UInt8 → Prop where
  | done (ap : List FmtArg) : Expands m i [] ap []
  | lone (ap : List FmtArg) : Expands m i [chr '%'] ap []
  | char {c : UInt8} {f t : List UInt8} {ap : List FmtArg} (hc : c ≠ chr '%')
      (h : Expands m i f ap t) : Expands m i (c :: f) ap (c :: t)
  | other {c : UInt8} {f t : List UInt8} {ap : List FmtArg} (hc : c ∉ specChars)
      (h : Expands m i f ap t) : Expands m i (chr '%' :: c :: f) ap (c :: t)
  | arg {c : UInt8} {f t u : List UInt8} {a : FmtArg} {ap : List FmtArg}
      (ha : a.Renders m i c u) (h : Expands m i f ap t) :
      Expands m i (chr '%' :: c :: f) (a :: ap) (u ++ t)

/-- Arguments that are not in the string keep their meaning when the string is written or moved. -/
theorem FmtArg.Renders.moved {m m' : Mem} {i j : Nat} {c : UInt8} {a : FmtArg} {t : List UInt8}
    (h : a.Renders m i c t) (hm : m.Moved m' i j) : a.Renders m' j c t := by
  cases a with
  | ptr str =>
      rcases h with ⟨rfl, hstr, hz, hav⟩ | ⟨rfl, k, w, rfl, hk, ⟨b, hb, hs⟩, rfl⟩
      · obtain ⟨hstr', hav'⟩ := hstr.moved hav hm
        exact Or.inl ⟨rfl, hstr', hz, hav'⟩
      · have hlt := Mem.lt_next hb
        -- `j` is `i` or a block that did not exist
        have hkj : k ≠ j := by
          rcases hm.target with rfl | hj
          · exact hk
          · omega
        exact Or.inr ⟨rfl, k, w, rfl, hkj, ⟨b, by rw [hm.keeps k hk hlt, hb], hs⟩, rfl⟩
  | _ => exact h

theorem Expands.moved {m m' : Mem} {i j : Nat} {f t : List UInt8} {ap : List FmtArg}
    (h : Expands m i f ap t) (hm : m.Moved m' i j) : Expands m' j f ap t := by
  induction h with
  | done ap => exact .done ap
  | lone ap => exact .lone ap
  | char hc _ ih => exact .char hc ih
  | other hc _ ih => exact .other hc ih
  | arg ha _ ih => exact .arg (ha.moved hm) ih

/-! ## Appending without a terminator -/

/-- Block `i` holds the value, with any byte where the terminator belongs. -/
def Value.OpenAt (v : Value) (m : Mem) (i : Nat) : Prop :=
  ∃ b, m.blocks i = some b ∧ OpenBlock v.type v.content v.cap b

/-- What appending `t` does to memory: the string may have been moved to make room; then bytes of
its header and the places of `t` were written, which its capacity includes. -/
structure Appended (m m' : Mem) (i j : Nat) (v w : Value) (t : List UInt8) : Prop where
  ne_type5 : w.type ≠ .type5
  content : w.content = v.content ++ t
  opened : w.OpenAt m' j
  moved : m.Moved m' i j
  written : ∃ m₁ g, m.Moved m₁ i j ∧ m' = m₁.mapBlock j g ∧ ∀ b k, (g b).data k ≠ b.data k →
    k < w.type.hdrSize ∨ ∃ p, v.content.length ≤ p ∧ p < w.content.length ∧ w.content.length ≤ w.cap ∧
      k = w.type.hdrSize + p

section Append

variable {al : Allocator} {m m' : Mem} {i j : Nat} {v v' w : Value} {t : List UInt8} {l : Nat}

theorem Value.OpenAt.lt_next (h : v.OpenAt m i) : i < m.next := by
  obtain ⟨b, hb, -⟩ := h
  exact Mem.lt_next hb

theorem Value.OpenAt.len_run (h : v.OpenAt m i) :
    (sdslen (handle i v.type)).run m = .ok (v.content.length, m) := by
  obtain ⟨b, hb, hs⟩ := h
  exact hs.len_run hb

theorem Value.OpenAt.avail_run (h : v.OpenAt m i) :
    (sdsavail (handle i v.type)).run m = .ok (v.cap - v.content.length, m) := by
  obtain ⟨b, hb, hs⟩ := h
  exact hs.avail_run hb

theorem Value.OpenAt.makeRoom_run (hal : al m.requests.length ≠ none) (h : v.OpenAt m i)
    (hfit : v.RoomFits l) :
    ∃ j m', (sdsMakeRoomFor al (handle i v.type) l).run m =
        .ok (handle j (v.makeRoom l).type, m') ∧
      (v.makeRoom l).OpenAt m' j ∧ m.Moved m' i j := by
  obtain ⟨b, hb, hs⟩ := h
  obtain ⟨j, m', b', hrun, hb', hs', -, hmoved⟩ := sdsMakeRoomFor_open hal hb hs hfit
  exact ⟨j, m', hrun, ⟨b', hb', by rwa [Value.makeRoom_content]⟩, hmoved⟩

/-- `if (sdsavail(s) < l) s = sdsMakeRoomFor(s, l);` -/
theorem Value.OpenAt.ensure_run (hal : ∀ k, al k ≠ none) (h : v.OpenAt m i)
    (hfit : v.content.length + l < 2 ^ 63) :
    ∃ j m', (roomIf al (v.cap - v.content.length < l) (handle i v.type) l).run m =
        .ok (handle j (v.makeRoom l).type, m') ∧
      (v.makeRoom l).OpenAt m' j ∧ m.Moved m' i j := by
  rw [roomIf]
  by_cases hlt : v.cap - v.content.length < l
  · rw [if_pos (decide_eq_true hlt)]
    exact h.makeRoom_run (hal _) (Value.roomFits_of_lt hfit)
  · rw [if_neg (by simpa using hlt)]
    have hval : v.makeRoom l = v := if_pos (not_lt.mp hlt)
    rw [hval]
    exact ⟨i, m, rfl, h, Mem.Moved.refl m i⟩

/-- The terminator closes the string. -/
theorem Value.OpenAt.close_run (h : v.OpenAt m i) :
    ∃ g : Block → Block, (store8 ((handle i v.type).add v.content.length) 0).run m =
      .ok ((), m.mapBlock i g) ∧ v.At (m.mapBlock i g) i := by
  obtain ⟨b, hb, ho⟩ := h
  have hroom := ho.room
  have hle := ho.len_le
  have hpos := v.type.hdrSize_pos
  have hst := store8_run (o := v.type.hdrSize + v.content.length) hb (by omega) 0
  have hkeep : ∀ x, x < v.type.hdrSize + v.content.length →
      (b.patch (v.type.hdrSize + v.content.length) 1 fun _ => 0).data x = b.data x :=
    fun x hx => Block.patch_data_of_lt hx
  refine ⟨_, hst, _, Mem.mapBlock_blocks_self hb _, OpenBlock.closed
    { tagged := ho.tagged.patch (by omega) _
      len := (SdsType.lenIn_congr fun x hx => hkeep x (by omega)).trans ho.len
      alloc := (SdsType.allocIn_congr fun x hx => hkeep x (by omega)).trans ho.alloc
      len_le := ho.len_le
      room := ho.room
      size_lt := ho.size_lt
      content := fun x hx => by rw [hkeep _ (by omega)]; exact ho.content x hx } ?_⟩
  exact Block.patch_data_add (k := 0) Nat.zero_lt_one

/-- A string that is grown has a header with a capacity. -/
theorem Value.makeRoom_ne_type5 (h : v.cap - v.content.length < l ∨ v.type ≠ .type5) :
    (v.makeRoom l).type ≠ .type5 := by
  rw [Value.makeRoom]
  split
  next hle =>
    rcases h with hlt | hne
    · exact absurd hle (not_le.mpr hlt)
    · exact hne
  next => exact growType_ne_type5 _

/-- The room was made before. -/
theorem Appended.after {m₁ : Mem} (h : Appended m₁ m' i j v' w t) {i' : Nat}
    (hm : m.Moved m₁ i' i) (hi : i' < m.next) (hc : v'.content = v.content) :
    Appended m m' i' j v w t := by
  obtain ⟨m₂, g, hm₂, heq, hg⟩ := h.written
  refine ⟨h.ne_type5, hc ▸ h.content, h.opened, hm.comp h.moved hi, m₂, g, hm.comp hm₂ hi, heq, ?_⟩
  rwa [← hc]

/-- The bytes `t` are written behind the content, and the length is increased. -/
theorem append_run (h : v.OpenAt m i) (h5 : v.type ≠ .type5)
    (hroom : v.content.length + t.length ≤ v.cap) {f : Nat → UInt8}
    (hf : ∀ k, k < t.length → f k = t.getD k 0) :
    ∃ m', (sdsinclen (handle i v.type) t.length).run
        (m.mapBlock i fun b => b.patch (v.type.hdrSize + v.content.length) t.length f) =
          .ok ((), m') ∧
      Appended m m' i i v ⟨v.type, v.content ++ t, v.cap⟩ t := by
  obtain ⟨b, hb, hs⟩ := h
  have hlim := hs.alloc ▸ v.type.allocIn_lt b
  have hfits := hs.tagged.fits
  have hsize := hs.room
  have hb₁ := Mem.mapBlock_blocks_self hb fun b =>
    b.patch (v.type.hdrSize + v.content.length) t.length f
  have htag : Tagged v.type (b.patch (v.type.hdrSize + v.content.length) t.length f) :=
    hs.tagged.patch (by omega) f
  have hhdr : ∀ k, k < v.type.hdrSize →
      (b.patch (v.type.hdrSize + v.content.length) t.length f).data k = b.data k :=
    fun k hk => Block.patch_data_of_lt (by omega)
  have hinc := sdsinclen_run hb₁ htag h5 t.length
  rw [SdsType.lenIn_congr hhdr, hs.len] at hinc
  have hlen : v.content.length + t.length < v.type.limit := by omega
  refine ⟨_, hinc, h5, rfl, ?_, ((Mem.Moved.refl m i).mapBlock _).mapBlock _, m,
    fun b => v.type.withLen (v.content.length + t.length)
      (b.patch (v.type.hdrSize + v.content.length) t.length f),
    Mem.Moved.refl m i, Mem.mapBlock_mapBlock .., ?_⟩
  · refine ⟨_, Mem.mapBlock_blocks_self hb₁ _, ?_⟩
    refine
      { tagged := htag.withLen hlen
        len := ?_
        alloc := ?_
        len_le := by rw [List.length_append]; exact hroom
        room := by rw [SdsType.withLen_size, Block.patch_size]; exact hsize
        size_lt := by rw [SdsType.withLen_size, Block.patch_size]; exact hs.size_lt
        content := fun k hk => ?_ }
    · rw [SdsType.lenIn_withLen _ hlen, List.length_append]
    · rw [SdsType.allocIn_withLen _ h5, SdsType.allocIn_congr hhdr, hs.alloc]
    · -- the old content is in front of the new bytes
      change k < (v.content ++ t).length at hk
      rw [List.length_append] at hk
      change Block.data _ (v.type.hdrSize + k) = (v.content ++ t).getD k 0
      rw [SdsType.withLen_data _ (by omega)]
      rcases Nat.lt_or_ge k v.content.length with hkc | hkc
      · rw [Block.patch_data_of_lt (by omega), hs.content k hkc, List.getD_append _ _ _ _ hkc]
      · obtain ⟨d, rfl⟩ := Nat.exists_eq_add_of_le hkc
        rw [← Nat.add_assoc, Block.patch_data_add (by omega), hf d (by omega),
          List.getD_append_right _ _ _ _ hkc, Nat.add_sub_cancel_left]
  · intro b k hk
    rcases Nat.lt_or_ge k v.type.hdrSize with hkh | hkh
    · exact Or.inl hkh
    · rw [SdsType.withLen_data _ hkh] at hk
      obtain ⟨p, rfl⟩ := Nat.exists_eq_add_of_le hkh
      refine Or.inr ⟨p, ?_, ?_, ?_, rfl⟩
      · by_contra hlt
        exact hk (Block.patch_data_of_lt (by omega))
      · by_contra hge
        rw [List.length_append] at hge
        exact hk (Block.patch_data_of_ge (by omega))
      · rw [List.length_append]
        exact hroom

end Append

/-! ## One turn -/

section Turn

variable {al : Allocator} {m : Mem} {i : Nat} {v : Value} {f t u : List UInt8} {c : UInt8}
  {a : FmtArg} {ap : List FmtArg} {buf : List UInt8} {q : Fmt}

/-- The head of the loop: the string is open, and `i` is its length. Only the empty format leaves a
header without a capacity. -/
structure Writing (m : Mem) (q : Fmt) (i : Nat) (v : Value) : Prop where
  handle : q.s = Sds.handle i v.type
  opened : v.OpenAt m i
  pos : q.i = v.content.length
  ne_type5 : q.f ≠ [] → v.type ≠ .type5

/-- An item of `l` bytes. -/
theorem catItem_run (hal : ∀ k, al k ≠ none) {str : Source} (h : v.OpenAt m i)
    (h5 : v.type ≠ .type5) (hs : str.Holds m t) (hav : str.Avoids i)
    (hfit : v.content.length + t.length < 2 ^ 63) (f : List UInt8) (ap : List FmtArg) :
    ∃ j w m', (catItem al ⟨handle i v.type, f, v.content.length, ap⟩ str t.length).run m =
        .ok (⟨handle j w.type, f, w.content.length, ap⟩, m') ∧ Appended m m' i j v w t := by
  obtain ⟨j, m₁, hmake, h₁, hmoved⟩ := h.ensure_run hal hfit
  obtain ⟨hs₁, hav₁⟩ := hs.moved hav hmoved
  have hcap : v.content.length + t.length ≤ (v.makeRoom t.length).cap := by
    obtain ⟨b, -, ho⟩ := h
    exact v.le_cap_makeRoom t.length ho.len_le
  have hne := Value.makeRoom_ne_type5 (l := t.length) (Or.inr h5)
  have hcontent := v.makeRoom_content t.length
  generalize v.makeRoom t.length = w at *
  obtain ⟨b, hb, ho⟩ := h₁
  have hroom := ho.room
  obtain ⟨g, hcpy, hg⟩ := memcpy_run (o := w.type.hdrSize + w.content.length) hb
    (by rw [hcontent]; omega) hs₁ hav₁
  obtain ⟨m', hinc, happ⟩ := append_run ⟨b, hb, ho⟩ hne (by rw [hcontent]; exact hcap) hg
  refine ⟨j, _, m', ?_, happ.after hmoved h.lt_next hcontent⟩
  rw [catItem]
  apply (run_bind_of_ok h.avail_run _).trans
  apply (run_bind_of_ok hmake _).trans
  rw [← hcontent]
  apply (run_bind_of_ok hcpy _).trans
  apply (run_bind_of_ok hinc _).trans
  rw [List.length_append]
  rfl

/-- A single character, for which there is room. -/
theorem catChar_run (h : v.OpenAt m i) (h5 : v.type ≠ .type5) (hroom : v.content.length < v.cap)
    (f : List UInt8) (ap : List FmtArg) (c : UInt8) :
    ∃ j w m', (catChar ⟨handle i v.type, f, v.content.length, ap⟩ c).run m =
        .ok (⟨handle j w.type, f, w.content.length, ap⟩, m') ∧ Appended m m' i j v w [c] := by
  obtain ⟨b, hb, ho⟩ := h
  have hsize := ho.room
  have hst := store8_run (o := v.type.hdrSize + v.content.length) hb (by omega) c
  obtain ⟨m', hinc, happ⟩ := append_run (t := [c]) (f := fun _ => c) ⟨b, hb, ho⟩ h5 hroom
    (fun k hk => by rw [Nat.lt_one_iff.mp hk]; rfl)
  refine ⟨i, _, m', ?_, happ⟩
  rw [catChar]
  apply (run_bind_of_ok hst _).trans
  apply (run_bind_of_ok hinc _).trans
  rw [List.length_append]
  rfl

/-- An item with its argument. -/
theorem catSpec_run (hal : ∀ k, al k ≠ none) (hbuf : buf.length = SDS_LLSTR_SIZE)
    (h : v.OpenAt m i) (h5 : v.type ≠ .type5) (ha : a.Renders m i c t)
    (hfit : v.content.length + t.length < 2 ^ 63) (f : List UInt8) (ap : List FmtArg) :
    ∃ j w m', (catSpec al buf ⟨handle i v.type, f, v.content.length, a :: ap⟩ c).run m =
        .ok (⟨handle j w.type, f, w.content.length, ap⟩, m') ∧ Appended m m' i j v w t := by
  have hitem := fun str (hs : Source.Holds m t str) hav => catItem_run hal h h5 hs hav hfit f ap
  -- the digits are at the start of the array
  have hdigits : ∀ rest, (Source.bytes (t ++ 0 :: rest)).Holds m t := fun rest =>
    List.prefix_append t _
  rw [catSpec]
  cases a with
  | ptr str =>
      rcases ha with ⟨rfl, hs, hz, hav⟩ | ⟨rfl, k, w, rfl, hk, ⟨b, hb, ho⟩, rfl⟩
      · obtain ⟨j, w, m', hrun, happ⟩ := hitem str (hs.of_prefix (List.prefix_append _ _)) hav
        refine ⟨j, w, m', ?_, happ⟩
        rw [if_pos (Or.inl rfl)]
        exact (run_bind_of_ok (strlen_run hs hz) _).trans hrun
      · obtain ⟨j, w', m', hrun, happ⟩ := hitem _ (ho.holds_content hb) (avoids_handle w.type hk)
        refine ⟨j, w', m', ?_, happ⟩
        rw [if_pos (Or.inr rfl)]
        exact (run_bind_of_ok (ho.len_run hb) _).trans hrun
  | int x =>
      obtain ⟨rfl, rfl⟩ := ha
      have hnum := sdsll2str_run hbuf x.toInt64
      rw [Int32.toInt_toInt64] at hnum
      obtain ⟨j, w, m', hrun, happ⟩ := hitem _ (hdigits _) trivial
      refine ⟨j, w, m', ?_, happ⟩
      rw [if_neg (by decide), if_pos (Or.inl rfl)]
      simp only [vaSigned, if_pos, pure_bind, hnum]
      exact hrun
  | longlong x =>
      obtain ⟨rfl, rfl⟩ := ha
      have hnum := sdsll2str_run hbuf x
      obtain ⟨j, w, m', hrun, happ⟩ := hitem _ (hdigits _) trivial
      refine ⟨j, w, m', ?_, happ⟩
      rw [if_neg (by decide), if_pos (Or.inr rfl)]
      simp only [vaSigned, if_neg (show ¬ chr 'I' = chr 'i' by decide), pure_bind, hnum]
      exact hrun
  | unsigned x =>
      obtain ⟨rfl, rfl⟩ := ha
      have hnum := sdsull2str_run hbuf x.toUInt64
      rw [UInt32.toNat_toUInt64] at hnum
      obtain ⟨j, w, m', hrun, happ⟩ := hitem _ (hdigits _) trivial
      refine ⟨j, w, m', ?_, happ⟩
      rw [if_neg (by decide), if_neg (by decide), if_pos (Or.inl rfl)]
      simp only [vaUnsigned, if_pos, pure_bind, hnum]
      exact hrun
  | ulonglong x =>
      obtain ⟨rfl, rfl⟩ := ha
      have hnum := sdsull2str_run hbuf x
      obtain ⟨j, w, m', hrun, happ⟩ := hitem _ (hdigits _) trivial
      refine ⟨j, w, m', ?_, happ⟩
      rw [if_neg (by decide), if_neg (by decide), if_pos (Or.inr rfl)]
      simp only [vaUnsigned, if_neg (show ¬ chr 'U' = chr 'u' by decide), pure_bind, hnum]
      exact hrun

/-- A lone `%` gives nothing. -/
theorem Appended.refl (h : v.OpenAt m i) (h5 : v.type ≠ .type5) : Appended m m i i v v [] where
  ne_type5 := h5
  content := (List.append_nil _).symm
  opened := h
  moved := Mem.Moved.refl m i
  written := ⟨m, fun b => b, Mem.Moved.refl m i, (Mem.mapBlock_id m i).symm,
    fun _ _ hne => absurd rfl hne⟩

theorem catSpec_run_other (hc : c ∉ specChars) (q : Fmt) :
    catSpec al buf q c = catChar q c := by
  simp only [specChars, List.mem_cons, List.not_mem_nil, or_false, not_or] at hc
  obtain ⟨hs, hS, hi, hI, hu, hU⟩ := hc
  simp only [catSpec, hs, hS, hi, hI, hu, hU, or_self, if_false]

/-- What one turn leads to: the text `u` has been appended, and the rest of the format stands for
the rest of the text. -/
structure Turned (m m' : Mem) (q q' : Fmt) (i j : Nat) (v w : Value) (u t : List UInt8) : Prop where
  appended : Appended m m' i j v w u
  writing : Writing m' q' j w
  rest : Expands m' j q'.f q'.ap t
  shorter : q'.f.length < q.f.length

theorem Turned.of_appended {m' : Mem} {j : Nat} {w : Value} {f' : List UInt8} {ap' : List FmtArg}
    {s : Ptr} {pos : Nat} (happ : Appended m m' i j v w u) (hexp : Expands m i f' ap' t)
    (hlen : f'.length < f.length) :
    Turned m m' ⟨s, f, pos, ap⟩ ⟨handle j w.type, f', w.content.length, ap'⟩ i j v w u t :=
  ⟨happ, ⟨rfl, happ.opened, rfl, fun _ => happ.ne_type5⟩, hexp.moved happ.moved, hlen⟩

theorem fmtTurn_run (hal : ∀ k, al k ≠ none) (hbuf : buf.length = SDS_LLSTR_SIZE)
    (h : Writing m q i v) (hexp : Expands m i q.f q.ap t) (hne : q.f ≠ [])
    (hfit : v.content.length + t.length + 1 < 2 ^ 63) :
    ∃ q' j w u t' m', (fmtTurn al buf q).run m = .ok (q', m') ∧
      Turned m m' q q' i j v w u t' ∧ t = u ++ t' := by
  obtain ⟨s, f, pos, ap⟩ := q
  obtain ⟨rfl, hopen, rfl, h5⟩ := h
  have h5 := h5 hne
  -- room for one byte is made first
  obtain ⟨k, m₁, hroom, hopen₁, hmoved⟩ := hopen.ensure_run (l := 1) hal (by omega)
  have hzero : decide (v.cap - v.content.length < 1) = decide (v.cap - v.content.length = 0) :=
    decide_eq_decide.mpr Nat.lt_one_iff
  rw [hzero] at hroom
  have hcap : v.content.length + 1 ≤ (v.makeRoom 1).cap := by
    obtain ⟨b, -, ho⟩ := hopen
    exact v.le_cap_makeRoom 1 ho.len_le
  have h5₁ := Value.makeRoom_ne_type5 (l := 1) (Or.inr h5)
  have hcontent := v.makeRoom_content 1
  generalize v.makeRoom 1 = v₁ at *
  have hafter : ∀ {m' j w u}, Appended m₁ m' k j v₁ w u → Appended m m' i j v w u :=
    fun happ => happ.after hmoved hopen.lt_next hcontent
  have hchar := fun f ap c => catChar_run hopen₁ h5₁ (by rw [hcontent]; omega) f ap c
  change Expands m i f ap t at hexp
  rw [hcontent] at hchar
  cases hexp with
  | done => exact absurd rfl hne
  | lone =>
      have happ := hafter (Appended.refl hopen₁ h5₁)
      refine ⟨_, k, v₁, [], [], m₁, ?_, .of_appended happ (.done ap) (Nat.zero_lt_one), rfl⟩
      rw [fmtTurn, run_bind_of_ok hopen.avail_run]
      apply (run_bind_of_ok hroom _).trans
      rw [if_pos rfl, hcontent]
      rfl
  | @char c f t _ hc hexp =>
      obtain ⟨j, w, m', hrun, happ⟩ := hchar f ap c
      refine ⟨_, j, w, [c], t, m', ?_, .of_appended (hafter happ) hexp (Nat.lt_succ_self _), rfl⟩
      rw [fmtTurn, run_bind_of_ok hopen.avail_run]
      apply (run_bind_of_ok hroom _).trans
      rw [if_neg hc]
      exact hrun
  | @other c f t _ hc hexp =>
      obtain ⟨j, w, m', hrun, happ⟩ := hchar f ap c
      refine ⟨_, j, w, [c], t, m', ?_, .of_appended (hafter happ) hexp (by simp), rfl⟩
      rw [fmtTurn, run_bind_of_ok hopen.avail_run]
      apply (run_bind_of_ok hroom _).trans
      rw [if_pos rfl]
      exact (congrArg (·.run m₁) (catSpec_run_other hc _)).trans hrun
  | @arg c f t u a ap ha hexp =>
      rw [List.length_append] at hfit
      obtain ⟨j, w, m', hrun, happ⟩ := catSpec_run hal hbuf hopen₁ h5₁ (ha.moved hmoved)
        (by rw [hcontent]; omega) f ap
      refine ⟨_, j, w, u, t, m', ?_, .of_appended (hafter happ) hexp (by simp), rfl⟩
      rw [fmtTurn, run_bind_of_ok hopen.avail_run]
      apply (run_bind_of_ok hroom _).trans
      rw [if_pos rfl]
      rw [hcontent] at hrun
      exact hrun

end Turn

/-! ## The whole run -/

section Loop

variable {al : Allocator} {m : Mem} {i : Nat} {v : Value} {fmt t : List UInt8} {ap : List FmtArg}
  {buf : List UInt8} {q : Fmt}

theorem fmtLoop_run (hal : ∀ k, al k ≠ none) (hbuf : buf.length = SDS_LLSTR_SIZE) (fuel : Nat) :
    ∀ {m : Mem} {q : Fmt} {i : Nat} {v : Value} {t : List UInt8}, Writing m q i v →
      Expands m i q.f q.ap t → v.content.length + t.length + 1 < 2 ^ 63 → q.f.length < fuel →
      ∃ q' j w m', (fmtLoop al buf fuel q).run m = .ok (q', m') ∧ Writing m' q' j w ∧
        w.content = v.content ++ t ∧ m.Moved m' i j := by
  induction fuel with
  | zero =>
      intro m q i v t _ _ _ hfuel
      exact absurd hfuel (Nat.not_lt_zero _)
  | succ fuel ih =>
      intro m q i v t h hexp hfit hfuel
      rw [fmtLoop]
      rcases eq_or_ne q.f [] with hnil | hne
      · rw [hnil] at hexp
        cases hexp
        exact ⟨q, i, v, m, by rw [if_pos hnil]; rfl, h, (List.append_nil _).symm, .refl m i⟩
      · obtain ⟨q', j, w, u, t', m₁, hrun, hturn, rfl⟩ := fmtTurn_run hal hbuf h hexp hne hfit
        have hcontent := hturn.appended.content
        have hlen := congrArg List.length hcontent
        have hshort := hturn.shorter
        rw [List.length_append] at hfit hlen
        obtain ⟨q'', k, w', m', hrest, hw, hall, hmoved⟩ :=
          ih hturn.writing hturn.rest (by omega) (by omega)
        refine ⟨q'', k, w', m', ?_, hw, ?_, hturn.appended.moved.comp hmoved h.opened.lt_next⟩
        · rw [if_neg hne, run_bind_of_ok hrun, hrest]
        · rw [hall, hcontent, List.append_assoc]

/-- Room is made first, for twice the format. -/
theorem firstRoom_run (hal : ∀ k, al k ≠ none) (hv : v.At m i) (hexp : Expands m i fmt ap t)
    (hsize : 2 * (v.content.length + fmt.length) < 2 ^ 63) :
    ∃ j w m', (sdsMakeRoomFor al (handle i v.type)
        (sizeT (v.content.length + fmt.length * 2))).run m = .ok (handle j w.type, m') ∧
      Writing m' ⟨handle j w.type, fmt, v.content.length, ap⟩ j w ∧ Expands m' j fmt ap t ∧
      w.content = v.content ∧ m.Moved m' i j := by
  obtain ⟨b, hb, hs⟩ := hv
  have hn : sizeT (v.content.length + fmt.length * 2) = v.content.length + fmt.length * 2 := by
    refine Nat.mod_eq_of_lt ?_
    rw [SIZE_COUNT]
    omega
  have hopen : v.OpenAt m i := ⟨b, hb, hs.opened⟩
  obtain ⟨j, m', hrun, hopen', hmoved⟩ := hopen.makeRoom_run (hal _) (Value.roomFits_of_lt
    (n := v.content.length + fmt.length * 2) (by omega))
  rw [hn]
  refine ⟨j, _, m', hrun, ⟨rfl, hopen', by rw [Value.makeRoom_content], fun hne => ?_⟩,
    hexp.moved hmoved, Value.makeRoom_content _ _, hmoved⟩
  refine Value.makeRoom_ne_type5 ?_
  rcases eq_or_ne v.type .type5 with h5 | h5
  · -- a type 5 string has no room at all
    have hpos : 0 < fmt.length := List.length_pos_iff.mpr hne
    rw [h5] at hs
    have hcap := hs.cap_eq_of_type5
    exact Or.inl (by omega)
  · exact Or.inr h5

theorem sdscatfmt_yields (hal : ∀ k, al k ≠ none) (buf : Vector UInt8 SDS_LLSTR_SIZE)
    (hv : v.At m i) (hexp : Expands m i fmt ap t)
    (hsize : 2 * (v.content.length + fmt.length) < 2 ^ 63)
    (hfit : v.content.length + t.length + 1 < 2 ^ 63) :
    ∃ w, Yields ((sdscatfmt al buf (handle i v.type) fmt ap).run m) m i w ∧
      w.content = v.content ++ t := by
  obtain ⟨j, w, m₁, hroom, hwriting, hexp₁, hcontent, hmoved⟩ := firstRoom_run hal hv hexp hsize
  obtain ⟨q, k, w', m₂, hloop, hq, hall, hmoved'⟩ := fmtLoop_run hal buf.length_toList
    (fmt.length + 1) hwriting hexp₁ (by rw [hcontent]; exact hfit) (Nat.lt_succ_self _)
  rw [hcontent] at hall
  obtain ⟨b, hb, hs⟩ := hv
  obtain ⟨g, hst, hat⟩ := hq.opened.close_run
  refine ⟨w', ⟨k, m₂.mapBlock k g, ?_, hat, (hmoved.comp hmoved' (Mem.lt_next hb)).mapBlock _⟩, hall⟩
  rw [sdscatfmt, run_bind_of_ok (hs.len_run hb), run_bind_of_ok hroom, run_bind_of_ok hloop,
    hq.handle, hq.pos]
  exact run_bind_of_ok hst _

/-! ## The heads of the loop -/

/-- The heads of the loop that a call comes to, with the memory there. -/
inductive FmtHead (al : Allocator) (buf : List UInt8) (s : Ptr) (fmt : List UInt8)
    (ap : List FmtArg) (m : Mem) : Fmt → Mem → Prop where
  | start {initlen : Nat} {s' : Ptr} {m' : Mem} (hlen : (sdslen s).run m = .ok (initlen, m))
      (hroom : (sdsMakeRoomFor al s (sizeT (initlen + fmt.length * 2))).run m = .ok (s', m')) :
      FmtHead al buf s fmt ap m ⟨s', fmt, initlen, ap⟩ m'
  | turn {q q' : Fmt} {m₁ m₂ : Mem} (h : FmtHead al buf s fmt ap m q m₁) (hf : q.f ≠ [])
      (hrun : (fmtTurn al buf q).run m₁ = .ok (q', m₂)) : FmtHead al buf s fmt ap m q' m₂

/-- At every head some part of the text has been appended and the format stands for the rest. -/
theorem FmtHead.writing (hal : ∀ k, al k ≠ none) (hbuf : buf.length = SDS_LLSTR_SIZE)
    (hv : v.At m i) (hexp : Expands m i fmt ap t)
    (hsize : 2 * (v.content.length + fmt.length) < 2 ^ 63)
    (hfit : v.content.length + t.length + 1 < 2 ^ 63) {m' : Mem}
    (h : FmtHead al buf (handle i v.type) fmt ap m q m') :
    ∃ j w t', Writing m' q j w ∧ Expands m' j q.f q.ap t' ∧ w.content ++ t' = v.content ++ t := by
  induction h with
  | @start initlen s' m₁ hlen hroom =>
      obtain ⟨j, w, m₂, hroom', hwriting, hexp', hcontent, -⟩ := firstRoom_run hal hv hexp hsize
      obtain ⟨b, hb, hs⟩ := hv
      rw [hs.len_run hb] at hlen
      cases hlen
      rw [hroom'] at hroom
      cases hroom
      exact ⟨j, w, t, hwriting, hexp', by rw [hcontent]⟩
  | @turn q q' m₁ m₂ _ hf hrun ih =>
      obtain ⟨j, w, t', hwriting, hexp', heq⟩ := ih
      have hlen := congrArg List.length heq
      rw [List.length_append, List.length_append] at hlen
      obtain ⟨q'', k, w', u, t'', m₃, hrun', hturn, rfl⟩ :=
        fmtTurn_run hal hbuf hwriting hexp' hf (by omega)
      rw [hrun'] at hrun
      cases hrun
      refine ⟨k, w', t'', hturn.writing, hturn.rest, ?_⟩
      rw [hturn.appended.content, List.append_assoc, heq]

end Loop

/-- What a call has to do: the string returned is well formed and has the text appended. At every
head of the loop `i` is the length, and what the next turn writes, besides the header, lies within
the capacity; so does the length at the end, where the terminator is written. -/
structure Formats (al : Allocator) (buf : Vector UInt8 SDS_LLSTR_SIZE) (m : Mem) (i : Nat)
    (v : Value) (fmt : List UInt8) (ap : List FmtArg) (t : List UInt8) : Prop where
  result : ∃ w, Yields ((sdscatfmt al buf (handle i v.type) fmt ap).run m) m i w ∧
    w.content = v.content ++ t
  heads : ∀ q m', FmtHead al buf.toList (handle i v.type) fmt ap m q m' →
    (sdslen q.s).run m' = .ok (q.i, m') ∧ ∃ j w, Writing m' q j w ∧ (q.f ≠ [] →
      ∃ q' m'' k w' u, (fmtTurn al buf.toList q).run m' = .ok (q', m'') ∧
        Appended m' m'' j k w w' u)

/-- `sdscatfmt` on a well-formed string, a format and arguments that match it, none of which lies in
the string, when every request is granted and no size is one that objects cannot have. -/
theorem sdscatfmt_expands {al : Allocator} {m : Mem} {i : Nat} {v : Value} {fmt t : List UInt8}
    {ap : List FmtArg} (buf : Vector UInt8 SDS_LLSTR_SIZE) (hal : ∀ k, al k ≠ none)
    (hv : v.At m i) (hexp : Expands m i fmt ap t)
    (hsize : 2 * (v.content.length + fmt.length) < 2 ^ 63)
    (hfit : v.content.length + t.length + 1 < 2 ^ 63) : Formats al buf m i v fmt ap t := by
  refine ⟨sdscatfmt_yields hal buf hv hexp hsize hfit, fun q m' h => ?_⟩
  obtain ⟨j, w, t', hwriting, hexp', heq⟩ :=
    h.writing hal buf.length_toList hv hexp hsize hfit
  refine ⟨?_, j, w, hwriting, fun hf => ?_⟩
  · rw [hwriting.handle, hwriting.pos]
    exact hwriting.opened.len_run
  · have hlen := congrArg List.length heq
    rw [List.length_append, List.length_append] at hlen
    obtain ⟨q', k, w', u, t'', m'', hrun, hturn, -⟩ :=
      fmtTurn_run hal buf.length_toList hwriting hexp' hf (by omega)
    exact ⟨q', m'', k, w', u, hrun, hturn.appended⟩

/-- `n=` and the format `%i%%%s%` with -42 and `ok`. -/
theorem sdscatfmt_expands_items :
    ∃ (m : Mem) (i : Nat), (Value.ofBytes [110, 61]).At m i ∧
      Formats (fun _ => some fun _ => 0) (Vector.replicate SDS_LLSTR_SIZE 0) m i
        (Value.ofBytes [110, 61]) [37, 105, 37, 37, 37, 115, 37]
        [.int (-42), .ptr (.bytes [111, 107, 0])] [45, 52, 50, 37, 111, 107] := by
  have hsrc : (Source.bytes [110, 61]).Holds Mem.empty [110, 61] := List.prefix_rfl
  have hnew : Yields ((sdsnewlen (fun _ => some fun _ => 0) (.src (.bytes [110, 61]))
      ([110, 61] : List UInt8).length).run Mem.empty) Mem.empty Mem.empty.next
      (Value.ofBytes [110, 61]) :=
    sdsnewlen_yields (Option.some_ne_none _) hsrc (by decide)
  obtain ⟨i, m, -, hv, -⟩ := hnew
  have hint : (FmtArg.int (-42)).Renders m i 105 [45, 52, 50] := ⟨rfl, by decide⟩
  have hstr : (FmtArg.ptr (.bytes [111, 107, 0])).Renders m i 115 [111, 107] :=
    Or.inl ⟨rfl, List.prefix_rfl, by decide, trivial⟩
  have hexp : Expands m i [37, 105, 37, 37, 37, 115, 37]
      [.int (-42), .ptr (.bytes [111, 107, 0])] [45, 52, 50, 37, 111, 107] :=
    .arg hint (.other (by decide) (.arg hstr (.lone [])))
  exact ⟨m, i, hv, sdscatfmt_expands (Vector.replicate SDS_LLSTR_SIZE 0)
    (fun _ => Option.some_ne_none _) hv hexp (by decide) (by decide)⟩

end CLanguageLearning.Sds
