import CLanguageLearning.Foundation.Splitting
import CLanguageLearning.Sds.Runs

/-!
# Splitting and joining strings

`sdssplitlen` and `sdsjoinsds` on the byte memory. The strings and the array of their handles are
allocated blocks; the handles themselves are kept beside the bytes (`SdsArray`), and an access to an
entry has a meaning only inside the array's block. `sdssplitlen_splits` says that the tokens are the
pieces between the leftmost separators and that joining them gives the text back.
-/

set_option autoImplicit false

namespace CLanguageLearning.Sds

open CLanguageLearning.Foundation

/-- `sizeof(sds)`. -/
def SDS_SIZE : Nat := 8

/-- `sds *`: an array in memory and the handles that have been stored in it. -/
structure SdsArray where
  ptr : Ptr
  entry : Nat → Ptr

namespace SdsArray

/-- `tokens[k]` -/
def load (a : SdsArray) (k : Nat) : Exec Mem Ptr := do
  let _ ← access (a.ptr.add (SDS_SIZE * k)) SDS_SIZE
  return a.entry k

/-- `tokens[k] = s` -/
def store (a : SdsArray) (k : Nat) (s : Ptr) : Exec Mem SdsArray := do
  let _ ← access (a.ptr.add (SDS_SIZE * k)) SDS_SIZE
  return { a with entry := Function.update a.entry k s }

end SdsArray

def sdsfree (s : Ptr) : Exec Mem Unit := do
  if s = Ptr.null then return ()
  let flags ← flagsOf s
  let sh ← ptrSub s (sdsHdrSize (SdsType.ofFlags flags))
  free sh

/-! ## The functions -/

/-- The variables of `sdssplitlen`. -/
structure Splitting where
  tokens : SdsArray
  elements : Nat
  slots : Nat
  start : Nat
  j : Nat

/-- Room for the next element and the final one; `false` when it is refused. -/
def moreSlots (al : Allocator) (q : Splitting) : Exec Mem (Bool × Splitting) := do
  let need ← intValue (q.elements + 2)
  if q.slots < need then
    let slots ← intValue (q.slots * 2)
    -- `slots` is doubled before the request is granted
    let newtokens ← realloc al q.tokens.ptr (sizeT (SDS_SIZE * slots))
    if newtokens = Ptr.null then return (false, { q with slots })
    return (true, { q with tokens := { q.tokens with ptr := newtokens }, slots })
  else return (true, q)

/-- The condition under which a separator is found at `j`. -/
def atSeparator (s : Source) (j : Nat) (sep : Source) (seplen : Nat) : Exec Mem Bool := do
  -- a separator of one byte is compared twice where it does not match
  let same ←
    if seplen = 1 then do
      let c ← sourceAt s j
      let d ← sourceAt sep 0
      pure (c == d)
    else pure false
  if same then return true
  let cmp ← memcmpSource (s.drop j) sep seplen
  return cmp == 0

/-- `tokens[elements] = sdsnewlen(s + start, n)`; `false` when it is refused. -/
def addToken (al : Allocator) (s : Source) (q : Splitting) (n : Nat) :
    Exec Mem (Bool × Splitting) := do
  let p ← sdsnewlen al (.src (s.drop q.start)) n
  let tokens ← q.tokens.store q.elements p
  if p = Ptr.null then return (false, { q with tokens })
  return (true, { q with tokens, elements := q.elements + 1 })

/-- The loop over the text, in at most the given number of iterations; `false` stands for
`goto cleanup`. -/
def searchLoop (al : Allocator) (s : Source) (len : Nat) (sep : Source) (seplen : Nat) :
    Nat → Splitting → Exec Mem (Bool × Splitting)
  | 0, _ => throw .diverged
  | fuel + 1, q =>
      if q.j < len - (seplen - 1) then do
        let (ok, q) ← moreSlots al q
        if ok then
          let found ← atSeparator s q.j sep seplen
          if found then
            let (ok, q) ← addToken al s q (q.j - q.start)
            if ok then
              -- `j` is set behind the separator, and the loop adds one to it
              searchLoop al s len sep seplen fuel
                { q with start := q.j + seplen, j := q.j + seplen - 1 + 1 }
            else return (false, q)
          else searchLoop al s len sep seplen fuel { q with j := q.j + 1 }
        else return (false, q)
      else return (true, q)

/-- `for (i = 0; i < elements; i++) sdsfree(tokens[i]);`, from `i` on with `n` left. -/
def freeTokens (tokens : SdsArray) : Nat → Nat → Exec Mem Unit
  | _, 0 => return ()
  | i, n + 1 => do
      let t ← tokens.load i
      sdsfree t
      freeTokens tokens (i + 1) n

/-- What `sdssplitlen` returns, and what it writes to `count`, if it does. -/
structure SplitResult where
  tokens : Option SdsArray
  count : Option Nat

/-- The label `cleanup`. -/
def cleanup (q : Splitting) : Exec Mem SplitResult := do
  freeTokens q.tokens 0 q.elements
  free q.tokens.ptr
  return ⟨none, some 0⟩

def sdssplitlen (al : Allocator) (s : Source) (len : Int) (sep : Source) (seplen : Int) :
    Exec Mem SplitResult := do
  if seplen < 1 ∨ len ≤ 0 then return ⟨none, some 0⟩
  let len := len.toNat
  let seplen := seplen.toNat
  let tokens ← malloc al (sizeT (SDS_SIZE * 5))
  -- `count` is not written here
  if tokens = Ptr.null then return ⟨none, none⟩
  let (ok, q) ← searchLoop al s len sep seplen (len + 1) ⟨⟨tokens, fun _ => Ptr.null⟩, 0, 5, 0, 0⟩
  if ok then
    -- there is room for the final element
    let (ok, q) ← addToken al s q (len - q.start)
    if ok then return ⟨some q.tokens, some q.elements⟩
    cleanup q
  else cleanup q

/-- The loop of `sdsjoinsds`, from `j` on with `n` elements left. -/
def joinLoop (al : Allocator) (argv : SdsArray) (argc : Nat) (sep : Source) (seplen : Nat) :
    Nat → Nat → Ptr → Exec Mem Ptr
  | _, 0, join => return join
  | j, n + 1, join => do
      let t ← argv.load j
      let join ← sdscatsds al join t
      let join ← if j ≠ argc - 1 then sdscatlen al join sep seplen else pure join
      joinLoop al argv argc sep seplen (j + 1) n join

def sdsjoinsds (al : Allocator) (argv : SdsArray) (argc : Nat) (sep : Source) (seplen : Nat) :
    Exec Mem Ptr := do
  let join ← sdsempty al
  joinLoop al argv argc sep seplen 0 argc join

/-! ## Tokens in memory -/

/-- The array of `slots` entries holds strings with the contents `ts`, all in blocks from `base`
on. -/
structure TokensAt (m : Mem) (base : Nat) (a : SdsArray) (slots : Nat) (ts : List (List UInt8)) :
    Prop where
  array : ∃ i b, a.ptr = ⟨some i, 0⟩ ∧ base ≤ i ∧ m.blocks i = some b ∧
    b.size = SDS_SIZE * slots ∧ ∀ k, k < ts.length → (a.entry k).block ≠ some i
  token : ∀ k t, ts[k]? = some t →
    ∃ j, a.entry k = handle j (newType t.length) ∧ base ≤ j ∧ (Value.ofBytes t).At m j

/-- The slots that are asked for while `ts` are found: one behind the last token as well, if the
loop comes to a place behind the last separator. -/
def slotsNeeded (seplen : Nat) (ts : List (List UInt8)) : Nat :=
  ts.length + if seplen ≤ (ts.getLastD []).length then 1 else 0

/-- The largest `5 * 2 ^ k` in `int`. -/
def MAX_SLOTS : Nat := 5 * 2 ^ 28

section Tokens

variable {m m' m₀ : Mem} {base slots i : Nat} {a : SdsArray} {ts : List (List UInt8)}
  {t : List UInt8}

theorem Value.At.extends {v : Value} (h : v.At m i) (hm : m.Extends m') : v.At m' i := by
  obtain ⟨b, hb, hs⟩ := h
  exact ⟨b, hm.block hb, hs⟩

theorem Value.At.lt_next {v : Value} (h : v.At m i) : i < m.next := by
  obtain ⟨b, hb, -⟩ := h
  exact Mem.lt_next hb

theorem TokensAt.extends (h : TokensAt m base a slots ts) (hm : m.Extends m') :
    TokensAt m' base a slots ts where
  array := by
    obtain ⟨i, b, hptr, hbase, hb, hsize, hne⟩ := h.array
    exact ⟨i, b, hptr, hbase, hm.block hb, hsize, hne⟩
  token k t hk := by
    obtain ⟨j, hentry, hbase, hat⟩ := h.token k t hk
    exact ⟨j, hentry, hbase, hat.extends hm⟩

/-- The entries below `slots` lie in the block of the array. -/
theorem TokensAt.access_run (h : TokensAt m base a slots ts) {k : Nat} (hk : k < slots) :
    ∃ p, (access (a.ptr.add (SDS_SIZE * k)) SDS_SIZE).run m = .ok (p, m) := by
  obtain ⟨i, b, hptr, -, hb, hsize, -⟩ := h.array
  refine ⟨(i, b), ?_⟩
  rw [hptr, Ptr.add_mk, Nat.zero_add]
  refine Foundation.access_run hb ?_
  rw [hsize, ← Nat.mul_succ]
  exact Nat.mul_le_mul_left _ hk

theorem TokensAt.load_run (h : TokensAt m base a slots ts) {k : Nat} (hk : k < slots) :
    (a.load k).run m = .ok (a.entry k, m) := by
  obtain ⟨p, hp⟩ := h.access_run hk
  exact run_bind_of_ok hp _

theorem TokensAt.store_run (h : TokensAt m base a slots ts) {k : Nat} (hk : k < slots) (p : Ptr) :
    (a.store k p).run m = .ok ({ a with entry := Function.update a.entry k p }, m) := by
  obtain ⟨q, hq⟩ := h.access_run hk
  exact run_bind_of_ok hq _

/-- A new string behind the others. -/
theorem TokensAt.concat (h : TokensAt m base a slots ts) (hm : m.Extends m') {j : Nat}
    (hj : m.next ≤ j) (hbase : base ≤ m.next) (ht : (Value.ofBytes t).At m' j) :
    TokensAt m' base
      { a with entry := Function.update a.entry ts.length (handle j (newType t.length)) } slots
      (ts ++ [t]) := by
  have hold := h.extends hm
  constructor
  case array =>
    obtain ⟨i, b, hptr, hi, hb, hsize, hne⟩ := hold.array
    refine ⟨i, b, hptr, hi, hb, hsize, fun k hk => ?_⟩
    change (Function.update a.entry ts.length _ k).block ≠ some i
    rcases eq_or_ne k ts.length with rfl | hkt
    · obtain ⟨i', b', hptr', -, hb', -⟩ := h.array
      rw [hptr, Ptr.mk.injEq, Option.some.injEq] at hptr'
      have hlt := Mem.lt_next hb'
      rw [Function.update_self]
      intro he
      rw [← hptr'.1, ← Option.some.inj he] at hlt
      omega
    · rw [Function.update_of_ne hkt]
      rw [List.length_append, List.length_singleton] at hk
      exact hne k (by omega)
  case token =>
    intro k u hk
    rcases eq_or_ne k ts.length with rfl | hkt
    · rw [List.getElem?_concat_length, Option.some.injEq] at hk
      subst hk
      exact ⟨j, Function.update_self .., hbase.trans hj, ht⟩
    · have hlt : k < ts.length := by
        have := (List.getElem?_eq_some_iff.mp hk).1
        rw [List.length_append, List.length_singleton] at this
        omega
      rw [List.getElem?_append_left hlt] at hk
      obtain ⟨j', hentry, hj', hat⟩ := hold.token k u hk
      exact ⟨j', by rw [← hentry]; exact Function.update_of_ne hkt .., hj', hat⟩

/-- The array is moved to a larger block. -/
theorem TokensAt.grow {b : Block} {size : Nat} (junk : Nat → UInt8)
    (h : TokensAt m base a slots ts) (hptr : a.ptr = ⟨some i, 0⟩) (hb : m.blocks i = some b)
    (hbase : base ≤ m.next) (hsize : size = SDS_SIZE * (2 * slots)) :
    TokensAt ((m.grant (b.resize size junk)).release i) base { a with ptr := ⟨some m.next, 0⟩ }
      (2 * slots) ts := by
  obtain ⟨i', -, hptr', -, -, -, hne⟩ := h.array
  rw [hptr, Ptr.mk.injEq, Option.some.injEq] at hptr'
  obtain ⟨rfl, -⟩ := hptr'
  have hlt := Mem.lt_next hb
  have hkeep : ∀ {j : Nat} {d : Block}, j ≠ i → m.blocks j = some d →
      ((m.grant (b.resize size junk)).release i).blocks j = some d := by
    intro j d hji hd
    rw [Mem.release_blocks_of_ne hji, Mem.grant_blocks_of_some hd]
  constructor
  case array =>
    refine ⟨m.next, b.resize size junk, rfl, hbase, ?_, hsize, fun k hk => ?_⟩
    · rw [Mem.release_blocks_of_ne (by omega), Mem.grant_blocks_next]
    · obtain ⟨j, hentry, -, hat⟩ := h.token k _ (List.getElem?_eq_getElem hk)
      have hj := hat.lt_next
      change (a.entry k).block ≠ some m.next
      rw [hentry]
      intro he
      rw [Option.some.inj he] at hj
      exact absurd hj (Nat.lt_irrefl _)
  case token =>
    intro k u hk
    obtain ⟨j, hentry, hj, d, hd, hs⟩ := h.token k u hk
    have hji : j ≠ i := by
      have := hne k (List.getElem?_eq_some_iff.mp hk).1
      rw [hentry] at this
      exact fun he => this (congrArg some he)
    exact ⟨j, hentry, hj, d, hkeep hji hd, hs⟩

end Tokens

/-! ## The loop -/

/-- The state of the loop after the tokens `ts`: no separator begins between `start` and `j`. -/
structure Scanned (m₀ m : Mem) (c d : List UInt8) (q : Splitting) (ts : List (List UInt8)) :
    Prop where
  grown : m₀.Extends m
  tokens : TokensAt m m₀.next q.tokens q.slots ts
  elements : q.elements = ts.length
  room : ts.length < q.slots
  power : ∃ k, k ≤ 28 ∧ q.slots = 5 * 2 ^ k
  start_le : q.start ≤ q.j
  none : ∀ n, q.start ≤ n → n < q.j → ¬ d <+: c.drop n

section Loop

variable {al : Allocator} {m₀ m : Mem} {s sep : Source} {c d t : List UInt8} {q : Splitting}
  {ts us : List (List UInt8)}

/-- The number of slots is doubled when the next element and the final one need it. -/
theorem moreSlots_run (hal : ∀ k, al k ≠ none) (h : Scanned m₀ m c d q ts)
    (hneed : ts.length + 2 ≤ MAX_SLOTS) :
    ∃ tokens slots m', (moreSlots al q).run m = .ok ((true, { q with tokens, slots }), m') ∧
      Scanned m₀ m' c d { q with tokens, slots } ts ∧ ts.length + 2 ≤ slots := by
  have hint : MAX_SLOTS ≤ INT_MAX := by decide
  have hcount := h.elements
  have hadd := intValue_run (n := q.elements + 2) (by omega) m
  rw [moreSlots, run_bind_of_ok hadd]
  by_cases hlt : q.slots < q.elements + 2
  · rw [if_pos hlt]
    obtain ⟨k, -, hpow⟩ := h.power
    -- the largest size is enough, so this is not it
    have hk : k < 28 := by
      by_contra hge
      have hmono : 2 ^ 28 ≤ 2 ^ k := Nat.pow_le_pow_right (by decide) (by omega)
      rw [MAX_SLOTS] at hneed
      omega
    have hdouble : 5 * 2 ^ (k + 1) ≤ MAX_SLOTS :=
      Nat.mul_le_mul_left 5 (Nat.pow_le_pow_right (by decide) hk)
    have hslots : q.slots * 2 = 5 * 2 ^ (k + 1) := by rw [hpow, Nat.pow_succ, Nat.mul_assoc]
    have hmul := intValue_run (n := q.slots * 2) (by omega) m
    have hsize : sizeT (SDS_SIZE * (q.slots * 2)) = SDS_SIZE * (q.slots * 2) := by
      refine Nat.mod_eq_of_lt ?_
      have hmax : MAX_SLOTS * SDS_SIZE < SIZE_COUNT := by decide
      rw [SDS_SIZE] at hmax ⊢
      omega
    obtain ⟨i, b, hptr, hi, hb, -, -⟩ := h.tokens.array
    obtain ⟨junk, hjunk⟩ := Option.ne_none_iff_exists'.mp (hal m.requests.length)
    have hre := realloc_run_granted (n := SDS_SIZE * (q.slots * 2)) hb hjunk
    refine ⟨{ q.tokens with ptr := ⟨some m.next, 0⟩ }, q.slots * 2,
      (m.grant (b.resize (SDS_SIZE * (q.slots * 2)) junk)).release i, ?_,
      ⟨?_, ?_, h.elements, ?_, ⟨k + 1, hk, hslots⟩, h.start_le, h.none⟩, ?_⟩
    · apply (run_bind_of_ok hmul _).trans
      rw [hptr, hsize]
      exact run_bind_of_ok hre _
    · refine h.grown.moved ⟨?_, Nat.le_succ _, Or.inr (Nat.le_refl _), ?_⟩ hi
      · intro j hj hjn
        rw [Mem.release_blocks_of_ne hj, Mem.grant_blocks_of_ne (by omega)]
      · exact fun _ => Mem.release_blocks_self _ _
    · have hgrow := h.tokens.grow junk hptr hb h.grown.next_le
        (show SDS_SIZE * (q.slots * 2) = SDS_SIZE * (2 * q.slots) by rw [Nat.mul_comm q.slots])
      rw [Nat.mul_comm 2] at hgrow
      exact hgrow
    · have := h.room
      dsimp only
      omega
    · have := h.room
      omega
  · rw [if_neg hlt]
    exact ⟨q.tokens, q.slots, m, rfl, h, by omega⟩

theorem fitsSize_newType {n : Nat} (h : n < 2 ^ 63) : FitsSize (newType n) n := by
  have hhdr := (newType n).hdrSize_le
  unfold FitsSize SIZE_COUNT
  omega

/-- The next token is a new string. -/
theorem addToken_run (hal : ∀ k, al k ≠ none) (hs : s.Holds m₀ c) (hc : c.length < 2 ^ 63)
    (h : Scanned m₀ m c d q ts) (hle : q.start ≤ c.length) (ht : t <+: c.drop q.start) :
    ∃ tokens m', (addToken al s q t.length).run m =
        .ok ((true, { q with tokens, elements := q.elements + 1 }), m') ∧
      m₀.Extends m' ∧ TokensAt m' m₀.next tokens q.slots (ts ++ [t]) := by
  have hsrc := Source.Holds.of_prefix ((hs.extends h.grown).drop hle) ht
  have hlen := ht.length_le
  rw [List.length_drop] at hlen
  obtain ⟨j, m', hnew, hat, hmoved⟩ := sdsnewlen_yields (hal _) hsrc
    (fitsSize_newType (by omega))
  have hext : m.Extends m' := (Mem.Extends.refl m).moved hmoved (Nat.le_refl _)
  have hj : m.next ≤ j := by
    rcases hmoved.target with rfl | hj
    · exact Nat.le_refl _
    · exact hj
  have htokens := h.tokens.concat hext hj h.grown.next_le hat
  have hstore := (h.tokens.extends hext).store_run (k := q.elements)
    (by rw [h.elements]; exact h.room) (handle j (newType t.length))
  rw [← h.elements] at htokens
  refine ⟨_, m', ?_, h.grown.trans hext, htokens⟩
  rw [addToken]
  apply (run_bind_of_ok hnew _).trans
  apply (run_bind_of_ok hstore _).trans
  rw [if_neg (handle_ne_null _ _)]
  rfl

theorem atSeparator_run (hs : s.Holds m c) (hd : sep.Holds m d) {j : Nat} (hpos : 0 < d.length)
    (hj : j + d.length ≤ c.length) :
    (atSeparator s j sep d.length).run m = .ok (decide (d <+: c.drop j), m) := by
  have hpre : d <+: c.drop j ↔ (c.drop j).take d.length = d := by
    rw [List.prefix_iff_eq_take, eq_comm]
  have hlen : ((c.drop j).take d.length).length = d.length := by
    rw [List.length_take, List.length_drop]
    omega
  have htext := Source.Holds.of_prefix (hs.drop (by omega)) (List.take_prefix d.length (c.drop j))
  obtain ⟨r, hcmp, hr⟩ := memcmpSource_run htext hd hlen
  have hlast : (do
      let cmp ← memcmpSource (s.drop j) sep d.length
      return cmp == 0 : Exec Mem Bool).run m = .ok (decide (d <+: c.drop j), m) := by
    rw [run_bind_of_ok hcmp]
    have hsame : (r == 0) = decide (d <+: c.drop j) := by
      rw [beq_eq_decide]
      exact decide_eq_decide.mpr (hr.trans hpre.symm)
    rw [hsame]
    rfl
  rw [atSeparator]
  by_cases hone : d.length = 1
  · rw [if_pos hone]
    obtain ⟨x, rfl⟩ := List.length_eq_one_iff.mp hone
    have hx := sourceAt_run hs (n := j) (by omega)
    have hy := sourceAt_run hd (n := 0) (by omega)
    apply (run_bind_of_ok hx _).trans
    apply (run_bind_of_ok hy _).trans
    rcases eq_or_ne (c)[j] x with heq | hne
    · have hfound : [x] <+: c.drop j := by
        rw [List.drop_eq_getElem_cons (by omega), heq]
        exact ⟨_, rfl⟩
      simp only [heq, decide_eq_true hfound]
      simp
    · have hbeq : ((c)[j] == x) = false := beq_eq_false_iff_ne.mpr hne
      simpa [hbeq] using hlast
  · rw [if_neg hone]
    exact hlast

theorem Scanned.start_le_length (h : Scanned m₀ m c d q ts) (hj : q.j ≤ c.length) :
    q.start ≤ c.length :=
  h.start_le.trans hj

/-- A separator at `j` is the leftmost one that is left. -/
theorem Scanned.split_match (h : Scanned m₀ m c d q ts) (hd : d ≠ [])
    (hsep : d <+: c.drop q.j) (hus : Split d (c.drop q.start) us) :
    us = (c.drop q.start).take (q.j - q.start) :: pieces d (c.drop (q.j + d.length)) := by
  have hle := h.start_le
  have hrest : d ++ c.drop (q.j + d.length) = c.drop q.j := by
    obtain ⟨v, hv⟩ := hsep
    rw [← List.drop_drop, ← hv, List.drop_left]
  have htext : (c.drop q.start).take (q.j - q.start) ++ d ++ c.drop (q.j + d.length) =
      c.drop q.start := by
    have hdrop : c.drop q.j = (c.drop q.start).drop (q.j - q.start) := by
      rw [List.drop_drop, Nat.add_sub_cancel' hle]
    rw [List.append_assoc, hrest, hdrop, List.take_append_drop]
  have hsplit : Split d ((c.drop q.start).take (q.j - q.start) ++ d ++ c.drop (q.j + d.length))
      ((c.drop q.start).take (q.j - q.start) :: pieces d (c.drop (q.j + d.length))) := by
    refine .next (fun n hn => ?_) (.of_pieces hd _)
    rw [List.length_take] at hn
    rw [htext, List.drop_drop]
    exact h.none _ (by omega) (by omega)
  rw [htext] at hsplit
  exact hus.unique hsplit

/-- No separator is left where one does not fit any more. -/
theorem Scanned.split_last (h : Scanned m₀ m c d q ts) (hd : d ≠ [])
    (hj : c.length < q.j + d.length) (hus : Split d (c.drop q.start) us) :
    us = [c.drop q.start] := by
  have hpos := List.length_pos_iff.mpr hd
  refine hus.unique (.last fun hin => ?_)
  obtain ⟨n, hn, hpre⟩ := prefix_drop_of_infix hin
  rw [List.length_drop] at hn
  rw [List.drop_drop] at hpre
  exact h.none (q.start + n) (by omega) (by omega) hpre

/-- What is needed later is needed for the next element and the final one already. -/
theorem Scanned.need (h : Scanned m₀ m c d q ts) (hj : q.j + d.length ≤ c.length)
    (hus : Split d (c.drop q.start) us) (hmax : slotsNeeded d.length (ts ++ us) ≤ MAX_SLOTS) :
    ts.length + 2 ≤ MAX_SLOTS := by
  refine le_trans ?_ hmax
  rw [slotsNeeded, List.length_append]
  generalize hr : c.drop q.start = r at hus
  cases hus with
  | last =>
      have hlast : d.length ≤ ((ts ++ [r]).getLastD []).length := by
        have := h.start_le
        rw [List.getLastD_concat, ← hr, List.length_drop]
        omega
      rw [if_pos hlast]
      simp
  | next _ hrest =>
      have := List.length_pos_iff.mpr hrest.ne_nil
      rw [List.length_cons]
      omega

/-- The loop finds the pieces that are left, up to the last one. -/
theorem searchLoop_run (hal : ∀ k, al k ≠ none) (hs : s.Holds m₀ c) (hsep : sep.Holds m₀ d)
    (hd : d ≠ []) (hc : c.length < 2 ^ 63) (fuel : Nat) :
    ∀ {m : Mem} {q : Splitting} {ts us : List (List UInt8)}, Scanned m₀ m c d q ts →
      q.j ≤ c.length → c.length - q.j < fuel → Split d (c.drop q.start) us →
      slotsNeeded d.length (ts ++ us) ≤ MAX_SLOTS →
      ∃ q' m' vs, (searchLoop al s c.length sep d.length fuel q).run m = .ok ((true, q'), m') ∧
        Scanned m₀ m' c d q' (ts ++ vs) ∧ q'.start ≤ c.length ∧
        us = vs ++ [c.drop q'.start] := by
  have hpos := List.length_pos_iff.mpr hd
  induction fuel with
  | zero =>
      intro m q ts us _ _ hfuel
      omega
  | succ fuel ih =>
      intro m q ts us h hj hfuel hus hmax
      rw [searchLoop]
      by_cases hlt : q.j < c.length - (d.length - 1)
      case neg =>
        rw [if_neg hlt]
        exact ⟨q, m, [], rfl, by rwa [List.append_nil], h.start_le_length hj,
          h.split_last hd (by omega) hus⟩
      case pos =>
        rw [if_pos hlt]
        obtain ⟨tokens, slots, m₁, hmore, h₁, hslots⟩ :=
          moreSlots_run hal h (h.need (by omega) hus hmax)
        have hfound := atSeparator_run (hs.extends h₁.grown) (hsep.extends h₁.grown) hpos
          (show q.j + d.length ≤ c.length by omega)
        by_cases hpre : d <+: c.drop q.j
        · -- the text in front of the separator is the next token
          have hsplit := h.split_match hd hpre hus
          have hlen : ((c.drop q.start).take (q.j - q.start)).length = q.j - q.start := by
            rw [List.length_take, List.length_drop]
            omega
          obtain ⟨tokens', m₂, hadd, hext, htok⟩ := addToken_run hal hs hc h₁
            (h.start_le_length hj) (List.take_prefix (q.j - q.start) _)
          rw [hlen] at hadd
          have h₂ : Scanned m₀ m₂ c d ⟨tokens', q.elements + 1, slots, q.j + d.length,
              q.j + d.length - 1 + 1⟩ (ts ++ [(c.drop q.start).take (q.j - q.start)]) := by
            refine ⟨hext, htok, ?_, ?_, h₁.power, by dsimp only; omega, ?_⟩
            · rw [List.length_append, ← h.elements]
              rfl
            · rw [List.length_append, List.length_singleton]
              dsimp only
              omega
            · dsimp only
              omega
          rw [hsplit, List.append_cons] at hmax
          obtain ⟨q', m', vs, hloop, hscan, hle, hvs⟩ := ih h₂ (by dsimp only; omega)
            (by dsimp only; omega) (.of_pieces hd _) hmax
          refine ⟨q', m', (c.drop q.start).take (q.j - q.start) :: vs, ?_, ?_, hle, ?_⟩
          · apply (run_bind_of_ok hmore _).trans
            apply (run_bind_of_ok hfound _).trans
            rw [if_pos (decide_eq_true hpre)]
            exact (run_bind_of_ok hadd _).trans hloop
          · rwa [← List.append_cons] at hscan
          · rw [hsplit, hvs, List.cons_append]
        · have h₂ : Scanned m₀ m₁ c d ⟨tokens, q.elements, slots, q.start, q.j + 1⟩ ts := by
            refine ⟨h₁.grown, h₁.tokens, h₁.elements, h₁.room, h₁.power,
              Nat.le_succ_of_le h.start_le, fun n hn hnj => ?_⟩
            rcases Nat.lt_succ_iff_lt_or_eq.mp hnj with hnj | rfl
            · exact h.none n hn hnj
            · exact hpre
          obtain ⟨q', m', vs, hloop, hrest⟩ := ih h₂ (by dsimp only; omega)
            (by dsimp only; omega) hus hmax
          refine ⟨q', m', vs, ?_, hrest⟩
          apply (run_bind_of_ok hmore _).trans
          apply (run_bind_of_ok hfound _).trans
          rw [if_neg (by simpa using hpre)]
          exact hloop

end Loop

/-! ## The whole split -/

section Split

variable {al : Allocator} {m : Mem} {s sep : Source} {c d : List UInt8}

/-- The new array, before anything is stored in it. -/
theorem scanned_init (junk : Nat → UInt8) (m : Mem) (c d : List UInt8) :
    Scanned m (m.grant ⟨SDS_SIZE * 5, junk⟩) c d
      ⟨⟨⟨some m.next, 0⟩, fun _ => Ptr.null⟩, 0, 5, 0, 0⟩ [] where
  grown := (Mem.Extends.refl m).moved (grant_moved m _) (Nat.le_refl _)
  tokens :=
    { array := ⟨m.next, _, rfl, Nat.le_refl _, Mem.grant_blocks_next m _, rfl,
        fun k hk => absurd hk (Nat.not_lt_zero k)⟩
      token := fun k t hk => by cases hk }
  elements := rfl
  room := Nat.zero_lt_succ 4
  power := ⟨0, Nat.zero_le _, rfl⟩
  start_le := Nat.le_refl _
  none n _ hn := absurd hn (Nat.not_lt_zero n)

/-- The tokens are the pieces of the text. -/
theorem sdssplitlen_run (hal : ∀ k, al k ≠ none) (hs : s.Holds m c) (hsep : sep.Holds m d)
    (hc : c ≠ []) (hd : d ≠ []) (hlen : c.length < 2 ^ 63)
    (hslots : slotsNeeded d.length (pieces d c) ≤ MAX_SLOTS) :
    ∃ tokens slots m',
      (sdssplitlen al s c.length sep d.length).run m =
        .ok (⟨some tokens, some (pieces d c).length⟩, m') ∧
      m.Extends m' ∧ (pieces d c).length ≤ slots ∧ TokensAt m' m.next tokens slots (pieces d c) := by
  have hcpos := List.length_pos_iff.mpr hc
  have hdpos := List.length_pos_iff.mpr hd
  have hguard : ¬ ((d.length : Int) < 1 ∨ (c.length : Int) ≤ 0) := by omega
  have hsize : sizeT (SDS_SIZE * 5) = SDS_SIZE * 5 := by decide
  obtain ⟨junk, hjunk⟩ := Option.ne_none_iff_exists'.mp (hal m.requests.length)
  obtain ⟨q, m₁, vs, hloop, hscan, hle, hvs⟩ := searchLoop_run hal hs hsep hd hlen (c.length + 1)
    (scanned_init junk m c d) (Nat.zero_le _) (Nat.lt_succ_self _) (.of_pieces hd c) hslots
  rw [List.nil_append] at hscan
  obtain ⟨tokens, m', hadd, hext, htok⟩ := addToken_run hal hs hlen hscan hle List.prefix_rfl
  rw [List.length_drop] at hadd
  have hcount : q.elements + 1 = (pieces d c).length := by
    rw [hvs, hscan.elements, List.length_append, List.length_singleton]
  refine ⟨tokens, q.slots, m', ?_, hext, ?_, hvs ▸ htok⟩
  · rw [sdssplitlen, if_neg hguard, Int.toNat_natCast, Int.toNat_natCast, hsize]
    apply (run_bind_of_ok (malloc_run_granted hjunk) _).trans
    rw [if_neg (Ptr.mk_ne_null _ _)]
    apply (run_bind_of_ok hloop _).trans
    apply (run_bind_of_ok hadd _).trans
    rw [← hcount]
    rfl
  · rw [← hcount, hscan.elements]
    exact hscan.room

end Split

/-! ## Joining -/

section Join

variable {al : Allocator} {m₀ m : Mem} {sep : Source} {d : List UInt8} {base slots : Nat}
  {a : SdsArray} {ts : List (List UInt8)}

/-- An operation on a string that is not one of `m₀`. -/
theorem Yields.beyond {r : Except Halt (Ptr × Mem)} {i : Nat} {v : Value} (h : Yields r m i v)
    (hm : m₀.Extends m) (hi : m₀.next ≤ i) :
    ∃ j m', r = .ok (handle j v.type, m') ∧ v.At m' j ∧ m₀.Extends m' ∧ m₀.next ≤ j := by
  obtain ⟨j, m', hr, hat, hmoved⟩ := h
  refine ⟨j, m', hr, hat, hm.moved hmoved hi, ?_⟩
  rcases hmoved.target with rfl | hj
  · exact hi
  · exact hm.next_le.trans hj

/-- The tokens from `j` on are appended with separators between them. -/
theorem joinLoop_run (hal : ∀ k, al k ≠ none) (hsep : sep.Holds m₀ d)
    (ha : TokensAt m₀ base a slots ts) (hslots : ts.length ≤ slots) (n : Nat) :
    ∀ {m : Mem} {i j : Nat} {v : Value}, m₀.Extends m → m₀.next ≤ i → v.At m i →
      j + n = ts.length → v.content.length + (d.intercalate (ts.drop j)).length < 2 ^ 63 →
      ∃ (i' : Nat) (m' : Mem) (w : Value),
        (joinLoop al a ts.length sep d.length j n (handle i v.type)).run m =
          .ok (handle i' w.type, m') ∧
        w.At m' i' ∧ w.content = v.content ++ d.intercalate (ts.drop j) := by
  induction n with
  | zero =>
      intro m i j v _ _ hv hj _
      refine ⟨i, m, v, rfl, hv, ?_⟩
      rw [List.drop_eq_nil_of_le (by omega), List.intercalate_nil, List.append_nil]
  | succ n ih =>
      intro m i j v hm hi hv hj hfit
      have hlt : j < ts.length := by omega
      obtain ⟨k, hentry, -, hat⟩ := ha.token j ts[j] (List.getElem?_eq_getElem hlt)
      have hload := (ha.extends hm).load_run (k := j) (by omega)
      have hk : k ≠ i := by
        have := hat.lt_next
        omega
      rw [List.drop_eq_getElem_cons hlt] at hfit ⊢
      -- the token, then the separator unless it was the last one
      have hone := fun hroom => (sdscatsds_yields (hal _) hv (hat.extends hm) hk hroom).beyond hm hi
      rcases Nat.eq_zero_or_pos n with rfl | hn
      · have hnil : ts.drop (j + 1) = [] := List.drop_eq_nil_of_le (by omega)
        rw [hnil, List.intercalate_singleton] at hfit ⊢
        obtain ⟨i₁, m₁, hcat, hv₁, -, -⟩ := hone (Value.roomFits_of_lt hfit)
        refine ⟨i₁, m₁, _, ?_, hv₁, rfl⟩
        rw [joinLoop, run_bind_of_ok hload, hentry]
        apply (run_bind_of_ok hcat _).trans
        rw [if_neg (show ¬ j ≠ ts.length - 1 by omega)]
        rfl
      · have hne : ts.drop (j + 1) ≠ [] := by
          rw [Ne, List.drop_eq_nil_iff]
          omega
        rw [List.intercalate_cons_of_ne_nil hne, List.length_append, List.length_append] at hfit
        rw [List.intercalate_cons_of_ne_nil hne]
        obtain ⟨i₁, m₁, hcat, hv₁, hm₁, hi₁⟩ :=
          hone (Value.roomFits_of_lt (by rw [Value.ofBytes]; dsimp only; omega))
        set v₁ := (v.makeRoom (Value.ofBytes ts[j]).content.length).setContent
          (v.content ++ (Value.ofBytes ts[j]).content) with hv₁def
        have hlen₁ : v₁.content.length = v.content.length + ts[j].length := List.length_append
        obtain ⟨i₂, m₂, hcat₂, hv₂, hm₂, hi₂⟩ := (sdscatlen_yields (hal _) hv₁
          (hsep.extends hm₁) (hsep.avoids hi₁) (Value.roomFits_of_lt (by omega))).beyond hm₁ hi₁
        set v₂ := (v₁.makeRoom d.length).setContent (v₁.content ++ d) with hv₂def
        have hlen₂ : v₂.content.length = v₁.content.length + d.length := List.length_append
        obtain ⟨i', m', w, hrest, hw, hcontent⟩ := ih hm₂ hi₂ hv₂ (show j + 1 + n = ts.length by omega)
          (by omega)
        refine ⟨i', m', w, ?_, hw, ?_⟩
        · rw [joinLoop, run_bind_of_ok hload, hentry]
          apply (run_bind_of_ok hcat _).trans
          rw [if_pos (show j ≠ ts.length - 1 by omega)]
          exact (run_bind_of_ok hcat₂ _).trans hrest
        · rw [hcontent]
          change v.content ++ ts[j] ++ d ++ _ = _
          simp only [List.append_assoc]

theorem sdsjoinsds_run (hal : ∀ k, al k ≠ none) (hsep : sep.Holds m d)
    (ha : TokensAt m base a slots ts) (hslots : ts.length ≤ slots)
    (hfit : (d.intercalate ts).length < 2 ^ 63) :
    ∃ (i' : Nat) (m' : Mem) (w : Value),
      (sdsjoinsds al a ts.length sep d.length).run m = .ok (handle i' w.type, m') ∧
      w.At m' i' ∧ w.content = d.intercalate ts := by
  have hempty : (Source.bytes []).Holds m [] := List.prefix_rfl
  obtain ⟨i, m₁, hnew, hv, hm, hi⟩ := (sdsnewlen_yields (hal _) hempty
    (fitsSize_newType (by decide))).beyond (Mem.Extends.refl m) (Nat.le_refl _)
  obtain ⟨i', m', w, hloop, hw, hcontent⟩ := joinLoop_run hal hsep ha hslots ts.length hm hi hv
    (Nat.zero_add _) (by simpa [Value.ofBytes] using hfit)
  exact ⟨i', m', w, (run_bind_of_ok hnew _).trans hloop, hw, hcontent⟩

end Join

/-! ## Splitting and joining -/

/-- What a split of the text `c` has to give: at least one token, the pieces between the leftmost
separators `d` that do not overlap, none of which contains `d`; the strings are in memory, joined by
the separator they give `c`, and if `c` is the join of strings without the one byte `d` they are
these. -/
structure SplitOf (al : Allocator) (m m' : Mem) (sep : Source) (c d : List UInt8)
    (tokens : SdsArray) (slots : Nat) (ts : List (List UInt8)) : Prop where
  count : 1 ≤ ts.length ∧ ts.length ≤ slots
  strings : TokensAt m' m.next tokens slots ts
  leftmost : Split d c ts
  free_of_sep : ∀ t ∈ ts, ¬ d <:+: t
  joined : ∃ (i : Nat) (m'' : Mem) (v : Value),
    (sdsjoinsds al tokens ts.length sep d.length).run m' = .ok (handle i v.type, m'') ∧
      v.At m'' i ∧ v.content = c
  of_join : ∀ x us, d = [x] → us ≠ [] → (∀ u ∈ us, x ∉ u) → c = [x].intercalate us → ts = us

/-- `sdssplitlen` on a text that is not empty, when every request is granted and the number of slots
stays in `int`. Every access to the array lies in its block, so the run returns at all. -/
theorem sdssplitlen_splits {al : Allocator} {m : Mem} {s sep : Source} {c d : List UInt8}
    (hal : ∀ k, al k ≠ none) (hs : s.Holds m c) (hsep : sep.Holds m d) (hc : c ≠ []) (hd : d ≠ [])
    (hlen : c.length < 2 ^ 63) (hslots : slotsNeeded d.length (pieces d c) ≤ MAX_SLOTS) :
    ∃ tokens slots ts m', (sdssplitlen al s c.length sep d.length).run m =
        .ok (⟨some tokens, some ts.length⟩, m') ∧
      SplitOf al m m' sep c d tokens slots ts := by
  have hsplit : Split d c (pieces d c) := .of_pieces hd c
  obtain ⟨tokens, slots, m', hrun, hext, hle, htok⟩ :=
    sdssplitlen_run hal hs hsep hc hd hlen hslots
  refine ⟨tokens, slots, pieces d c, m', hrun, ⟨List.length_pos_iff.mpr hsplit.ne_nil, hle⟩, htok,
    hsplit, hsplit.not_infix hd, ?_, ?_⟩
  · have hjoin := sdsjoinsds_run hal (hsep.extends hext) htok hle (by rwa [hsplit.join])
    rwa [hsplit.join] at hjoin
  · rintro x us rfl hus hx rfl
    exact hsplit.unique (.of_join hus hx)

/-- `a,,b` at the commas. -/
theorem sdssplitlen_splits_commas :
    ∃ tokens slots ts m',
      (sdssplitlen (fun _ => some fun _ => 0) (.bytes [97, 44, 44, 98]) 4 (.bytes [44]) 1).run
        Mem.empty = .ok (⟨some tokens, some ts.length⟩, m') ∧
      SplitOf (fun _ => some fun _ => 0) Mem.empty m' (.bytes [44]) [97, 44, 44, 98] [44] tokens
        slots ts := by
  have hs : (Source.bytes [97, 44, 44, 98]).Holds Mem.empty [97, 44, 44, 98] := List.prefix_rfl
  have hsep : (Source.bytes [44]).Holds Mem.empty [44] := List.prefix_rfl
  exact sdssplitlen_splits (fun _ => Option.some_ne_none _) hs hsep (by decide) (by decide)
    (by decide) (by decide)

end CLanguageLearning.Sds
