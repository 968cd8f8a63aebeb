import CLanguageLearning.Foundation.Counting
import CLanguageLearning.Sds.Failures
import CLanguageLearning.Sds.SplitLen

/-!
# What a split allocates is given back

`sdssplitlen` with an allocator that may refuse any request, and `sdsfreesplitres`. The tokens that
have been found are freed at the label `cleanup`, the others by the caller. `Owning` is the ledger
between the two: which of the new blocks are live, and which entry of the array owns each. Either way
the memory ends with the blocks that it began with, none of them freed twice (`split_gives_back`).
-/

set_option autoImplicit false

namespace CLanguageLearning.Sds

open CLanguageLearning.Foundation

/-- `while (count--) sdsfree(tokens[count]);` -/
def freeFromEnd (tokens : SdsArray) : Nat → Exec Mem Unit
  | 0 => return ()
  | count + 1 => do
      let t ← tokens.load count
      sdsfree t
      freeFromEnd tokens count

def sdsfreesplitres (tokens : Option SdsArray) (count : Nat) : Exec Mem Unit :=
  match tokens with
  | none => return ()
  | some tokens => do
      freeFromEnd tokens count
      free tokens.ptr

/-! ## The ledger -/

/-- The blocks that are not of `m₀`: the array of `slots` entries, and one string for each entry
below `count` that is `left`. -/
structure Owning (m₀ m : Mem) (a : SdsArray) (slots count : Nat) (left : Nat → Prop) : Prop where
  grown : m₀.Extends m
  array : ∃ i b, a.ptr = ⟨some i, 0⟩ ∧ m₀.next ≤ i ∧ m.blocks i = some b ∧
    b.size = SDS_SIZE * slots
  token : ∀ k, k < count → left k → ∃ (j : Nat) (v : Value), a.entry k = handle j v.type ∧
    m₀.next ≤ j ∧ v.At m j ∧ a.ptr.block ≠ some j
  apart : ∀ k l, k < count → l < count → left k → left l → k ≠ l →
    (a.entry k).block ≠ (a.entry l).block
  ledger : ∀ i, m₀.next ≤ i → m.blocks i ≠ none →
    a.ptr.block = some i ∨ ∃ k, k < count ∧ left k ∧ (a.entry k).block = some i

section Freeing

variable {m₀ m : Mem} {a : SdsArray} {slots count k : Nat} {left : Nat → Prop}

/-- A string is freed through its header. -/
theorem sdsfree_run {v : Value} {j : Nat} (h : v.At m j) :
    (sdsfree (handle j v.type)).run m = .ok ((), m.release j) := by
  obtain ⟨b, hb, hs⟩ := h
  have hflags := flagsOf_run hb hs.tagged.fits
  have hsub : (ptrSub (handle j v.type) (sdsHdrSize (some v.type))).run m = .ok (⟨some j, 0⟩, m) :=
    SDS_HDR_run m j v.type
  rw [sdsfree, if_neg (handle_ne_null _ _), run_bind_of_ok hflags, hs.tagged.tag,
    run_bind_of_ok hsub]
  exact free_run hb

theorem Owning.load_run (h : Owning m₀ m a slots count left) (hk : k < slots) :
    (a.load k).run m = .ok (a.entry k, m) := by
  obtain ⟨i, b, hptr, -, hb, hsize⟩ := h.array
  have haccess : (access (a.ptr.add (SDS_SIZE * k)) SDS_SIZE).run m = .ok ((i, b), m) := by
    rw [hptr, Ptr.add_mk, Nat.zero_add]
    refine access_run hb ?_
    rw [hsize, ← Nat.mul_succ]
    exact Nat.mul_le_mul_left _ hk
  exact run_bind_of_ok haccess _

/-- A token is freed. -/
theorem Owning.free_token (h : Owning m₀ m a slots count left) (hslots : count ≤ slots)
    (hk : k < count) (hleft : left k) :
    ∃ m', (do
        let t ← a.load k
        sdsfree t : Exec Mem Unit).run m = .ok ((), m') ∧
      Owning m₀ m' a slots count fun l => left l ∧ l ≠ k := by
  obtain ⟨j, v, hentry, hj, hat, hne⟩ := h.token k hk hleft
  refine ⟨m.release j, ?_, ?_⟩
  · rw [run_bind_of_ok (h.load_run (hk.trans_le hslots)), hentry]
    exact sdsfree_run hat
  constructor
  case grown =>
    refine ⟨h.grown.next_le, fun i hi => ?_⟩
    rw [Mem.release_blocks_of_ne (by omega), h.grown.keeps i hi]
  case array =>
    obtain ⟨i, b, hptr, hi, hb, hsize⟩ := h.array
    refine ⟨i, b, hptr, hi, ?_, hsize⟩
    rw [Mem.release_blocks_of_ne (by rintro rfl; exact hne (by rw [hptr])), hb]
  case token =>
    rintro l hl ⟨hleftl, hlk⟩
    obtain ⟨j', v', hentry', hj', ⟨b, hb, hs⟩, hne'⟩ := h.token l hl hleftl
    refine ⟨j', v', hentry', hj', ⟨b, ?_, hs⟩, hne'⟩
    have hjj : j' ≠ j := by
      rintro rfl
      refine h.apart l k hl hk hleftl hleft hlk ?_
      rw [hentry, hentry']
      rfl
    rw [Mem.release_blocks_of_ne hjj, hb]
  case apart =>
    exact fun l l' hl hl' hleftl hleftl' => h.apart l l' hl hl' hleftl.1 hleftl'.1
  case ledger =>
    intro i hi hlive
    have hij : i ≠ j := by
      rintro rfl
      exact hlive (Mem.release_blocks_self m i)
    rw [Mem.release_blocks_of_ne hij] at hlive
    rcases h.ledger i hi hlive with hptr | ⟨l, hl, hleftl, hblock⟩
    · exact Or.inl hptr
    · refine Or.inr ⟨l, hl, ⟨hleftl, ?_⟩, hblock⟩
      rintro rfl
      rw [hentry] at hblock
      exact hij (Option.some.inj hblock).symm

theorem Owning.congr {left' : Nat → Prop} (h : Owning m₀ m a slots count left)
    (hiff : ∀ k, k < count → (left' k ↔ left k)) : Owning m₀ m a slots count left' where
  grown := h.grown
  array := h.array
  token := fun k hk hl => h.token k hk ((hiff k hk).mp hl)
  apart := fun k l hk hl hlk hll => h.apart k l hk hl ((hiff k hk).mp hlk) ((hiff l hl).mp hll)
  ledger := by
    intro i hi hlive
    rcases h.ledger i hi hlive with hptr | ⟨l, hl, hleft, hblock⟩
    · exact Or.inl hptr
    · exact Or.inr ⟨l, hl, (hiff l hl).mpr hleft, hblock⟩

/-- The loop of `cleanup` frees the tokens from `i` on. -/
theorem Owning.freeTokens_run (n : Nat) :
    ∀ {m : Mem} {i : Nat}, Owning m₀ m a slots count (fun k => i ≤ k) → count ≤ slots →
      i + n = count → ∃ m', (freeTokens a i n).run m = .ok ((), m') ∧
        Owning m₀ m' a slots count fun _ => False := by
  induction n with
  | zero =>
      intro m i h _ hi
      exact ⟨m, rfl, h.congr fun k hk => iff_of_false id (by omega)⟩
  | succ n ih =>
      intro m i h hslots hi
      obtain ⟨m₁, hfree, h₁⟩ := h.free_token hslots (k := i) (by omega) (Nat.le_refl i)
      obtain ⟨m', hrest, h'⟩ := ih (i := i + 1) (h₁.congr fun k _ => by omega) hslots (by omega)
      refine ⟨m', ?_, h'⟩
      obtain ⟨t, m₂, hload, hone⟩ := run_bind_eq_ok hfree
      rw [freeTokens, run_bind_of_ok hload, run_bind_of_ok hone]
      exact hrest

/-- The loop of `sdsfreesplitres` frees the tokens below `n`. -/
theorem Owning.freeFromEnd_run (n : Nat) :
    ∀ {m : Mem}, Owning m₀ m a slots count (fun k => k < n) → count ≤ slots → n ≤ count →
      ∃ m', (freeFromEnd a n).run m = .ok ((), m') ∧ Owning m₀ m' a slots count fun _ => False := by
  induction n with
  | zero =>
      intro m h _ _
      exact ⟨m, rfl, h.congr fun k _ => iff_of_false id (Nat.not_lt_zero k)⟩
  | succ n ih =>
      intro m h hslots hn
      obtain ⟨m₁, hfree, h₁⟩ := h.free_token hslots (k := n) (by omega) (Nat.lt_succ_self n)
      obtain ⟨m', hrest, h'⟩ := ih (h₁.congr fun k _ => by omega) hslots (by omega)
      refine ⟨m', ?_, h'⟩
      obtain ⟨t, m₂, hload, hone⟩ := run_bind_eq_ok hfree
      rw [freeFromEnd, run_bind_of_ok hload, run_bind_of_ok hone]
      exact hrest

/-- The array is freed last, and the blocks are those of `m₀`. -/
theorem Owning.free_array (h : Owning m₀ m a slots count fun _ => False) :
    ∃ m', (free a.ptr).run m = .ok ((), m') ∧ m'.blocks = m₀.blocks := by
  obtain ⟨i, b, hptr, hi, hb, -⟩ := h.array
  refine ⟨m.release i, by rw [hptr]; exact free_run hb, ?_⟩
  funext k
  rcases Nat.lt_or_ge k m₀.next with hk | hk
  · rw [Mem.release_blocks_of_ne (by omega), h.grown.keeps k hk]
  · rw [m₀.unused k hk]
    by_cases hki : k = i
    · rw [hki]
      exact Mem.release_blocks_self m i
    · rw [Mem.release_blocks_of_ne hki]
      by_contra hlive
      rcases h.ledger k hk hlive with hblock | ⟨l, -, hno, -⟩
      · rw [hptr] at hblock
        exact hki (Option.some.inj hblock).symm
      · exact hno

theorem Owning.cleanup_run {q : Splitting} (h : Owning m₀ m q.tokens slots q.elements fun _ => True)
    (hslots : q.elements ≤ slots) :
    ∃ m', (cleanup q).run m = .ok (⟨none, some 0⟩, m') ∧ m'.blocks = m₀.blocks := by
  obtain ⟨m₁, htokens, h₁⟩ := Owning.freeTokens_run q.elements (i := 0)
    (h.congr fun k _ => iff_of_true (Nat.zero_le k) trivial) hslots (Nat.zero_add _)
  obtain ⟨m', hfree, hblocks⟩ := h₁.free_array
  refine ⟨m', ?_, hblocks⟩
  rw [cleanup, run_bind_of_ok htokens, run_bind_of_ok hfree]
  rfl

theorem Owning.sdsfreesplitres_run (h : Owning m₀ m a slots count fun _ => True)
    (hslots : count ≤ slots) :
    ∃ m', (sdsfreesplitres (some a) count).run m = .ok ((), m') ∧ m'.blocks = m₀.blocks := by
  obtain ⟨m₁, htokens, h₁⟩ := Owning.freeFromEnd_run count
    (h.congr fun k hk => iff_of_true hk trivial) hslots (Nat.le_refl _)
  obtain ⟨m', hfree, hblocks⟩ := h₁.free_array
  exact ⟨m', (run_bind_of_ok htokens _).trans hfree, hblocks⟩

/-- The loops that free tokens make no request. -/
theorem sdsfree_keeps_requests (s : Ptr) : Keeps Mem.requests (sdsfree s) := by
  refine Keeps.ite (Keeps.pure _) ?_
  refine (flagsOf_keeps _ s).bind fun flags => (ptrSub_keeps _ s _).bind fun sh => ?_
  exact free_keeps_requests sh

theorem cleanup_keeps_requests (q : Splitting) : Keeps Mem.requests (cleanup q) := by
  have htokens : ∀ n i, Keeps Mem.requests (freeTokens q.tokens i n) := by
    intro n
    induction n with
    | zero => exact fun _ => Keeps.pure _
    | succ n ih =>
        intro i
        refine Keeps.bind ((access_keeps _ _ _).bind fun _ => Keeps.pure _) fun t => ?_
        exact (sdsfree_keeps_requests t).bind fun _ => ih (i + 1)
  exact (htokens _ _).bind fun _ => (free_keeps_requests _).bind fun _ => Keeps.pure _

end Freeing

/-! ## What a step adds to the ledger -/

section Growing

variable {al : Allocator} {m₀ m m' : Mem} {a : SdsArray} {slots count i j n : Nat} {v : Value}
  {left : Nat → Prop}

theorem Owning.store_run (h : Owning m₀ m a slots count left) {k : Nat} (hk : k < slots) (p : Ptr) :
    (a.store k p).run m = .ok ({ a with entry := Function.update a.entry k p }, m) := by
  obtain ⟨x, t, hx, hret⟩ := run_bind_eq_ok (h.load_run hk)
  cases hret
  exact run_bind_of_ok hx _

/-- A refusal changes no block. -/
theorem Owning.refuse (h : Owning m₀ m a slots count left) (n : Nat) :
    Owning m₀ (m.refuse n) a slots count left where
  grown := ⟨h.grown.next_le, h.grown.keeps⟩
  array := h.array
  token := h.token
  apart := h.apart
  ledger := h.ledger

/-- The entry behind the tokens owns nothing. -/
theorem Owning.set_behind (h : Owning m₀ m a slots count left) (p : Ptr) :
    Owning m₀ m { a with entry := Function.update a.entry count p } slots count left := by
  have hsame : ∀ k, k < count → Function.update a.entry count p k = a.entry k :=
    fun k hk => Function.update_of_ne hk.ne ..
  constructor
  case grown => exact h.grown
  case array => exact h.array
  case token =>
    intro k hk hleft
    obtain ⟨j, v, hentry, hrest⟩ := h.token k hk hleft
    exact ⟨j, v, (hsame k hk).trans hentry, hrest⟩
  case apart =>
    intro k l hk hl hleftk hleftl hne
    dsimp only
    rw [hsame k hk, hsame l hl]
    exact h.apart k l hk hl hleftk hleftl hne
  case ledger =>
    intro i hi hlive
    rcases h.ledger i hi hlive with hptr | ⟨k, hk, hleft, hblock⟩
    · exact Or.inl hptr
    · exact Or.inr ⟨k, hk, hleft, by rw [← hblock]; exact congrArg Ptr.block (hsame k hk)⟩

/-- A new string, in the only block that is new. -/
theorem Owning.concat (h : Owning m₀ m a slots count fun _ => True) (hm : m.Extends m')
    (hnext : m'.next ≤ m.next + 1) (hj : m.next ≤ j) (hv : v.At m' j) :
    Owning m₀ m' { a with entry := Function.update a.entry count (handle j v.type) } slots
      (count + 1) fun _ => True := by
  have hlast : Function.update a.entry count (handle j v.type) count = handle j v.type :=
    Function.update_self ..
  have hsame : ∀ k, k < count →
      Function.update a.entry count (handle j v.type) k = a.entry k :=
    fun k hk => Function.update_of_ne hk.ne ..
  have hjlt := hv.lt_next
  -- the blocks that are owned already are older
  have hold : ∀ k, k < count → (a.entry k).block ≠ some j := by
    intro k hk hblock
    obtain ⟨j', v', hentry, -, hat, -⟩ := h.token k hk trivial
    rw [hentry] at hblock
    have := hat.lt_next
    have : j' = j := Option.some.inj hblock
    omega
  constructor
  case grown => exact h.grown.trans hm
  case array =>
    obtain ⟨i, b, hptr, hi, hb, hsize⟩ := h.array
    exact ⟨i, b, hptr, hi, hm.block hb, hsize⟩
  case token =>
    intro k hk _
    rcases Nat.lt_succ_iff_lt_or_eq.mp hk with hk | rfl
    · obtain ⟨j', v', hentry, hj', hat, hne⟩ := h.token k hk trivial
      exact ⟨j', v', (hsame k hk).trans hentry, hj', hat.extends hm, hne⟩
    · refine ⟨j, v, hlast, h.grown.next_le.trans hj, hv, fun hptr => ?_⟩
      obtain ⟨i, b, hi, -, hb, -⟩ := h.array
      have := Mem.lt_next hb
      rw [hi] at hptr
      have : i = j := Option.some.inj hptr
      omega
  case apart =>
    intro k l hk hl _ _ hne
    dsimp only
    rcases Nat.lt_succ_iff_lt_or_eq.mp hk with hk | rfl
    · rw [hsame k hk]
      rcases Nat.lt_succ_iff_lt_or_eq.mp hl with hl | rfl
      · rw [hsame l hl]
        exact h.apart k l hk hl trivial trivial hne
      · rw [hlast]
        exact hold k hk
    · rw [hlast, hsame l (by omega)]
      exact (hold l (by omega)).symm
  case ledger =>
    intro i hi hlive
    rcases Nat.lt_or_ge i m.next with hlt | hge
    · rw [hm.keeps i hlt] at hlive
      rcases h.ledger i hi hlive with hptr | ⟨k, hk, -, hblock⟩
      · exact Or.inl hptr
      · exact Or.inr ⟨k, hk.trans (Nat.lt_succ_self _), trivial, by
          rw [← hblock]; exact congrArg Ptr.block (hsame k hk)⟩
    · have hilt : i < m'.next := by
        by_contra hno
        exact hlive (m'.unused i (not_lt.mp hno))
      have hij : j = i := by omega
      exact Or.inr ⟨count, Nat.lt_succ_self _, trivial, by
        rw [← hij]; exact congrArg Ptr.block hlast⟩

/-- The array is moved to a block of another size, and the block it has left is given back. -/
theorem Owning.grow {b : Block} {slots' : Nat} (h : Owning m₀ m a slots count fun _ => True)
    (hptr : a.ptr = ⟨some i, 0⟩) (hsize : b.size = SDS_SIZE * slots') :
    Owning m₀ ((m.grant b).release i) { a with ptr := ⟨some m.next, 0⟩ } slots' count
      fun _ => True := by
  obtain ⟨i', b', hptr', hi, hb, -⟩ := h.array
  rw [hptr, Ptr.mk.injEq, Option.some.injEq] at hptr'
  obtain ⟨rfl, -⟩ := hptr'
  have hlt := Mem.lt_next hb
  have hnew : ((m.grant b).release i).blocks m.next = some b := by
    rw [Mem.release_blocks_of_ne (by omega), Mem.grant_blocks_next]
  have hkeep : ∀ k, k ≠ i → k ≠ m.next → ((m.grant b).release i).blocks k = m.blocks k := by
    intro k hki hkn
    rw [Mem.release_blocks_of_ne hki, Mem.grant_blocks_of_ne hkn]
  have hnext := h.grown.next_le
  constructor
  case grown =>
    refine ⟨hnext.trans (Nat.le_succ _), fun k hk => ?_⟩
    rw [hkeep k (by omega) (by omega), h.grown.keeps k hk]
  case array => exact ⟨m.next, b, rfl, hnext, hnew, hsize⟩
  case token =>
    intro k hk _
    obtain ⟨j, v, hentry, hj, ⟨d, hd, hs⟩, hne⟩ := h.token k hk trivial
    have hji : j ≠ i := fun he => hne (by rw [hptr, he])
    have hjn := Mem.lt_next hd
    refine ⟨j, v, hentry, hj, ⟨d, (hkeep j hji hjn.ne).trans hd, hs⟩, fun he => ?_⟩
    exact hjn.ne (Option.some.inj he).symm
  case apart => exact h.apart
  case ledger =>
    intro k hk hlive
    by_cases hkn : k = m.next
    · exact Or.inl (by rw [hkn])
    · have hki : k ≠ i := by
        rintro rfl
        exact hlive (Mem.release_blocks_self _ _)
      rw [hkeep k hki hkn] at hlive
      rcases h.ledger k hk hlive with hblock | hrest
      · rw [hptr] at hblock
        exact absurd (Option.some.inj hblock).symm hki
      · exact Or.inr hrest

/-- The new array is all there is. -/
theorem Owning.init (m : Mem) {b : Block} (hsize : b.size = SDS_SIZE * slots) (entry : Nat → Ptr) :
    Owning m (m.grant b) ⟨⟨some m.next, 0⟩, entry⟩ slots 0 fun _ => True where
  grown := (Mem.Extends.refl m).moved (grant_moved m b) (Nat.le_refl _)
  array := ⟨m.next, b, rfl, Nat.le_refl _, Mem.grant_blocks_next m b, hsize⟩
  token k hk := absurd hk (Nat.not_lt_zero k)
  apart k l hk := absurd hk (Nat.not_lt_zero k)
  ledger := by
    intro i hi hlive
    by_cases hin : i = m.next
    · exact Or.inl (by rw [hin])
    · rw [Mem.grant_blocks_of_ne hin] at hlive
      exact absurd (m.unused i hi) hlive

/-- `sdsnewlen` allocates one block at most. -/
theorem sdsnewlen_raises_next (al : Allocator) (t : Source) (n : Nat) :
    Raises Mem.next 1 (sdsnewlen al (.src t) n) := by
  have hinit : ∀ T s, Keeps Mem.next (initHeader T s n) := by
    intro T s
    refine (ptrSub_keeps _ s 1).bind fun fp => ?_
    split
    · exact writeAt_keeps_next _ _ _
    · refine (ptrSub_keeps _ s _).bind fun sh => (writeAt_keeps_next _ _ _).bind fun _ => ?_
      exact (writeAt_keeps_next _ _ _).bind fun _ => writeAt_keeps_next _ _ _
  have hzero : ∀ sh k, Keeps Mem.next (zeroInit (.src t) sh k) := fun _ _ => Keeps.pure _
  have hcopy : ∀ s, Keeps Mem.next (copyInit (.src t) s n) := fun s =>
    Keeps.ite (memcpy_keeps_next s t n) (Keeps.pure _)
  refine (malloc_raises_next al _).andThen fun sh => Keeps.ite (Keeps.pure _) ?_
  refine (hzero _ _).bind fun _ => (hinit _ _).bind fun _ => (hcopy _).bind fun _ => ?_
  exact (writeAt_keeps_next _ _ _).bind fun _ => Keeps.pure _

end Growing

/-! ## The steps of the loop -/

/-- A request was refused, and the code is on its way to `cleanup`. -/
def GivenUp (m₀ : Mem) (r : Except Halt ((Bool × Splitting) × Mem)) : Prop :=
  ∃ q m' slots n rest, r = .ok ((false, q), m') ∧
    Owning m₀ m' q.tokens slots q.elements (fun _ => True) ∧ q.elements ≤ slots ∧
    m'.requests = ⟨n, false⟩ :: rest

section Steps

variable {al : Allocator} {m₀ m : Mem} {s sep : Source} {c d t : List UInt8} {q : Splitting}
  {ts us : List (List UInt8)}

/-- The allocator that answers as `al` does where it does not refuse. -/
def granting (al : Allocator) : Allocator := fun k => some ((al k).getD fun _ => 0)

theorem granting_ne_none (al : Allocator) (k : Nat) : granting al k ≠ none :=
  Option.some_ne_none _

/-- The slots are doubled, and the request for them is made. -/
theorem moreSlots_run_short (hcount : q.elements + 2 ≤ INT_MAX) (hdouble : q.slots * 2 ≤ INT_MAX)
    (hlt : q.slots < q.elements + 2) (al : Allocator) :
    (moreSlots al q).run m = (do
      let newtokens ← realloc al q.tokens.ptr (sizeT (SDS_SIZE * (q.slots * 2)))
      if newtokens = Ptr.null then return (false, { q with slots := q.slots * 2 })
      return (true, { q with
        tokens := { q.tokens with ptr := newtokens }, slots := q.slots * 2 }) :
          Exec Mem (Bool × Splitting)).run m := by
  rw [moreSlots, run_bind_of_ok (intValue_run hcount m), if_pos hlt]
  exact run_bind_of_ok (intValue_run hdouble m) _

theorem moreSlots_ends (al : Allocator) (h : Scanned m₀ m c d q ts)
    (ho : Owning m₀ m q.tokens q.slots q.elements fun _ => True)
    (hneed : ts.length + 2 ≤ MAX_SLOTS) :
    (∃ tokens slots m', (moreSlots al q).run m = .ok ((true, { q with tokens, slots }), m') ∧
      Scanned m₀ m' c d { q with tokens, slots } ts ∧ ts.length + 2 ≤ slots ∧
      Owning m₀ m' tokens slots q.elements fun _ => True) ∨
    GivenUp m₀ ((moreSlots al q).run m) := by
  have hint : MAX_SLOTS ≤ INT_MAX := by decide
  have hcount := h.elements
  have hadd : q.elements + 2 ≤ INT_MAX := by omega
  -- what is shown when every request is granted
  obtain ⟨tokens, slots, m', hrun, hscan, hslots⟩ :=
    moreSlots_run (granting_ne_none al) h hneed
  by_cases hlt : q.slots < q.elements + 2
  · have hdouble : q.slots * 2 ≤ INT_MAX := by
      rw [moreSlots, run_bind_of_ok (intValue_run hadd m), if_pos hlt] at hrun
      by_contra hover
      rw [run_bind_of_error (intValue_run_overflow (not_le.mp hover) m)] at hrun
      cases hrun
    have hsize : sizeT (SDS_SIZE * (q.slots * 2)) = SDS_SIZE * (q.slots * 2) := by
      refine Nat.mod_eq_of_lt ?_
      have hmax : INT_MAX * SDS_SIZE < SIZE_COUNT := by decide
      rw [SDS_SIZE] at hmax ⊢
      omega
    obtain ⟨i, b, hptr, -, hb, -⟩ := ho.array
    rw [moreSlots_run_short hadd hdouble hlt, hptr] at hrun
    rw [moreSlots_run_short hadd hdouble hlt, hptr]
    cases hal : al m.requests.length with
    | none =>
        right
        refine ⟨{ q with slots := q.slots * 2 }, m.refuse (sizeT (SDS_SIZE * (q.slots * 2))), q.slots,
          _, _, ?_, ho.refuse _, ?_, rfl⟩
        · exact run_bind_of_ok (realloc_run_refused hb hal) _
        · have := h.room
          dsimp only
          omega
    | some junk =>
        left
        have hgrant : granting al m.requests.length = some junk := by
          rw [granting, hal]
          rfl
        rw [run_bind_of_ok (realloc_run_granted hb hgrant), if_neg (Ptr.mk_ne_null _ _)] at hrun
        cases hrun
        refine ⟨_, _, _, ?_, hscan, hslots, ho.grow hptr ?_⟩
        · exact run_bind_of_ok (realloc_run_granted hb hal) _
        · exact hsize
  · left
    refine ⟨q.tokens, q.slots, m, ?_, h, by omega, ho⟩
    rw [moreSlots, run_bind_of_ok (intValue_run hadd m), if_neg hlt]
    rfl

theorem addToken_ends (al : Allocator) (hs : s.Holds m₀ c) (hc : c.length < 2 ^ 63)
    (h : Scanned m₀ m c d q ts) (ho : Owning m₀ m q.tokens q.slots q.elements fun _ => True)
    (hle : q.start ≤ c.length) (ht : t <+: c.drop q.start) :
    (∃ tokens m', (addToken al s q t.length).run m =
        .ok ((true, { q with tokens, elements := q.elements + 1 }), m') ∧
      m₀.Extends m' ∧ TokensAt m' m₀.next tokens q.slots (ts ++ [t]) ∧
      Owning m₀ m' tokens q.slots (q.elements + 1) fun _ => True) ∨
    GivenUp m₀ ((addToken al s q t.length).run m) := by
  have hroom : q.elements < q.slots := by
    rw [h.elements]
    exact h.room
  have hlen := ht.length_le
  rw [List.length_drop] at hlen
  cases hal : al m.requests.length with
  | none =>
      right
      have hnew := sdsnewlen_refused hal (.src (s.drop q.start)) t.length
      have howns := (ho.refuse (sizeT ((newType t.length).hdrSize + t.length + 1))).set_behind Ptr.null
      refine ⟨{ q with tokens := ⟨q.tokens.ptr, Function.update q.tokens.entry q.elements Ptr.null⟩ },
        _, q.slots, _, _, ?_, howns, hroom.le, rfl⟩
      rw [addToken]
      apply (run_bind_of_ok hnew _).trans
      apply (run_bind_of_ok ((ho.refuse _).store_run hroom Ptr.null) _).trans
      rw [if_pos rfl]
      rfl
  | some junk =>
      left
      have hsrc := Source.Holds.of_prefix ((hs.extends h.grown).drop hle) ht
      obtain ⟨j, m', hnew, hat, hmoved⟩ := sdsnewlen_yields
        (hal.symm ▸ Option.some_ne_none _ : al m.requests.length ≠ none) hsrc
        (fitsSize_newType (by omega))
      have hext : m.Extends m' := (Mem.Extends.refl m).moved hmoved (Nat.le_refl _)
      have hj : m.next ≤ j := by
        rcases hmoved.target with rfl | hj
        · exact Nat.le_refl _
        · exact hj
      have htokens := h.tokens.concat hext hj h.grown.next_le hat
      rw [← h.elements] at htokens
      have howns := ho.concat hext (sdsnewlen_raises_next al _ _ _ _ _ hnew) hj hat
      have hstore := (h.tokens.extends hext).store_run hroom (handle j (newType t.length))
      refine ⟨_, m', ?_, h.grown.trans hext, htokens, howns⟩
      rw [addToken]
      apply (run_bind_of_ok hnew _).trans
      apply (run_bind_of_ok hstore _).trans
      rw [if_neg (handle_ne_null _ _)]
      rfl

/-- What the loop has done when it goes on to the final element, or it has given up. -/
theorem searchLoop_ends (al : Allocator) (hs : s.Holds m₀ c) (hsep : sep.Holds m₀ d) (hd : d ≠ [])
    (hc : c.length < 2 ^ 63) (fuel : Nat) :
    ∀ {m : Mem} {q : Splitting} {ts us : List (List UInt8)}, Scanned m₀ m c d q ts →
      (Owning m₀ m q.tokens q.slots q.elements fun _ => True) → q.j ≤ c.length →
      c.length - q.j < fuel → Split d (c.drop q.start) us →
      slotsNeeded d.length (ts ++ us) ≤ MAX_SLOTS →
      (∃ q' m' vs, (searchLoop al s c.length sep d.length fuel q).run m = .ok ((true, q'), m') ∧
        Scanned m₀ m' c d q' (ts ++ vs) ∧
        (Owning m₀ m' q'.tokens q'.slots q'.elements fun _ => True) ∧ q'.start ≤ c.length ∧
        us = vs ++ [c.drop q'.start]) ∨
      GivenUp m₀ ((searchLoop al s c.length sep d.length fuel q).run m) := by
  have hpos := List.length_pos_iff.mpr hd
  induction fuel with
  | zero =>
      intro m q ts us _ _ _ hfuel
      omega
  | succ fuel ih =>
      intro m q ts us h ho hj hfuel hus hmax
      rw [searchLoop]
      by_cases hlt : q.j < c.length - (d.length - 1)
      case neg =>
        left
        rw [if_neg hlt]
        exact ⟨q, m, [], rfl, by rwa [List.append_nil], ho, h.start_le_length hj,
          h.split_last hd (by omega) hus⟩
      case pos =>
        rw [if_pos hlt]
        rcases moreSlots_ends al h ho (h.need (by omega) hus hmax) with
          ⟨tokens, slots, m₁, hmore, h₁, hslots, ho₁⟩ | ⟨q', m', sl, n, rest, hrun, hgiven⟩
        case inr =>
          right
          exact ⟨q', m', sl, n, rest, run_bind_of_ok hrun _, hgiven⟩
        case inl =>
          have hfound := atSeparator_run (hs.extends h₁.grown) (hsep.extends h₁.grown) hpos
            (show q.j + d.length ≤ c.length by omega)
          rw [run_bind_of_ok hmore]
          dsimp only
          rw [if_pos rfl, run_bind_of_ok hfound]
          by_cases hpre : d <+: c.drop q.j
          · rw [if_pos (decide_eq_true hpre)]
            have hsplit := h.split_match hd hpre hus
            have hlen : ((c.drop q.start).take (q.j - q.start)).length = q.j - q.start := by
              rw [List.length_take, List.length_drop]
              omega
            have htoken := addToken_ends al hs hc h₁ ho₁ (h.start_le_length hj)
              (List.take_prefix (q.j - q.start) _)
            rw [hlen] at htoken
            rcases htoken with
              ⟨tokens', m₂, hadd, hext, htok, ho₂⟩ | ⟨q', m', sl, n, rest, hrun, hgiven⟩
            case inr =>
              right
              exact ⟨q', m', sl, n, rest, run_bind_of_ok hrun _, hgiven⟩
            case inl =>
              have h₂ : Scanned m₀ m₂ c d ⟨tokens', q.elements + 1, slots, q.j + d.length,
                  q.j + d.length - 1 + 1⟩ (ts ++ [(c.drop q.start).take (q.j - q.start)]) := by
                refine ⟨hext, htok, ?_, ?_, h₁.power, by dsimp only; omega, ?_⟩
                · rw [List.length_append, ← h.elements]
                  rfl
                · rw [List.length_append, List.length_singleton]
                  dsimp only
                  omega
                · dsimp only
                  omega
              rw [hsplit, List.append_cons] at hmax
              rw [run_bind_of_ok hadd]
              dsimp only
              rw [if_pos rfl]
              rcases ih h₂ ho₂ (by dsimp only; omega) (by dsimp only; omega) (.of_pieces hd _) hmax
                with ⟨q', m', vs, hloop, hscan, ho', hle, hvs⟩ | hgiven
              · refine .inl ⟨q', m', (c.drop q.start).take (q.j - q.start) :: vs, hloop, ?_, ho',
                  hle, ?_⟩
                · rwa [← List.append_cons] at hscan
                · rw [hsplit, hvs, List.cons_append]
              · exact .inr hgiven
          · rw [if_neg (by simpa using hpre)]
            have h₂ : Scanned m₀ m₁ c d ⟨tokens, q.elements, slots, q.start, q.j + 1⟩ ts := by
              refine ⟨h₁.grown, h₁.tokens, h₁.elements, h₁.room, h₁.power,
                Nat.le_succ_of_le h.start_le, fun n hn hnj => ?_⟩
              rcases Nat.lt_succ_iff_lt_or_eq.mp hnj with hnj | rfl
              · exact h.none n hn hnj
              · exact hpre
            exact ih h₂ ho₁ (by dsimp only; omega) (by dsimp only; omega) hus hmax

end Steps

/-! ## The whole split -/

/-- How `sdssplitlen` can end in the memory `m'` when it began with `m`. -/
inductive SplitEnds (m : Mem) (c d : List UInt8) (m' : Mem) : SplitResult → Prop where
  /-- The array is refused, and `count` is not written. -/
  | noArray (n : Nat) (hblocks : m'.blocks = m.blocks)
      (hrefused : m'.requests = ⟨n, false⟩ :: m.requests) : SplitEnds m c d m' ⟨none, none⟩
  /-- A later request is refused, and everything has been freed. -/
  | freed (n : Nat) (rest : List Request) (hblocks : m'.blocks = m.blocks)
      (hrefused : m'.requests = ⟨n, false⟩ :: rest) : SplitEnds m c d m' ⟨none, some 0⟩
  /-- The tokens are the pieces. -/
  | tokens (a : SdsArray) (slots : Nat) (hstrings : TokensAt m' m.next a slots (pieces d c)) :
      SplitEnds m c d m' ⟨some a, some (pieces d c).length⟩

/-- A caller that frees the result, with the count it was told, has the blocks it had before. -/
def GivesBack (m m' : Mem) (r : SplitResult) : Prop :=
  ∀ count, r.count.getD count = count →
    ∃ m'', (sdsfreesplitres r.tokens count).run m' = .ok ((), m'') ∧ m''.blocks = m.blocks

section Whole

variable {al : Allocator} {m m' : Mem} {s sep : Source} {c d : List UInt8}

theorem GivesBack.of_none {n : Option Nat} (h : m'.blocks = m.blocks) :
    GivesBack m m' ⟨none, n⟩ :=
  fun _ _ => ⟨m', rfl, h⟩

/-- At the label `cleanup` everything is freed. -/
theorem GivenUp.cleanup_ends {r : Except Halt ((Bool × Splitting) × Mem)} (h : GivenUp m r) :
    ∃ q m₁ m', r = .ok ((false, q), m₁) ∧ (cleanup q).run m₁ = .ok (⟨none, some 0⟩, m') ∧
      SplitEnds m c d m' ⟨none, some 0⟩ ∧ GivesBack m m' ⟨none, some 0⟩ := by
  obtain ⟨q, m₁, slots, n, rest, hrun, howns, hslots, hrefused⟩ := h
  obtain ⟨m', hclean, hblocks⟩ := howns.cleanup_run hslots
  have hrequests := cleanup_keeps_requests q m₁ _ m' hclean
  exact ⟨q, m₁, m', hrun, hclean, .freed n rest hblocks (hrequests.trans hrefused),
    .of_none hblocks⟩

/-- `sdssplitlen` with any allocator. Whatever is refused, it returns; `NULL` means that the last
request was refused and that nothing is left of what was allocated, and otherwise
`sdsfreesplitres` frees all of it. -/
theorem split_gives_back (al : Allocator) (hs : s.Holds m c) (hsep : sep.Holds m d) (hc : c ≠ [])
    (hd : d ≠ []) (hlen : c.length < 2 ^ 63)
    (hslots : slotsNeeded d.length (pieces d c) ≤ MAX_SLOTS) :
    ∃ r m', (sdssplitlen al s c.length sep d.length).run m = .ok (r, m') ∧
      SplitEnds m c d m' r ∧ GivesBack m m' r := by
  have hcpos := List.length_pos_iff.mpr hc
  have hdpos := List.length_pos_iff.mpr hd
  have hguard : ¬ ((d.length : Int) < 1 ∨ (c.length : Int) ≤ 0) := by omega
  have hsize : sizeT (SDS_SIZE * 5) = SDS_SIZE * 5 := by decide
  rw [sdssplitlen, if_neg hguard, Int.toNat_natCast, Int.toNat_natCast, hsize]
  cases hal : al m.requests.length with
  | none =>
      refine ⟨_, _, run_bind_of_ok (malloc_run_refused hal) _, .noArray _ rfl rfl, .of_none rfl⟩
  | some junk =>
      have hinit := scanned_init junk m c d
      have howns : Owning m (m.grant ⟨SDS_SIZE * 5, junk⟩) ⟨⟨some m.next, 0⟩, fun _ => Ptr.null⟩ 5 0
          fun _ => True := .init m rfl _
      rw [run_bind_of_ok (malloc_run_granted hal), if_neg (Ptr.mk_ne_null _ _)]
      rcases searchLoop_ends al hs hsep hd hlen (c.length + 1) hinit howns (Nat.zero_le _)
        (Nat.lt_succ_self _) (.of_pieces hd c) hslots with
        ⟨q, m₁, vs, hloop, hscan, ho, hle, hvs⟩ | hgiven
      case inr =>
        obtain ⟨q, m₁, m', hloop, hclean, hends⟩ := hgiven.cleanup_ends
        exact ⟨_, m', (run_bind_of_ok hloop _).trans hclean, hends⟩
      case inl =>
        rw [List.nil_append] at hscan
        have hlast := addToken_ends al hs hlen hscan ho hle List.prefix_rfl
        rw [List.length_drop] at hlast
        rcases hlast with ⟨tokens, m', hadd, -, htok, ho'⟩ | hgiven
        case inr =>
          obtain ⟨q', m₂, m', hadd, hclean, hends⟩ := hgiven.cleanup_ends
          refine ⟨_, m', ?_, hends⟩
          apply (run_bind_of_ok hloop _).trans
          exact (run_bind_of_ok hadd _).trans hclean
        case inl =>
          have hcount : q.elements + 1 = (pieces d c).length := by
            rw [hvs, hscan.elements, List.length_append, List.length_singleton]
          refine ⟨⟨some tokens, some (pieces d c).length⟩, m', ?_, .tokens tokens q.slots ?_, ?_⟩
          · apply (run_bind_of_ok hloop _).trans
            apply (run_bind_of_ok hadd _).trans
            rw [← hcount]
            rfl
          · rw [hvs]
            exact htok
          · intro count hgot
            obtain rfl : (pieces d c).length = count := hgot
            rw [hcount] at ho'
            refine ho'.sdsfreesplitres_run ?_
            rw [← hcount, hscan.elements]
            exact hscan.room

/-- `a,,b` at the commas, when the second request is refused. -/
theorem split_gives_back_commas :
    ∃ r m', (sdssplitlen (fun k => if k = 1 then none else some fun _ => 0)
        (.bytes [97, 44, 44, 98]) 4 (.bytes [44]) 1).run Mem.empty = .ok (r, m') ∧
      SplitEnds Mem.empty [97, 44, 44, 98] [44] m' r ∧ GivesBack Mem.empty m' r := by
  have hs : (Source.bytes [97, 44, 44, 98]).Holds Mem.empty [97, 44, 44, 98] := List.prefix_rfl
  have hsep : (Source.bytes [44]).Holds Mem.empty [44] := List.prefix_rfl
  exact split_gives_back _ hs hsep (by decide) (by decide) (by decide) (by decide)

end Whole

end CLanguageLearning.Sds
