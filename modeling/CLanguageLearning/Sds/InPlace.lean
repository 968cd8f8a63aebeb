import CLanguageLearning.Sds.Operations

/-!
# Functions that write in place

`sdsclear`, `sdstrim`, `sdsrange` and `sdsmapchars` keep the string's block. Each is described by
the update of the block it makes; the loops of `sdstrim` and `sdsmapchars` are described by what is
left of the content when they stop.
-/

set_option autoImplicit false

namespace CLanguageLearning.Sds

open CLanguageLearning.Foundation

section InPlace

variable {m : Mem} {i : Nat} {b : Block} {v : Value}

theorem sdsclear_run (hb : m.blocks i = some b) (hs : SdsBlock v.type v.content v.cap b) :
    ∃ g : Block → Block, (sdsclear (handle i v.type)).run m = .ok ((), m.mapBlock i g) ∧
      SdsBlock v.type [] (v.setContent []).cap (g b) := by
  have hroom := hs.room
  have hset := sdssetlen_run hb hs.tagged 0
  have hb2 := Mem.mapBlock_blocks_self hb (v.type.withLen 0)
  have hst := store8_run (o := v.type.hdrSize) hb2 (by rw [SdsType.withLen_size]; omega) 0
  refine ⟨fun b => (v.type.withLen 0 b).patch v.type.hdrSize 1 fun _ => 0, ?_, ?_⟩
  · rw [sdsclear, run_bind_of_ok hset]
    apply hst.trans
    rw [Mem.mapBlock_mapBlock]
    rfl
  · show SdsBlock v.type [] _ ((v.type.withLen 0 b).patch v.type.hdrSize 1 fun _ => 0)
    rw [SdsType.withLen_patch _ (Nat.le_refl _)]
    exact hs.terminated (l := []) (Nat.zero_le _) rfl (fun _ _ => rfl)
      (fun k hk => absurd hk (Nat.not_lt_zero k))

/-- Moving `n` bytes from position `a` to the front, done or skipped: it is skipped only where
nothing would change. -/
theorem moveFront_run {a n : Nat} (hb : m.blocks i = some b)
    (hs : SdsBlock v.type v.content v.cap b) (c : Prop) [Decidable c]
    (hc : ¬ c → a = 0 ∨ n = 0) (h : a + n ≤ v.content.length) :
    ∃ d : Block → Block,
      (c → (memmove (handle i v.type) ⟨some i, v.type.hdrSize + a⟩ n).run m =
        .ok ((), m.mapBlock i d)) ∧ (¬ c → m.mapBlock i d = m) ∧
      (d b).size = b.size ∧ (∀ k, k < v.type.hdrSize → (d b).data k = b.data k) ∧
      ∀ k, k < n → (d b).data (v.type.hdrSize + k) = v.content.getD (a + k) 0 := by
  have hroom := hs.room
  have hle := hs.len_le
  by_cases h1 : c
  · have hrun := memmove_run (o := v.type.hdrSize) (q := v.type.hdrSize + a) (n := n) hb
      (by omega) (by omega)
    refine ⟨fun b' => b'.patch v.type.hdrSize n fun k => b.data (v.type.hdrSize + a + k),
      fun _ => hrun, fun h2 => absurd h1 h2, rfl, fun k hk => Block.patch_data_of_lt hk, ?_⟩
    intro k hk
    rw [Block.patch_data_add hk, Nat.add_assoc, hs.content (a + k) (by omega)]
  · refine ⟨fun b => b, fun h2 => absurd h2 h1, fun _ => Mem.mapBlock_id m i, rfl,
      fun _ _ => rfl, ?_⟩
    intro k hk
    rcases hc h1 with rfl | rfl
    · rw [Nat.zero_add, hs.content k (by omega)]
    · exact absurd hk (Nat.not_lt_zero k)

/-! ## Trimming -/

/-- The first loop of `sdstrim` with `load` for its reads. -/
def skipFrontBy (load : Ptr → Exec Mem UInt8) (cset : List UInt8) (last : Ptr) :
    Nat → Ptr → Exec Mem Ptr
  | 0, _ => throw .diverged
  | fuel + 1, sp =>
      if sp.off ≤ last.off then do
        let c ← load sp
        if strchr cset c then skipFrontBy load cset last fuel (sp.add 1) else return sp
      else return sp

/-- The second loop of `sdstrim` with `load` for its reads. -/
def skipBackBy (load : Ptr → Exec Mem UInt8) (cset : List UInt8) (sp : Ptr) :
    Nat → Ptr → Exec Mem Ptr
  | 0, _ => throw .diverged
  | fuel + 1, ep =>
      if sp.off < ep.off then do
        let c ← load ep
        if strchr cset c then
          let ep' ← ptrSub ep 1
          skipBackBy load cset sp fuel ep'
        else return ep
      else return ep

/-- `sdstrim` with `load` for the reads of its two loops. -/
def sdstrimBy (load : Ptr → Exec Mem UInt8) (s : Ptr) (cset : List UInt8) : Exec Mem Ptr := do
  let n ← sdslen s
  let last ← ptrSub (s.add n) 1
  let sp ← skipFrontBy load cset last (n + 1) s
  let ep ← skipBackBy load cset sp (n + 1) last
  let len := ep.off + 1 - sp.off
  if s ≠ sp then memmove s sp len
  store8 (s.add len) 0
  sdssetlen s len
  return s

theorem skipFrontBy_load8 (cset : List UInt8) (last : Ptr) :
    skipFrontBy load8 cset last = skipFront cset last := by
  funext fuel
  induction fuel with
  | zero => rfl
  | succ fuel ih =>
      funext sp
      rw [skipFrontBy, skipFront, ih]

theorem skipBackBy_load8 (cset : List UInt8) (sp : Ptr) :
    skipBackBy load8 cset sp = skipBack cset sp := by
  funext fuel
  induction fuel with
  | zero => rfl
  | succ fuel ih =>
      funext ep
      rw [skipBackBy, skipBack, ih]

theorem sdstrimBy_load8 (s : Ptr) (cset : List UInt8) : sdstrimBy load8 s cset = sdstrim s cset := by
  unfold sdstrimBy sdstrim
  simp only [skipFrontBy_load8, skipBackBy_load8]

/-- The loads find the bytes `l` from offset `o` on. -/
def Finds (load : Ptr → Exec Mem UInt8) (m : Mem) (i o : Nat) (l : List UInt8) : Prop :=
  ∀ k, k < l.length → (load ⟨some i, o + k⟩).run m = .ok (l.getD k 0, m)

namespace Finds

variable {load : Ptr → Exec Mem UInt8} {o : Nat} {l l' : List UInt8} {x : UInt8}

theorem head (h : Finds load m i o (x :: l)) : (load ⟨some i, o⟩).run m = .ok (x, m) :=
  h 0 (Nat.zero_lt_succ _)

theorem tail (h : Finds load m i o (x :: l)) : Finds load m i (o + 1) l := by
  intro k hk
  have := h (k + 1) (by simpa using hk)
  rwa [List.getD_cons_succ, show o + (k + 1) = o + 1 + k by omega] at this

theorem left (h : Finds load m i o (l ++ l')) : Finds load m i o l := by
  intro k hk
  have := h k (by rw [List.length_append]; omega)
  rwa [List.getD_append _ _ _ _ hk] at this

theorem right (h : Finds load m i o (l ++ l')) : Finds load m i (o + l.length) l' := by
  intro k hk
  have := h (l.length + k) (by rw [List.length_append]; omega)
  rwa [List.getD_append_right _ _ _ _ (Nat.le_add_right _ _), Nat.add_sub_cancel_left,
    ← Nat.add_assoc] at this

end Finds

/-- The first loop of `sdstrim` stops behind the longest prefix of bytes in `cset`. -/
theorem skipFrontBy_run {load : Ptr → Exec Mem UInt8} {cset : List UInt8} {e : Nat} :
    ∀ (rest : List UInt8) (p fuel : Nat), p + rest.length = e → 0 < p →
      Finds load m i p rest → rest.length < fuel →
      (skipFrontBy load cset ⟨some i, e - 1⟩ fuel ⟨some i, p⟩).run m =
        .ok (⟨some i, p + (rest.takeWhile (strchr cset)).length⟩, m) := by
  intro rest
  induction rest with
  | nil =>
      intro p fuel hlen hp hdata hfuel
      obtain ⟨f, rfl⟩ : ∃ f, fuel = f + 1 := ⟨fuel - 1, by omega⟩
      rw [List.length_nil] at hlen
      have hstop : ¬ p ≤ e - 1 := by omega
      rw [skipFrontBy, if_neg hstop]
      rfl
  | cons x rest ih =>
      intro p fuel hlen hp hdata hfuel
      rw [List.length_cons] at hlen hfuel
      obtain ⟨f, rfl⟩ : ∃ f, fuel = f + 1 := ⟨fuel - 1, by omega⟩
      have hgo : p ≤ e - 1 := by omega
      rw [skipFrontBy, if_pos hgo, run_bind_of_ok hdata.head, run_ite]
      by_cases hc : strchr cset x = true
      · rw [if_pos hc, List.takeWhile_cons_of_pos hc, List.length_cons]
        have hrest := ih (p + 1) f (by omega) (by omega) hdata.tail (by omega)
        rw [show p + ((rest.takeWhile (strchr cset)).length + 1) =
          p + 1 + (rest.takeWhile (strchr cset)).length by omega]
        exact hrest
      · rw [if_neg hc, List.takeWhile_cons_of_neg hc]
        rfl

/-- The second loop of `sdstrim`, from the last byte of a string whose first byte stays, stops at
the last byte that is not in `cset`. -/
theorem skipBackBy_run {load : Ptr → Exec Mem UInt8} {cset : List UInt8} {o : Nat} :
    ∀ (q : List UInt8) (fuel : Nat), (∃ x t, q = x :: t ∧ strchr cset x = false) →
      Finds load m i o q → q.length < fuel →
      (skipBackBy load cset ⟨some i, o⟩ fuel ⟨some i, o + q.length - 1⟩).run m =
        .ok (⟨some i, o + (q.rdropWhile (strchr cset)).length - 1⟩, m) := by
  intro q
  induction q using List.reverseRecOn with
  | nil =>
      intro fuel hhead
      obtain ⟨x, t, hq, -⟩ := hhead
      cases hq
  | append_singleton q x ih =>
      intro fuel hhead hdata hfuel
      obtain ⟨f, rfl⟩ : ∃ f, fuel = f + 1 := ⟨fuel - 1, by omega⟩
      rw [List.length_append, List.length_singleton] at hfuel
      have hend : o + (q ++ [x]).length - 1 = o + q.length := by
        rw [List.length_append, List.length_singleton]
        omega
      rw [hend]
      cases q with
      | nil =>
          obtain ⟨y, t, hq, hy⟩ := hhead
          rw [List.nil_append, List.cons.injEq] at hq
          obtain ⟨rfl, -⟩ := hq
          rw [List.nil_append, List.rdropWhile_singleton, hy]
          have hstop : ¬ o < o + ([] : List UInt8).length := by simp
          rw [skipBackBy, if_neg hstop]
          rfl
      | cons y t =>
          have hy : strchr cset y = false := by
            obtain ⟨z, u, hq, hz⟩ := hhead
            rw [List.cons_append, List.cons.injEq] at hq
            rw [hq.1]
            exact hz
          have hgo : o < o + (y :: t).length := by simp
          have hload := hdata.right.head
          have hsub := ptrSub_run (n := 1) (o := o + (y :: t).length) (by omega) (some i) m
          rw [skipBackBy, if_pos hgo, run_bind_of_ok hload, run_ite, List.rdropWhile_concat]
          by_cases hc : strchr cset x = true
          · rw [if_pos hc, if_pos hc, run_bind_of_ok hsub]
            exact ih f ⟨y, t, rfl, hy⟩ hdata.left (by omega)
          · rw [if_neg hc, if_neg hc, hend]
            rfl

theorem takeWhile_length_add (p : UInt8 → Bool) (l : List UInt8) :
    (l.takeWhile p).length + (l.dropWhile p).length = l.length := by
  rw [← List.length_append, List.takeWhile_append_dropWhile]

/-- What is left of a string after its front has been skipped. -/
theorem getD_dropWhile (p : UInt8 → Bool) (l : List UInt8) (k : Nat) :
    (l.dropWhile p).getD k 0 = l.getD ((l.takeWhile p).length + k) 0 := by
  have h := List.getD_append_right (l.takeWhile p) (l.dropWhile p) 0
    ((l.takeWhile p).length + k) (Nat.le_add_right _ _)
  rw [List.takeWhile_append_dropWhile, Nat.add_sub_cancel_left] at h
  exact h.symm

theorem getD_rdropWhile {p : UInt8 → Bool} {l : List UInt8} {k : Nat}
    (hk : k < (l.rdropWhile p).length) : (l.rdropWhile p).getD k 0 = l.getD k 0 := by
  obtain ⟨t, ht⟩ := List.rdropWhile_prefix p l
  conv_rhs => rw [← ht]
  rw [List.getD_append _ _ _ _ hk]

/-- Behind the first loop the second one stops so that what is between the two pointers stays. -/
theorem trimBack_run {load : Ptr → Exec Mem UInt8}
    (hload : Finds load m i v.type.hdrSize v.content) (cset : List UInt8) :
    ∃ ep : Ptr,
      (skipBackBy load cset ⟨some i, v.type.hdrSize + (v.content.takeWhile (strchr cset)).length⟩
        (v.content.length + 1) ⟨some i, v.type.hdrSize + v.content.length - 1⟩).run m =
          .ok (ep, m) ∧
      ep.off + 1 - (v.type.hdrSize + (v.content.takeWhile (strchr cset)).length) =
        (trimContent cset v.content).length := by
  have hpos := v.type.hdrSize_pos
  have hsplit := takeWhile_length_add (strchr cset) v.content
  have hrest : Finds load m i
      (v.type.hdrSize + (v.content.takeWhile (strchr cset)).length)
      (v.content.dropWhile (strchr cset)) :=
    Finds.right (by rwa [List.takeWhile_append_dropWhile])
  generalize (v.content.takeWhile (strchr cset)).length = a at *
  cases hr : v.content.dropWhile (strchr cset) with
  | nil =>
      rw [hr, List.length_nil] at hsplit
      refine ⟨⟨some i, v.type.hdrSize + v.content.length - 1⟩, ?_, ?_⟩
      · have hstop : ¬ v.type.hdrSize + a < v.type.hdrSize + v.content.length - 1 := by omega
        rw [skipBackBy, if_neg hstop]
        rfl
      · rw [trimContent, hr, List.rdropWhile_nil, List.length_nil]
        show v.type.hdrSize + v.content.length - 1 + 1 - (v.type.hdrSize + a) = 0
        omega
  | cons x t =>
      have hx : strchr cset x = false := by
        have := List.head?_dropWhile_not (strchr cset) v.content
        rw [hr] at this
        simpa using this
      rw [hr] at hsplit hrest
      have hrun := @skipBackBy_run _ _ load cset (v.type.hdrSize + a) (x :: t)
        (v.content.length + 1) ⟨x, t, rfl, hx⟩ hrest (by omega)
      rw [show v.type.hdrSize + a + (x :: t).length - 1 =
        v.type.hdrSize + v.content.length - 1 by omega] at hrun
      refine ⟨_, hrun, ?_⟩
      have hne : (x :: t).rdropWhile (strchr cset) ≠ [] := by
        rw [Ne, List.rdropWhile_eq_nil_iff]
        intro hall
        rw [hall x List.mem_cons_self] at hx
        cases hx
      have hlen := List.length_pos_of_ne_nil hne
      rw [trimContent, hr]
      show v.type.hdrSize + a + _ - 1 + 1 - (v.type.hdrSize + a) = _
      omega

/-- For every way to load that finds the content where it is. -/
theorem sdstrimBy_run (hb : m.blocks i = some b) (hs : SdsBlock v.type v.content v.cap b)
    (cset : List UInt8) :
    ∃ g : Block → Block,
      (∀ load, Finds load m i v.type.hdrSize v.content →
        (sdstrimBy load (handle i v.type) cset).run m =
          .ok (handle i v.type, m.mapBlock i g)) ∧
      SdsBlock v.type (trimContent cset v.content)
        (v.setContent (trimContent cset v.content)).cap (g b) := by
  have hpos := v.type.hdrSize_pos
  have hroom := hs.room
  have hle := hs.len_le
  -- the pointer to the last byte exists also for the empty string, in the header
  have hlast := ptrSub_run (n := 1) (o := v.type.hdrSize + v.content.length) (by omega) (some i) m
  have hsplit := takeWhile_length_add (strchr cset) v.content
  generalize htk : (v.content.takeWhile (strchr cset)).length = a at *
  have hpre : (trimContent cset v.content).length ≤
      (v.content.dropWhile (strchr cset)).length :=
    (List.rdropWhile_prefix _ _).length_le
  have hkeep : ∀ k, k < (trimContent cset v.content).length →
      v.content.getD (a + k) 0 = (trimContent cset v.content).getD k 0 := by
    intro k hk
    rw [trimContent, getD_rdropWhile hk, getD_dropWhile, htk]
  obtain ⟨d, hmove, hskip, hdsize, hdhdr, hddata⟩ := moveFront_run hb hs
    (handle i v.type ≠ ⟨some i, v.type.hdrSize + a⟩) (a := a)
    (n := (trimContent cset v.content).length)
    (fun hc => by left; simpa [handle] using hc) (by omega)
  obtain ⟨m2, g, hst, hset, hs'⟩ := terminate_run (l := trimContent cset v.content) hb hs
    (by omega) d hdsize hdhdr (fun k hk => by rw [hddata k hk, hkeep k hk])
  refine ⟨g, fun load hload => ?_, hs'⟩
  have hfront := @skipFrontBy_run _ _ load cset (v.type.hdrSize + v.content.length)
    v.content v.type.hdrSize (v.content.length + 1) rfl hpos hload (by omega)
  obtain ⟨ep, hback, hlen⟩ := trimBack_run hload cset
  rw [htk] at hfront hback hlen
  rw [sdstrimBy, run_bind_of_ok (hs.len_run hb)]
  apply (run_bind_of_ok hlast _).trans
  apply (run_bind_of_ok hfront _).trans
  apply (run_bind_of_ok hback _).trans
  dsimp only
  rw [hlen]
  by_cases hc : handle i v.type ≠ ⟨some i, v.type.hdrSize + a⟩
  · rw [if_pos hc]
    apply (run_bind_of_ok (hmove hc) _).trans
    apply (run_bind_of_ok hst _).trans
    exact run_bind_of_ok hset _
  · rw [hskip hc] at hst
    rw [if_neg hc]
    apply (run_bind_of_ok hst _).trans
    exact run_bind_of_ok hset _

theorem finds_content (hb : m.blocks i = some b) (hs : SdsBlock v.type v.content v.cap b) :
    Finds load8 m i v.type.hdrSize v.content := by
  intro k hk
  have hroom := hs.room
  have hle := hs.len_le
  rw [load8_run hb (by omega), hs.content k hk]

theorem sdstrim_run (hb : m.blocks i = some b) (hs : SdsBlock v.type v.content v.cap b)
    (cset : List UInt8) :
    ∃ g : Block → Block,
      (sdstrim (handle i v.type) cset).run m = .ok (handle i v.type, m.mapBlock i g) ∧
      SdsBlock v.type (trimContent cset v.content)
        (v.setContent (trimContent cset v.content)).cap (g b) := by
  obtain ⟨g, hrun, hs'⟩ := sdstrimBy_run hb hs cset
  rw [← sdstrimBy_load8]
  exact ⟨g, hrun load8 (finds_content hb hs), hs'⟩

/-! ## Slicing -/

theorem ssizeT_eq {x : Int} (h1 : -2 ^ 63 ≤ x) (h2 : x < 2 ^ 63) : ssizeT x = x := by
  refine Int.bmod_eq_of_le_mul_two ?_ ?_
  · unfold SIZE_COUNT
    omega
  · unfold SIZE_COUNT
    omega

theorem sizeOfSsize_eq {x : Int} (h1 : 0 ≤ x) (h2 : x < 2 ^ 64) : sizeOfSsize x = x.toNat := by
  unfold sizeOfSsize SIZE_COUNT
  rw [Int.emod_eq_of_lt h1 (by omega)]

/-- For lengths in the range of `ssize_t` an end of the range is resolved without wrapping. -/
theorem rangeIndex_eq {len : Nat} {x : Int} (hlen : len < 2 ^ 63) (h1 : -2 ^ 63 ≤ x)
    (h2 : x < 2 ^ 63) : rangeIndex len x = sliceIndex len x := by
  unfold rangeIndex sliceIndex
  by_cases hx : x < 0
  · rw [if_pos hx, if_pos hx, ssizeT_eq (by omega) (by omega)]
    dsimp only
    by_cases hy : len + x < 0
    · rw [if_pos hy]
      omega
    · rw [if_neg hy]
      omega
  · rw [if_neg hx, if_neg hx]
    omega

theorem rangeIndex_nonneg (len : Nat) (x : Int) : 0 ≤ rangeIndex len x := by
  unfold rangeIndex
  by_cases hx : x < 0
  · rw [if_pos hx]
    dsimp only
    split <;> omega
  · rw [if_neg hx]
    omega

/-- The length of the range, for ends resolved to positions. The intermediate value
`last - first + 1` wraps at one point, where it is replaced. -/
theorem rangeLen_eq {len f l : Nat} (hlen : len < 2 ^ 63) (hf : f < 2 ^ 63) (hl : l < 2 ^ 63) :
    rangeLen len f l = min (l + 1) len - f := by
  unfold rangeLen
  rw [ssizeT_eq (show -2 ^ 63 ≤ (len : Int) by omega) (by omega)]
  by_cases hfl : (f : Int) > l
  · rw [if_pos hfl]
    simp only [ne_eq, not_true_eq_false, if_false]
    omega
  · have hsub : ssizeT ((l : Int) - f) = l - f := ssizeT_eq (by omega) (by omega)
    -- `last - first + 1` wraps to a negative `ssize_t` and back to `size_t`
    have hnz : sizeOfSsize (ssizeT ((l : Int) - f + 1)) = l - f + 1 := by
      unfold sizeOfSsize ssizeT
      rw [Int.bmod_emod]
      unfold SIZE_COUNT
      omega
    rw [if_neg hfl, hsub, hnz]
    dsimp only
    rw [if_pos (by omega)]
    by_cases hstart : (f : Int) ≥ len
    · rw [if_pos hstart]
      omega
    · rw [if_neg hstart]
      by_cases hend : (l : Int) ≥ len
      · have h1 : ssizeT ((len : Int) - 1) = len - 1 := ssizeT_eq (by omega) (by omega)
        have h2 : ssizeT ((len : Int) - 1 - f) = len - 1 - f := ssizeT_eq (by omega) (by omega)
        have h3 : ssizeT ((len : Int) - 1 - f + 1) = len - 1 - f + 1 :=
          ssizeT_eq (by omega) (by omega)
        rw [if_pos hend, h1, h2, h3, sizeOfSsize_eq (by omega) (by omega)]
        omega
      · rw [if_neg hend]
        omega

/-- A length beyond `ssize_t` is negative there, and the range is empty. -/
theorem rangeLen_of_large {len : Nat} {f l : Int} (h1 : 2 ^ 63 ≤ len) (h2 : len < SIZE_COUNT)
    (hf : 0 ≤ f) : rangeLen len f l = 0 := by
  have hneg : ssizeT len < 0 := by
    unfold ssizeT
    unfold SIZE_COUNT at *
    rw [Int.bmod_def]
    split <;> omega
  unfold rangeLen
  dsimp only
  rw [if_pos (show f ≥ ssizeT len by omega), ite_self]

theorem sliceContent_length (c : List UInt8) (first last : Int) (h : c.length < 2 ^ 63) :
    (sliceContent c first last).length =
      min (sliceIndex c.length last + 1) c.length - sliceIndex c.length first := by
  rw [sliceContent, if_pos h, List.length_drop, List.length_take]

theorem getD_sliceContent {c : List UInt8} {first last : Int} {k : Nat}
    (hk : k < (sliceContent c first last).length) :
    (sliceContent c first last).getD k 0 = c.getD (sliceIndex c.length first + k) 0 := by
  by_cases h : c.length < 2 ^ 63
  · rw [sliceContent_length c first last h] at hk
    rw [sliceContent, if_pos h]
    simp only [List.getD_eq_getElem?_getD, List.getElem?_drop]
    rw [List.getElem?_take_of_lt (by omega)]
  · rw [sliceContent, if_neg h] at hk
    exact absurd hk (Nat.not_lt_zero k)

/-- The ends and the length `sdsrange` computes are those of the slice. -/
theorem range_spec {c : List UInt8} {first last : Int} (hlt : c.length < SIZE_COUNT)
    (hf1 : -2 ^ 63 ≤ first) (hf2 : first < 2 ^ 63) (hl1 : -2 ^ 63 ≤ last) (hl2 : last < 2 ^ 63) :
    rangeLen c.length (rangeIndex c.length first) (rangeIndex c.length last) =
        (sliceContent c first last).length ∧
      ((sliceContent c first last).length ≠ 0 →
        rangeIndex c.length first = sliceIndex c.length first) := by
  by_cases h : c.length < 2 ^ 63
  · have hif := rangeIndex_eq h hf1 hf2
    have hil := rangeIndex_eq h hl1 hl2
    have hbf : sliceIndex c.length first < 2 ^ 63 := by
      unfold sliceIndex
      split <;> omega
    have hbl : sliceIndex c.length last < 2 ^ 63 := by
      unfold sliceIndex
      split <;> omega
    rw [hif, hil, rangeLen_eq h hbf hbl, sliceContent_length c first last h]
    exact ⟨rfl, fun _ => rfl⟩
  · rw [rangeLen_of_large (by omega) hlt (rangeIndex_nonneg _ _), sliceContent, if_neg h]
    exact ⟨rfl, fun hne => absurd rfl hne⟩

theorem sdsrange_run {first last : Int} (hb : m.blocks i = some b)
    (hs : SdsBlock v.type v.content v.cap b) (hf1 : -2 ^ 63 ≤ first) (hf2 : first < 2 ^ 63)
    (hl1 : -2 ^ 63 ≤ last) (hl2 : last < 2 ^ 63) :
    ∃ g : Block → Block,
      (sdsrange (handle i v.type) first last).run m = .ok ((), m.mapBlock i g) ∧
      SdsBlock v.type (if v.content = [] then v else v.setContent
        (sliceContent v.content first last)).content (if v.content = [] then v else v.setContent
        (sliceContent v.content first last)).cap (g b) := by
  have hroom := hs.room
  have hle := hs.len_le
  have hsize := hs.size_lt
  by_cases hnil : v.content = []
  · have hzero : v.content.length = 0 := by rw [hnil, List.length_nil]
    refine ⟨fun b => b, ?_, by rw [if_pos hnil]; exact hs⟩
    rw [sdsrange, run_bind_of_ok (hs.len_run hb), if_pos hzero, Mem.mapBlock_id]
    rfl
  · have hne : v.content.length ≠ 0 := by
      intro he
      exact hnil (List.eq_nil_of_length_eq_zero he)
    obtain ⟨hlen, hstart⟩ := range_spec (c := v.content) (by omega) hf1 hf2 hl1 hl2
    have hnn := rangeIndex_nonneg v.content.length first
    rw [sdsrange, run_bind_of_ok (hs.len_run hb), if_neg hne]
    dsimp only
    rw [hlen]
    generalize hk : rangeIndex v.content.length first = fi at *
    have hfit : (sliceContent v.content first last).length ≠ 0 →
        fi.toNat + (sliceContent v.content first last).length ≤ v.content.length := by
      intro h0
      by_cases h63 : v.content.length < 2 ^ 63
      · rw [sliceContent_length _ _ _ h63] at h0 ⊢
        have := hstart (by rw [sliceContent_length _ _ _ h63]; exact h0)
        omega
      · rw [sliceContent, if_neg h63] at h0
        exact absurd rfl h0
    have hget : ∀ k, k < (sliceContent v.content first last).length →
        v.content.getD (fi.toNat + k) 0 = (sliceContent v.content first last).getD k 0 := by
      intro k hk
      have := hstart (by omega)
      rw [getD_sliceContent hk, this, Int.toNat_natCast]
    obtain ⟨d, hmove, hskip, hdsize, hdhdr, hddata⟩ := moveFront_run hb hs
      (fi ≠ 0 ∧ (sliceContent v.content first last).length ≠ 0)
      (a := if (sliceContent v.content first last).length = 0 then 0 else fi.toNat)
      (n := (sliceContent v.content first last).length)
      (fun hc => by
        by_cases h0 : (sliceContent v.content first last).length = 0
        · right
          exact h0
        · left
          rw [if_neg h0]
          by_contra hfi
          exact hc ⟨by omega, h0⟩)
      (by split <;> omega)
    obtain ⟨m2, g, hst, hset, hs'⟩ := terminate_run (l := sliceContent v.content first last) hb hs
      (by
        by_cases h0 : (sliceContent v.content first last).length = 0
        · omega
        · have := hfit h0
          omega) d hdsize hdhdr
      (fun k hk => by
        rw [hddata k hk, if_neg (by omega), hget k hk])
    refine ⟨g, ?_, by rw [if_neg hnil]; exact hs'⟩
    by_cases hc : fi ≠ 0 ∧ (sliceContent v.content first last).length ≠ 0
    · have hmv := hmove hc
      rw [if_neg hc.2] at hmv
      rw [if_pos hc]
      apply (run_bind_of_ok hmv _).trans
      apply (run_bind_of_ok hst _).trans
      exact hset
    · rw [hskip hc] at hst
      rw [if_neg hc]
      apply (run_bind_of_ok hst _).trans
      exact hset

/-! ## Mapping -/

theorem bufferAt_run {buf : List UInt8} {k : Nat} (h : k < buf.length) (m : Mem) :
    (bufferAt buf k).run m = .ok (buf.getD k 0, m) := by
  rw [bufferAt, List.getElem?_eq_getElem h, List.getD_eq_getElem buf 0 h]
  rfl

/-- The inner loop replaces the byte by the entry at the first index that matches, if any. -/
theorem mapByte_run {src dst : List UInt8} {o : Nat} (hb : m.blocks i = some b) (ho : o < b.size) :
    ∀ n k, k + n ≤ src.length → k + n ≤ dst.length →
      ∃ g : Block → Block,
        (mapByte ⟨some i, o⟩ src dst k n).run m = .ok ((), m.mapBlock i g) ∧
        (g b).size = b.size ∧
        ∀ x, (g b).data x = if x = o then
          match (List.range' k n).find? fun j => b.data o == src.getD j 0 with
          | some j => dst.getD j 0
          | none => b.data o
        else b.data x := by
  intro n
  induction n with
  | zero =>
      intro k _ _
      refine ⟨fun b => b, by rw [Mem.mapBlock_id]; rfl, rfl, ?_⟩
      intro x
      by_cases hx : x = o
      · subst hx
        rw [if_pos rfl]
        rfl
      · rw [if_neg hx]
  | succ n ih =>
      intro k hsrc hdst
      have hload := load8_run hb ho
      have hbuf := @bufferAt_run src k (by omega) m
      rw [mapByte, run_bind_of_ok hload, run_bind_of_ok hbuf, run_ite, List.range'_succ]
      by_cases hc : b.data o = src.getD k 0
      · -- the byte is replaced and the loop breaks
        have hdst := @bufferAt_run dst k (by omega) m
        have hst := store8_run hb ho (dst.getD k 0)
        rw [if_pos hc, run_bind_of_ok hdst, hst]
        refine ⟨_, rfl, rfl, ?_⟩
        intro x
        rw [List.find?_cons_of_pos (by simpa using hc)]
        by_cases hx : x = o
        · subst hx
          rw [if_pos rfl]
          exact @Block.patch_data_add b x 1 0 (fun _ => dst.getD k 0) (by omega)
        · rw [if_neg hx]
          rcases Nat.lt_or_gt_of_ne hx with hlt | hgt
          · exact Block.patch_data_of_lt hlt
          · exact Block.patch_data_of_ge hgt
      · -- the next index
        obtain ⟨g, hrun, hsize, hdata⟩ := ih (k + 1) (by omega) (by omega)
        rw [if_neg hc, List.find?_cons_of_neg (by simpa using hc)]
        exact ⟨g, hrun, hsize, hdata⟩

/-- The outer loop maps the bytes from `o` on and no others. -/
theorem mapBytes_run {src dst : List UInt8} {setlen : Nat} (hsrc : setlen ≤ src.length)
    (hdst : setlen ≤ dst.length) :
    ∀ (n : Nat) (m : Mem) (b : Block) (o : Nat), m.blocks i = some b → o + n ≤ b.size →
      ∃ g : Block → Block,
        (mapBytes src dst setlen ⟨some i, o⟩ n).run m = .ok ((), m.mapBlock i g) ∧
        (g b).size = b.size ∧
        ∀ x, (g b).data x =
          if o ≤ x ∧ x < o + n then mapContent src dst setlen (b.data x) else b.data x := by
  intro n
  induction n with
  | zero =>
      intro m b o _ _
      refine ⟨fun b => b, by rw [Mem.mapBlock_id]; rfl, rfl, ?_⟩
      intro x
      rw [if_neg (by omega)]
  | succ n ih =>
      intro m b o hb hle
      obtain ⟨g1, hrun1, hsize1, hdata1⟩ := @mapByte_run m i b src dst o hb (by omega)
        setlen 0 (by omega) (by omega)
      obtain ⟨g2, hrun2, hsize2, hdata2⟩ := ih (m.mapBlock i g1) (g1 b) (o + 1)
        (Mem.mapBlock_blocks_self hb g1) (by omega)
      refine ⟨g2 ∘ g1, ?_, ?_, ?_⟩
      · rw [mapBytes, run_bind_of_ok hrun1, ← Mem.mapBlock_mapBlock]
        exact hrun2
      · show (g2 (g1 b)).size = b.size
        rw [hsize2, hsize1]
      · intro x
        show (g2 (g1 b)).data x = _
        rw [hdata2 x, hdata1 x]
        -- the first byte is mapped in this turn and not in later ones
        by_cases hx : x = o
        · subst hx
          rw [if_neg (by omega), if_pos rfl, if_pos (by omega), ← List.range_eq_range']
          rfl
        · by_cases hin : o + 1 ≤ x ∧ x < o + 1 + n
          · rw [if_pos hin, if_neg hx, if_pos (by omega)]
          · rw [if_neg hin, if_neg hx, if_neg (by omega)]

theorem sdsmapchars_run {src dst : List UInt8} {setlen : Nat} (hb : m.blocks i = some b)
    (hs : SdsBlock v.type v.content v.cap b) (hsrc : setlen ≤ src.length)
    (hdst : setlen ≤ dst.length) :
    ∃ g : Block → Block,
      (sdsmapchars (handle i v.type) src dst setlen).run m =
        .ok (handle i v.type, m.mapBlock i g) ∧
      SdsBlock v.type (v.content.map (mapContent src dst setlen))
        (v.setContent (v.content.map (mapContent src dst setlen))).cap (g b) := by
  have hpos := v.type.hdrSize_pos
  have hroom := hs.room
  have hle := hs.len_le
  have hfits := hs.tagged.fits
  obtain ⟨g, hrun, hsize, hdata⟩ := mapBytes_run hsrc hdst v.content.length m b v.type.hdrSize hb
    (by omega)
  have hlen : (v.content.map (mapContent src dst setlen)).length = v.content.length :=
    List.length_map _
  have hhdr : ∀ k, k < v.type.hdrSize → (g b).data k = b.data k := by
    intro k hk
    rw [hdata k, if_neg (by omega)]
  -- the header is not written: its capacity is the one for the new content
  have hcap : (v.setContent (v.content.map (mapContent src dst setlen))).cap = v.cap := by
    show (if v.type = .type5 then _ else v.cap) = v.cap
    by_cases h5 : v.type = .type5
    · rw [if_pos h5, hlen]
      rw [h5] at hs
      exact hs.cap_eq_of_type5.symm
    · rw [if_neg h5]
  refine ⟨g, ?_, ?_⟩
  · rw [sdsmapchars, run_bind_of_ok (hs.len_run hb)]
    exact run_bind_of_ok hrun _
  · rw [hcap]
    refine
      { tagged := hs.tagged.congr (hhdr _ (by omega)) (by omega)
        len := by rw [SdsType.lenIn_congr hhdr, hs.len, hlen]
        alloc := by rw [SdsType.allocIn_congr hhdr, hs.alloc]
        len_le := by omega
        room := by omega
        size_lt := by rw [hsize]; exact hs.size_lt
        content := ?_
        term := by rw [hlen, hdata _, if_neg (by omega), hs.term] }
    intro k hk
    rw [hlen] at hk
    rw [hdata _, if_pos (by omega), hs.content k hk, List.getD_eq_getElem _ _ hk,
      List.getD_eq_getElem _ _ (by omega), List.getElem_map]

/-! ## All operations -/

/-- An update of the string's block in place. -/
theorem yields_of_mapBlock {r : Except Halt (Ptr × Mem)} {l : List UInt8} {g : Block → Block}
    (hb : m.blocks i = some b) (hr : r = .ok (handle i v.type, m.mapBlock i g))
    (hs : SdsBlock v.type l (v.setContent l).cap (g b)) : Yields r m i (v.setContent l) :=
  ⟨i, _, hr, ⟨_, Mem.mapBlock_blocks_self hb g, hs⟩, (Mem.Moved.refl m i).mapBlock g⟩

/-- Every operation does what it is for. -/
theorem Op.exec_correct {al : Allocator} (hal : al m.requests.length ≠ none) (hv : v.At m i) (op : Op)
    (hop : op.Valid m i v) :
    Yields ((op.exec al (handle i v.type)).run m) m i (op.apply v) := by
  obtain ⟨b, hb, hs⟩ := hv
  cases op with
  | catlen t l => exact sdscatlen_yields hal ⟨b, hb, hs⟩ hop.1 hop.2.1 hop.2.2
  | catsds j w => exact sdscatsds_yields hal ⟨b, hb, hs⟩ hop.1 hop.2.1 hop.2.2
  | cpylen t l => exact sdscpylen_yields hal ⟨b, hb, hs⟩ hop.1 hop.2.1 hop.2.2
  | growzero len => exact sdsgrowzero_yields hal ⟨b, hb, hs⟩ hop
  | makeRoomFor addlen => exact sdsMakeRoomFor_yields hal ⟨b, hb, hs⟩ hop
  | removeFreeSpace => exact sdsRemoveFreeSpace_yields hal ⟨b, hb, hs⟩
  | trim cset =>
      obtain ⟨g, hrun, hs'⟩ := sdstrim_run hb hs cset
      exact yields_of_mapBlock hb hrun hs'
  | range first last =>
      obtain ⟨⟨hf1, hf2⟩, hl1, hl2⟩ := hop
      obtain ⟨g, hrun, hs'⟩ := sdsrange_run hb hs hf1 hf2 hl1 hl2
      have htype : (Op.apply v (.range first last)).type = v.type := by
        rw [Op.apply]
        split <;> rfl
      refine ⟨i, m.mapBlock i g, ?_, ⟨_, Mem.mapBlock_blocks_self hb g, ?_⟩,
        (Mem.Moved.refl m i).mapBlock g⟩
      · rw [htype]
        exact run_bind_of_ok hrun _
      · rw [htype]
        exact hs'
  | clear =>
      obtain ⟨g, hrun, hs'⟩ := sdsclear_run hb hs
      exact yields_of_mapBlock hb (run_bind_of_ok hrun _) hs'
  | mapchars src dst setlen =>
      obtain ⟨g, hrun, hs'⟩ := sdsmapchars_run hb hs hop.1 hop.2
      exact yields_of_mapBlock hb hrun hs'

end InPlace

end CLanguageLearning.Sds
