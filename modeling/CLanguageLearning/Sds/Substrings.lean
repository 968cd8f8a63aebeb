import CLanguageLearning.Sds.InPlace

/-!
# Parts of a string

`sdsrange` keeps the bytes whose positions lie between its two ends, in order, for every pair of
ends a `ssize_t` can hold. `sdstrim` keeps what is left when the trimmable bytes are taken off both
ends; its loops read the content and nothing else, the byte in front of an empty string included,
and trimming again changes nothing.
-/

set_option autoImplicit false

namespace CLanguageLearning.Sds

open CLanguageLearning.Foundation

/-! ## Ranges -/

/-- The position an end of a range stands for. -/
def fromEnd (len : Nat) (x : Int) : Int := if 0 ≤ x then x else max 0 (len + x)

/-- The bytes at the positions `p` with `a ≤ p ≤ b`, in order. -/
def bytesBetween (l : List UInt8) (a b : Int) : List UInt8 :=
  ((List.range l.length).filter fun p : Nat => a ≤ p ∧ p ≤ b).map fun p => l.getD p 0

/-- The bytes from the position `first` stands for to the one `last` stands for. -/
def rangeContent (l : List UInt8) (first last : Int) : List UInt8 :=
  bytesBetween l (fromEnd l.length first) (fromEnd l.length last)

theorem sliceIndex_eq_fromEnd (len : Nat) (x : Int) : (sliceIndex len x : Int) = fromEnd len x := by
  unfold sliceIndex fromEnd
  by_cases hx : x < 0
  · rw [if_pos hx, if_neg (by omega)]
    omega
  · rw [if_neg hx, if_pos (by omega)]
    omega

/-- The positions from `a` to `b` below `n` are consecutive. -/
theorem filter_range_between (a b n : Nat) :
    ((List.range n).filter fun p => a ≤ p ∧ p ≤ b) = List.range' a (min (b + 1) n - a) := by
  induction n with
  | zero => simp
  | succ n ih =>
      rw [List.range_succ, List.filter_append, ih]
      by_cases hin : a ≤ n ∧ n ≤ b
      · have hlen : min (b + 1) (n + 1) - a = (min (b + 1) n - a) + 1 := by omega
        have hlast : a + 1 * (min (b + 1) n - a) = n := by omega
        rw [hlen, List.range'_concat, hlast, List.filter_cons_of_pos (by simpa using hin),
          List.filter_nil]
      · have hlen : min (b + 1) (n + 1) - a = min (b + 1) n - a := by omega
        rw [hlen, List.filter_cons_of_neg (by simpa using hin), List.filter_nil, List.append_nil]

/-- The slice holds the bytes at the positions between the two ends. -/
theorem sliceContent_eq_rangeContent {l : List UInt8} (h : l.length < 2 ^ 63) (first last : Int) :
    sliceContent l first last = rangeContent l first last := by
  have hpos : ((List.range l.length).filter fun p : Nat =>
      fromEnd l.length first ≤ p ∧ p ≤ fromEnd l.length last) =
      List.range' (sliceIndex l.length first)
        (min (sliceIndex l.length last + 1) l.length - sliceIndex l.length first) := by
    rw [← filter_range_between]
    refine List.filter_congr fun p _ => ?_
    simp only [← sliceIndex_eq_fromEnd, Nat.cast_le]
  rw [rangeContent, bytesBetween, hpos]
  apply List.ext_getElem
  · rw [sliceContent_length l first last h, List.length_map, List.length_range']
  · intro k hk _
    rw [List.getElem_map, List.getElem_range', Nat.one_mul,
      ← getD_sliceContent hk, List.getD_eq_getElem _ _ hk]

/-- Afterwards the string holds the bytes between the two ends and has the capacity it had; an empty
string is not touched. -/
theorem sdsrange_selects {m : Mem} {i : Nat} {v : Value} {first last : Int} (hv : v.At m i)
    (hlen : v.content.length < 2 ^ 63) (hf1 : -2 ^ 63 ≤ first) (hf2 : first < 2 ^ 63)
    (hl1 : -2 ^ 63 ≤ last) (hl2 : last < 2 ^ 63) :
    ∃ m', (sdsrange (handle i v.type) first last).run m = .ok ((), m') ∧
      (v.setContent (rangeContent v.content first last)).At m' i ∧
      (v.type ≠ .type5 → (v.setContent (rangeContent v.content first last)).cap = v.cap) ∧
      (v.content = [] → m' = m) ∧ ∀ j, j ≠ i → m'.blocks j = m.blocks j := by
  obtain ⟨b, hb, hs⟩ := hv
  obtain ⟨g, hrun, hs'⟩ := sdsrange_run hb hs hf1 hf2 hl1 hl2
  rw [← sliceContent_eq_rangeContent hlen]
  refine ⟨_, hrun, ?_, fun h5 => if_neg h5, ?_, fun j hj => Mem.mapBlock_blocks_of_ne hj g⟩
  · refine ⟨_, Mem.mapBlock_blocks_self hb g, ?_⟩
    by_cases hnil : v.content = []
    · -- an empty string of type 5 has no capacity either
      have hslice : sliceContent v.content first last = v.content := by
        rw [hnil, sliceContent, List.take_nil, List.drop_nil, ite_self]
      have hcap : (v.setContent v.content).cap = v.cap := by
        show (if v.type = .type5 then v.content.length else v.cap) = v.cap
        by_cases h5 : v.type = .type5
        · rw [if_pos h5]
          rw [h5] at hs
          exact hs.cap_eq_of_type5.symm
        · rw [if_neg h5]
      rw [hslice, hcap]
      rw [if_pos hnil] at hs'
      exact hs'
    · rw [if_neg hnil] at hs'
      exact hs'
  · intro hnil
    have hzero : v.content.length = 0 := by rw [hnil, List.length_nil]
    rw [sdsrange, run_bind_of_ok (hs.len_run hb), if_pos hzero] at hrun
    simpa using hrun.symm

/-- The string `" a  "`, with room for one byte more. -/
def paddedBlock : Block := ⟨9, ([4, 5, 1, 32, 97, 32, 32, 0, 0].getD · 0)⟩

def paddedMem : Mem := Mem.empty.grant paddedBlock

def paddedValue : Value := ⟨.type8, [32, 97, 32, 32], 5⟩

theorem padded_at : paddedValue.At paddedMem 0 :=
  ⟨paddedBlock, Mem.grant_blocks_next Mem.empty _,
    { tagged := ⟨by decide, by decide⟩, len := by decide, alloc := by decide, len_le := by decide,
      room := by decide, size_lt := by decide, content := by decide, term := by decide }⟩

/-- The range from the second byte to the last but one. -/
theorem sdsrange_selects_middle :
    ∃ m', (sdsrange (handle 0 .type8) 1 (-2)).run paddedMem = .ok ((), m') ∧
      (paddedValue.setContent [97, 32]).At m' 0 ∧
      (SdsType.type8 ≠ .type5 → (paddedValue.setContent [97, 32]).cap = 5) ∧
      (paddedValue.content = [] → m' = paddedMem) ∧ ∀ j, j ≠ 0 → m'.blocks j = paddedMem.blocks j :=
  sdsrange_selects padded_at (by decide) (by decide) (by decide) (by decide) (by decide)

/-! ## Trimming -/

/-- Nothing in front of what is left of a string is trimmable. -/
theorem dropWhile_trimContent (cset l : List UInt8) :
    (trimContent cset l).dropWhile (strchr cset) = trimContent cset l := by
  unfold trimContent
  cases hr : (l.dropWhile (strchr cset)).rdropWhile (strchr cset) with
  | nil => rfl
  | cons x t =>
      -- the first byte left is the first one the front was not trimmed of
      have hx : (l.dropWhile (strchr cset)).head? = some x := by
        obtain ⟨u, hu⟩ := List.rdropWhile_prefix (strchr cset) (l.dropWhile (strchr cset))
        rw [← hu, hr]
        rfl
      have hstay : strchr cset x = false := by
        have := List.head?_dropWhile_not (strchr cset) l
        rw [hx] at this
        simpa using this
      apply List.dropWhile_cons_of_neg
      simp [hstay]

theorem trimContent_idempotent (cset l : List UInt8) :
    trimContent cset (trimContent cset l) = trimContent cset l := by
  conv_lhs => rw [trimContent, dropWhile_trimContent]
  exact List.rdropWhile_idempotent _ _

theorem trimContent_of_all {cset l : List UInt8} (h : ∀ c ∈ l, strchr cset c = true) :
    trimContent cset l = [] := by
  rw [trimContent, List.dropWhile_eq_nil_iff.mpr h, List.rdropWhile_nil]

/-- A load that faults outside the offsets from `lo` up to `hi` of block `i`. -/
def load8Within (i lo hi : Nat) (p : Ptr) : Exec Mem UInt8 :=
  if p.block = some i ∧ lo ≤ p.off ∧ p.off < hi then load8 p else throw .undefined

theorem Finds.within {m : Mem} {i o : Nat} {l : List UInt8} (h : Finds load8 m i o l) :
    Finds (load8Within i o (o + l.length)) m i o l := by
  intro k hk
  rw [load8Within, if_pos ⟨rfl, Nat.le_add_right _ _, by show o + k < _; omega⟩]
  exact h k hk

/-- The string is what trimming leaves, also when loads outside the old content would fault; a
second trimming changes nothing. -/
theorem sdstrim_trims {m : Mem} {i : Nat} {v : Value} (hv : v.At m i) (cset : List UInt8) :
    ∃ m', (sdstrim (handle i v.type) cset).run m = .ok (handle i v.type, m') ∧
      (sdstrimBy (load8Within i v.type.hdrSize (v.type.hdrSize + v.content.length))
        (handle i v.type) cset).run m = .ok (handle i v.type, m') ∧
      (v.setContent (trimContent cset v.content)).At m' i ∧
      ((∀ c ∈ v.content, strchr cset c = true) → trimContent cset v.content = []) ∧
      (∀ j, j ≠ i → m'.blocks j = m.blocks j) ∧
      ∃ m'', (sdstrim (handle i v.type) cset).run m' = .ok (handle i v.type, m'') ∧
        (v.setContent (trimContent cset v.content)).At m'' i := by
  obtain ⟨b, hb, hs⟩ := hv
  obtain ⟨g, hrun, hs'⟩ := sdstrimBy_run hb hs cset
  have hfinds := finds_content hb hs
  have hb' := Mem.mapBlock_blocks_self hb g
  obtain ⟨g', hrun', hs''⟩ := sdstrim_run (v := v.setContent (trimContent cset v.content)) hb' hs'
    cset
  refine ⟨_, ?_, hrun _ hfinds.within, ⟨_, hb', hs'⟩, trimContent_of_all,
    fun j hj => Mem.mapBlock_blocks_of_ne hj g, _, hrun', _, Mem.mapBlock_blocks_self hb' g', ?_⟩
  · rw [← sdstrimBy_load8]
    exact hrun _ hfinds
  · have hagain : (v.setContent (trimContent cset v.content)).setContent
        (trimContent cset (trimContent cset v.content)) =
        v.setContent (trimContent cset v.content) := by
      rw [trimContent_idempotent]
      unfold Value.setContent
      dsimp only
      split <;> rfl
    have hcont : trimContent cset (v.setContent (trimContent cset v.content)).content =
        trimContent cset v.content := trimContent_idempotent cset v.content
    rw [← hagain] at hcont ⊢
    exact hs''

/-- Blanks are trimmed off both ends. -/
theorem sdstrim_trims_blanks :
    ∃ m', (sdstrim (handle 0 .type8) [32]).run paddedMem = .ok (handle 0 .type8, m') ∧
      (sdstrimBy (load8Within 0 3 (3 + 4)) (handle 0 .type8) [32]).run paddedMem =
        .ok (handle 0 .type8, m') ∧
      (paddedValue.setContent [97]).At m' 0 ∧
      ((∀ c ∈ paddedValue.content, strchr [32] c = true) →
        trimContent [32] paddedValue.content = []) ∧
      (∀ j, j ≠ 0 → m'.blocks j = paddedMem.blocks j) ∧
      ∃ m'', (sdstrim (handle 0 .type8) [32]).run m' = .ok (handle 0 .type8, m'') ∧
        (paddedValue.setContent [97]).At m'' 0 :=
  sdstrim_trims padded_at [32]

end CLanguageLearning.Sds
