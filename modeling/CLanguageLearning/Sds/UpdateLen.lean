import CLanguageLearning.Foundation.CString
import CLanguageLearning.Sds.SplitLen

/-!
# A length that is not stored

`sdsupdatelen` is meant for strings whose bytes have been overwritten by hand: it finds the first
NUL and records its position as the length. The code makes a new string of the bytes in front of
that NUL instead and drops it, so the length stays what it was and the new block is lost.
-/

set_option autoImplicit false

namespace CLanguageLearning.Sds

open CLanguageLearning.Foundation

def sdsupdatelen (al : Allocator) (s : Ptr) : Exec Mem Unit := do
  let reallen ← strlen (.mem s)
  let _ ← sdsnewlen al (.src (.mem s)) reallen

/-- What the function is for: the length of the string in block `i` is `k`, its bytes and its
capacity are as before, and no block is live that was not. -/
structure LengthUpdated (m m' : Mem) (i : Nat) (v : Value) (k : Nat) : Prop where
  string : (v.setContent (v.content.take k)).At m' i
  bytes : ∀ b b', m.blocks i = some b → m'.blocks i = some b' →
    ∀ o, v.type.hdrSize ≤ o → b'.data o = b.data o
  no_leak : ∀ j, m'.blocks j ≠ none → m.blocks j ≠ none

/-- The function does what it is for on the string with value `v` in block `i`. -/
def UpdatesLength (al : Allocator) (m : Mem) (i : Nat) (v : Value) : Prop :=
  ∃ m', (sdsupdatelen al (handle i v.type)).run m = .ok ((), m') ∧
    LengthUpdated m m' i v (upToNul v.content).length

/-! ## The first NUL -/

theorem upToNul_isPrefix (l : List UInt8) : upToNul l <+: l := List.takeWhile_prefix _

theorem zero_notMem_upToNul (l : List UInt8) : 0 ∉ upToNul l := by
  intro h
  have := List.mem_takeWhile_imp h
  simp at this

/-- In front of the terminator the first NUL is in the content or is the terminator. -/
theorem upToNul_terminated_isPrefix (l : List UInt8) : upToNul l ++ [0] <+: l ++ [0] := by
  induction l with
  | nil => exact List.prefix_rfl
  | cons c l ih =>
      unfold upToNul at ih ⊢
      by_cases hc : c = 0
      · subst hc
        rw [List.takeWhile_cons_of_neg (by decide)]
        exact ⟨l ++ [0], rfl⟩
      · rw [List.takeWhile_cons_of_pos (by simpa using hc), List.cons_append, List.cons_append]
        exact (List.prefix_cons_inj c).mpr ih

theorem length_upToNul_eq_iff (l : List UInt8) : (upToNul l).length = l.length ↔ 0 ∉ l := by
  constructor
  · intro h
    rw [← (upToNul_isPrefix l).eq_of_length h]
    exact zero_notMem_upToNul l
  · intro h
    have hall : ∀ c ∈ l, decide (c ≠ 0) = true := by
      intro c hc
      exact decide_eq_true fun h0 => h (h0 ▸ hc)
    rw [upToNul, List.takeWhile_eq_self_iff.mpr hall]

/-! ## The run -/

section Run

variable {al : Allocator} {m : Mem} {i : Nat} {b : Block} {v : Value}

/-- The block of a string of that length exists already, so the length fits. -/
theorem fitsSize_of_le_cap (hs : SdsBlock v.type v.content v.cap b) {k : Nat} (hk : k ≤ v.cap) :
    FitsSize (newType k) k := by
  have hhdr := (newType k).hdrSize_le
  have hroom := hs.room
  have hsize := hs.size_lt
  have hcap := hs.cap_lt
  unfold FitsSize
  by_cases hlong : v.type = .type64
  · rw [hlong] at hroom
    have h17 : SdsType.type64.hdrSize = 17 := rfl
    omega
  · have hlim : v.type.limit ≤ 2 ^ 32 := by
      cases ht : v.type
      case type64 => exact absurd ht hlong
      all_goals decide
    unfold SIZE_COUNT
    omega

/-- The string stays as it is. When the request is granted, a new string of the bytes in front of
the first NUL is left behind. -/
theorem sdsupdatelen_run (hb : m.blocks i = some b) (hs : SdsBlock v.type v.content v.cap b) :
    ∃ m', (sdsupdatelen al (handle i v.type)).run m = .ok ((), m') ∧ m'.blocks i = some b ∧
      (al m.requests.length ≠ none →
        ∃ j, m.blocks j = none ∧ (Value.ofBytes (upToNul v.content)).At m' j) ∧
      (al m.requests.length = none → m'.blocks = m.blocks) := by
  have hsrc := hs.opened.holds hb
  rw [hs.term] at hsrc
  have hlen := strlen_run (Source.Holds.of_prefix hsrc (upToNul_terminated_isPrefix v.content))
    (zero_notMem_upToNul _)
  have hlt := Mem.lt_next hb
  by_cases hal : al m.requests.length = none
  · have hnew := @sdsnewlen_refused al m hal (.src (.mem (handle i v.type)))
      (upToNul v.content).length
    rw [sdsupdatelen, run_bind_of_ok hlen]
    exact ⟨_, run_bind_of_ok hnew _, hb, fun h => absurd hal h, fun _ => rfl⟩
  · have hle : (upToNul v.content).length ≤ v.cap :=
      (upToNul_isPrefix v.content).length_le.trans hs.len_le
    obtain ⟨j, m', hrun, hnew, hmoved⟩ := sdsnewlen_yields hal
      (hsrc.of_prefix ((upToNul_isPrefix v.content).trans (List.prefix_append _ _)))
      (fitsSize_of_le_cap hs hle)
    have hj : m.next ≤ j := by
      rcases hmoved.target with rfl | hj
      · exact Nat.le_refl _
      · exact hj
    refine ⟨m', ?_, ?_, fun _ => ⟨j, m.unused j hj, hnew⟩, fun h => absurd h hal⟩
    · rw [sdsupdatelen, run_bind_of_ok hlen]
      exact run_bind_of_ok hrun _
    · rw [hmoved.keeps i (by omega) hlt, hb]

/-- Setting the content a string has changes nothing: its capacity is that of its type. -/
theorem setContent_self (hs : SdsBlock v.type v.content v.cap b) : v.setContent v.content = v := by
  unfold Value.setContent
  by_cases h5 : v.type = .type5
  · rw [if_pos h5]
    rw [h5] at hs
    rw [← hs.cap_eq_of_type5]
  · rw [if_neg h5]

end Run

/-- The function does what it is for exactly when there is nothing to do: the allocator refuses the
block the function asks for, and no byte below the length is NUL. -/
theorem sdsupdatelen_iff {al : Allocator} {m : Mem} {i : Nat} {v : Value} (hv : v.At m i) :
    UpdatesLength al m i v ↔ al m.requests.length = none ∧ 0 ∉ v.content := by
  obtain ⟨b, hb, hs⟩ := hv
  obtain ⟨m', hrun, hb', hgranted, hrefused⟩ := @sdsupdatelen_run al m i b v hb hs
  constructor
  · rintro ⟨m'', hrun', ⟨⟨b'', hb'', hs''⟩, -, hleak⟩⟩
    rw [hrun, Except.ok.injEq, Prod.mk.injEq] at hrun'
    obtain ⟨-, rfl⟩ := hrun'
    constructor
    · by_contra hal
      obtain ⟨j, hj, b₁, hb₁, -⟩ := hgranted hal
      exact hleak j (by rw [hb₁]; exact Option.some_ne_none b₁) hj
    · -- the length in the header is the old one
      rw [hb', Option.some.injEq] at hb''
      subst hb''
      have hlen := hs''.len
      change v.type.lenIn b = (v.content.take _).length at hlen
      rw [hs.len, List.length_take, min_eq_left (upToNul_isPrefix v.content).length_le] at hlen
      exact (length_upToNul_eq_iff v.content).mp hlen.symm
  · rintro ⟨hal, hzero⟩
    have hsame := hrefused hal
    refine ⟨m', hrun, ?_, ?_, ?_⟩
    · rw [(length_upToNul_eq_iff v.content).mpr hzero, List.take_length, setContent_self hs]
      exact ⟨b, hb', hs⟩
    · intro b₁ b₂ hb₁ hb₂ o _
      rw [hb', Option.some.injEq] at hb₂
      rw [hb, Option.some.injEq] at hb₁
      rw [← hb₁, ← hb₂]
    · intro j hj
      rwa [hsame] at hj

/-- The string `"ab"` after its second byte has been overwritten with NUL. -/
def cutMem : Mem := Mem.empty.grant ⟨6, ([2, 2, 1, 97, 0, 0].getD · 0)⟩

def cutValue : Value := ⟨.type8, [97, 0], 2⟩

theorem cut_at : cutValue.At cutMem 0 :=
  ⟨_, Mem.grant_blocks_next Mem.empty _,
    { tagged := ⟨by decide, by decide⟩, len := by decide, alloc := by decide, len_le := by decide,
      room := by decide, size_lt := by decide, content := by decide, term := by decide }⟩

/-- The equivalence for that string and an allocator that refuses. -/
theorem sdsupdatelen_iff_cut :
    UpdatesLength (fun _ => none) cutMem 0 cutValue ↔
      (fun _ => none : Allocator) cutMem.requests.length = none ∧ 0 ∉ cutValue.content :=
  sdsupdatelen_iff cut_at

/-- With memory to be had the length stays 2, though the first NUL is at index 1, and a block is
lost. -/
theorem length_not_updated :
    cutValue.At cutMem 0 ∧ (upToNul cutValue.content).length = 1 ∧
      ¬ UpdatesLength (fun _ => some fun _ => 0) cutMem 0 cutValue ∧
      ∃ m', (sdsupdatelen (fun _ => some fun _ => 0) (handle 0 .type8)).run cutMem = .ok ((), m') ∧
        outcome ((sdslen (handle 0 .type8)).run m') = .ok 2 ∧
        cutMem.blocks 1 = none ∧ m'.blocks 1 ≠ none := by
  refine ⟨cut_at, by decide, ?_, _, rfl, by rfl, by rfl, by decide⟩
  rintro ⟨m'', hrun, ⟨⟨b, hb, hs⟩, -, -⟩⟩
  obtain ⟨b₀, hb₀, hs₀⟩ := cut_at
  obtain ⟨m', hrun', hb', -⟩ := @sdsupdatelen_run (fun _ => some fun _ => 0) cutMem 0 b₀ cutValue
    hb₀ hs₀
  rw [hrun', Except.ok.injEq, Prod.mk.injEq] at hrun
  obtain ⟨-, rfl⟩ := hrun
  rw [hb', Option.some.injEq] at hb
  subst hb
  have hlen := hs₀.len.symm.trans hs.len
  exact absurd hlen (by decide)

end CLanguageLearning.Sds
