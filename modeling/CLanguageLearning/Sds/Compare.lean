import CLanguageLearning.Sds.Runs

/-!
# Comparing strings

`sdscmp` is meant to compare contents as lists of unsigned bytes, a proper prefix being smaller. It
hands `memcmp` the larger of the two lengths, so that the comparison runs over the end of the
shorter string. With lengths that differ by at most one it gets no further than the terminator,
which is smaller than or equal to every byte, and the result is right; otherwise it depends on bytes
behind the terminator, or leaves the block.
-/

set_option autoImplicit false

namespace CLanguageLearning.Sds

open CLanguageLearning.Foundation

/-! ## The order of contents -/

/-- The sign of `r` tells how `c1` and `c2` compare. -/
structure SignOf (r : Int) (c1 c2 : List UInt8) : Prop where
  neg : r < 0 ↔ c1 < c2
  zero : r = 0 ↔ c1 = c2
  pos : 0 < r ↔ c2 < c1

namespace SignOf

variable {r r' r'' : Int} {c1 c2 c3 : List UInt8}

/-- The three cases exclude each other on both sides, so one direction is enough. -/
theorem of_imp (hneg : r < 0 → c1 < c2) (hzero : r = 0 → c1 = c2) (hpos : 0 < r → c2 < c1) :
    SignOf r c1 c2 := by
  rcases lt_trichotomy r 0 with h | h | h
  · have hlt := hneg h
    refine ⟨iff_of_true h hlt, iff_of_false (by omega) ?_, iff_of_false (by omega) ?_⟩
    · rintro rfl
      exact List.lt_irrefl c1 hlt
    · exact List.lt_asymm hlt
  · obtain rfl := hzero h
    exact ⟨iff_of_false (by omega) (List.lt_irrefl c1), iff_of_true h rfl,
      iff_of_false (by omega) (List.lt_irrefl c1)⟩
  · have hlt := hpos h
    refine ⟨iff_of_false (by omega) (List.lt_asymm hlt), iff_of_false (by omega) ?_,
      iff_of_true h hlt⟩
    rintro rfl
    exact List.lt_irrefl c1 hlt

/-- Results of the two orders of the arguments have opposite signs. -/
theorem antisymm (h : SignOf r c1 c2) (h' : SignOf r' c2 c1) : r < 0 ↔ 0 < r' :=
  h.neg.trans h'.pos.symm

theorem trans (h : SignOf r c1 c2) (h' : SignOf r' c2 c3) (h'' : SignOf r'' c1 c3)
    (hr : r < 0) (hr' : r' < 0) : r'' < 0 :=
  h''.neg.mpr (List.lt_trans (h.neg.mp hr) (h'.neg.mp hr'))

end SignOf

/-- Strings whose bytes agree up to the end of the first are a prefix and its extension. -/
theorem eq_take_of_agree {c1 c2 : List UInt8} (hle : c1.length ≤ c2.length)
    (h : ∀ k, k < c1.length → c1.getD k 0 = c2.getD k 0) : c1 = c2.take c1.length := by
  apply List.ext_getElem (by rw [List.length_take]; omega)
  intro k hk hk'
  have hg := h k hk
  rw [List.getD_eq_getElem _ _ hk, List.getD_eq_getElem _ _ (by omega)] at hg
  rw [List.getElem_take, hg]

/-- A first difference inside both contents decides their order. -/
theorem lt_of_first_diff {c1 c2 : List UInt8} {k : Nat} (h1 : k < c1.length) (h2 : k < c2.length)
    (heq : ∀ j, j < k → c1.getD j 0 = c2.getD j 0) (hlt : c1.getD k 0 < c2.getD k 0) : c1 < c2 := by
  refine List.lt_iff_exists.mpr (Or.inr ⟨k, h1, h2, ?_, ?_⟩)
  · intro j hj
    have hg := heq j hj
    rwa [List.getD_eq_getElem _ _ (by omega), List.getD_eq_getElem _ _ (by omega)] at hg
  · rwa [List.getD_eq_getElem _ _ h1, List.getD_eq_getElem _ _ h2] at hlt

/-- A proper prefix is smaller. -/
theorem lt_of_prefix {c1 c2 : List UInt8} (h : c1.length < c2.length)
    (heq : ∀ k, k < c1.length → c1.getD k 0 = c2.getD k 0) : c1 < c2 :=
  List.lt_iff_exists.mpr (Or.inl ⟨eq_take_of_agree (Nat.le_of_lt h) heq, h⟩)

/-! ## The comparison -/

/-- What `sdscmp` returns from the result of `memcmp` and the two lengths. -/
def cmpResult (cmp : Int) (l1 l2 : Nat) : Int :=
  if cmp = 0 then if l1 > l2 then 1 else if l1 < l2 then -1 else 0 else cmp

section Compare

variable {m : Mem} {i j : Nat} {b d : Block} {T T' : SdsType} {c1 c2 : List UInt8} {cap cap' : Nat}

theorem sdscmp_run (hb : m.blocks i = some b) (hs : SdsBlock T c1 cap b) (hd : m.blocks j = some d)
    (hs' : SdsBlock T' c2 cap' d) :
    (sdscmp (handle i T) (handle j T')).run m =
      (do
        let cmp ← memcmp (handle i T) (handle j T') (max c1.length c2.length)
        return cmpResult cmp c1.length c2.length : Exec Mem Int).run m := by
  have hmax : (if c1.length > c2.length then c1.length else c2.length) =
      max c1.length c2.length := by
    split <;> omega
  rw [sdscmp, run_bind_of_ok (hs.len_run hb)]
  apply (run_bind_of_ok (hs'.len_run hd) _).trans
  rw [hmax]
  show StateT.run (_ >>= _) m = StateT.run (_ >>= _) m
  congr 2
  funext cmp
  unfold cmpResult
  split <;> rfl

/-- The byte at position `k` of a string, up to and including the terminator. -/
theorem SdsBlock.data_eq (hs : SdsBlock T c1 cap b) {k : Nat} (hk : k ≤ c1.length) :
    b.data (T.hdrSize + k) = c1.getD k 0 := by
  rcases Nat.lt_or_eq_of_le hk with hlt | rfl
  · exact hs.content k hlt
  · rw [hs.term, List.getD_eq_default _ _ (Nat.le_refl _)]

/-- No byte is smaller than the terminator. -/
theorem not_lt_zero (x : UInt8) : ¬ x < 0 := by
  rw [UInt8.lt_iff_toNat_lt]
  exact Nat.not_lt_zero _

/-- With lengths that differ by at most one the first difference found, in the contents or at the
terminator of the shorter string, decides the order. -/
theorem lt_of_diff {f g : Nat → UInt8} {k : Nat} (h12 : c1.length ≤ c2.length + 1)
    (h21 : c2.length ≤ c1.length + 1) (hf : ∀ k, k ≤ c1.length → f k = c1.getD k 0)
    (hg : ∀ k, k ≤ c2.length → g k = c2.getD k 0) (hk : k < max c1.length c2.length)
    (heq : ∀ j, j < k → f j = g j) (hlt : f k < g k) : c1 < c2 := by
  have heq' : ∀ j, j < k → c1.getD j 0 = c2.getD j 0 := by
    intro j hj
    rw [← hf j (by omega), ← hg j (by omega), heq j hj]
  rw [hf k (by omega), hg k (by omega)] at hlt
  by_cases h1 : k < c1.length
  · by_cases h2 : k < c2.length
    · exact lt_of_first_diff h1 h2 heq' hlt
    · rw [List.getD_eq_default c2 _ (by omega)] at hlt
      exact absurd hlt (not_lt_zero _)
  · exact lt_of_prefix (by omega) fun j hj => heq' j (by omega)

/-- With lengths that differ by at most one the result has the sign of the order. -/
theorem signOf_cmpResult {f g : Nat → UInt8} (h12 : c1.length ≤ c2.length + 1)
    (h21 : c2.length ≤ c1.length + 1) (hf : ∀ k, k ≤ c1.length → f k = c1.getD k 0)
    (hg : ∀ k, k ≤ c2.length → g k = c2.getD k 0) :
    SignOf (cmpResult (compareBytes f g (max c1.length c2.length)) c1.length c2.length) c1 c2 := by
  rcases compareBytes_cases f g (max c1.length c2.length) with
    ⟨hr, heq⟩ | ⟨hr, k, hk, heq, hlt⟩ | ⟨hr, k, hk, heq, hlt⟩
  · -- nothing differs: the lengths decide
    have heq' : ∀ k, k < max c1.length c2.length → c1.getD k 0 = c2.getD k 0 := by
      intro k hk
      rw [← hf k (by omega), ← hg k (by omega), heq k hk]
    rw [cmpResult, if_pos hr]
    rcases Nat.lt_trichotomy c1.length c2.length with h | h | h
    · rw [if_neg (by omega), if_pos h]
      have hlt := lt_of_prefix h fun k hk => heq' k (by omega)
      exact SignOf.of_imp (fun _ => hlt) (by omega) (by omega)
    · rw [if_neg (by omega), if_neg (by omega)]
      have htake := eq_take_of_agree (Nat.le_of_eq h) fun k hk => heq' k (by omega)
      rw [h, List.take_length] at htake
      exact SignOf.of_imp (by omega) (fun _ => htake) (by omega)
    · rw [if_pos h]
      have hlt := lt_of_prefix h fun k hk => (heq' k (by omega)).symm
      exact SignOf.of_imp (by omega) (by omega) (fun _ => hlt)
  · rw [cmpResult, if_neg (by omega)]
    have h := lt_of_diff h12 h21 hf hg hk heq hlt
    exact SignOf.of_imp (fun _ => h) (by omega) (by omega)
  · rw [cmpResult, if_neg (by omega)]
    have h := lt_of_diff h21 h12 hg hf (by omega) (fun j hj => (heq j hj).symm) hlt
    exact SignOf.of_imp (by omega) (by omega) (fun _ => h)

theorem sdscmp_run_near (hb : m.blocks i = some b) (hs : SdsBlock T c1 cap b)
    (hd : m.blocks j = some d) (hs' : SdsBlock T' c2 cap' d) (h12 : c1.length ≤ c2.length + 1)
    (h21 : c2.length ≤ c1.length + 1) :
    ∃ r, (sdscmp (handle i T) (handle j T')).run m = .ok (r, m) ∧ SignOf r c1 c2 := by
  have hle := hs.len_le
  have hroom := hs.room
  have hle' := hs'.len_le
  have hroom' := hs'.room
  have hcmp := memcmp_run (n := max c1.length c2.length) (p := T.hdrSize) (q := T'.hdrSize) hb hd
    (by omega) (by omega)
  refine ⟨_, ?_, signOf_cmpResult h12 h21 (fun k hk => hs.data_eq hk) (fun k hk => hs'.data_eq hk)⟩
  rw [sdscmp_run hb hs hd hs']
  exact run_bind_of_ok hcmp _

/-- A string without spare capacity is left by a comparison with one longer by two or more. -/
theorem sdscmp_run_far (hb : m.blocks i = some b) (hs : SdsBlock T c1 cap b)
    (hd : m.blocks j = some d) (hs' : SdsBlock T' c2 cap' d)
    (hsize : b.size = T.hdrSize + c1.length + 1) (hsize' : d.size = T'.hdrSize + c2.length + 1)
    (h : c1.length + 1 < c2.length ∨ c2.length + 1 < c1.length) :
    (sdscmp (handle i T) (handle j T')).run m = .error .undefined := by
  have hcmp := memcmp_run_outside (n := max c1.length c2.length) (p := T.hdrSize)
    (q := T'.hdrSize) hb hd (by omega)
  rw [sdscmp_run hb hs hd hs']
  exact run_bind_of_error hcmp _

end Compare

/-! ## When `sdscmp` compares contents -/

/-- `sdscmp` compares the contents `c1` and `c2`: for all strings with these contents, whatever
their headers, capacities and spare bytes, it reads what belongs to them only and returns a number
with the sign of the lexicographic order. -/
def ComparesContents (c1 c2 : List UInt8) : Prop :=
  ∀ (m : Mem) (i j : Nat) (T T' : SdsType) (cap cap' : Nat),
    SdsAt m i T c1 cap → SdsAt m j T' c2 cap' →
      ∃ r, (sdscmp (handle i T) (handle j T')).run m = .ok (r, m) ∧ SignOf r c1 c2

/-- Where contents are compared the results are those of an order: opposite for swapped arguments,
and transitive. -/
theorem ComparesContents.order {m : Mem} {i j k : Nat} {v w x : Value} (hvw : ComparesContents
    v.content w.content) (hwv : ComparesContents w.content v.content)
    (hwx : ComparesContents w.content x.content) (hvx : ComparesContents v.content x.content)
    (hv : v.At m i) (hw : w.At m j) (hx : x.At m k) :
    ∃ r r' r₁ r₂, (sdscmp (handle i v.type) (handle j w.type)).run m = .ok (r, m) ∧
      (sdscmp (handle j w.type) (handle i v.type)).run m = .ok (r', m) ∧
      (sdscmp (handle j w.type) (handle k x.type)).run m = .ok (r₁, m) ∧
      (sdscmp (handle i v.type) (handle k x.type)).run m = .ok (r₂, m) ∧
      (r < 0 ↔ 0 < r') ∧ (r < 0 → r₁ < 0 → r₂ < 0) := by
  obtain ⟨r, hr, hs⟩ := hvw m i j _ _ _ _ hv hw
  obtain ⟨r', hr', hs'⟩ := hwv m j i _ _ _ _ hw hv
  obtain ⟨r₁, hr₁, hs₁⟩ := hwx m j k _ _ _ _ hw hx
  obtain ⟨r₂, hr₂, hs₂⟩ := hvx m i k _ _ _ _ hv hx
  exact ⟨r, r', r₁, r₂, hr, hr', hr₁, hr₂, hs.antisymm hs', hs.trans hs₁ hs₂⟩

/-- Two strings without spare capacity. -/
def exactPair (c1 c2 : List UInt8) : Mem :=
  (Mem.empty.grant (newBlock (newType c1.length) c1.length (c1.getD · 0) fun _ => 0)).grant
    (newBlock (newType c2.length) c2.length (c2.getD · 0) fun _ => 0)

/-- `sdscmp` compares two contents exactly when their lengths differ by at most one. Contents from
the size limit on have no representation and are left out. -/
theorem comparesContents_iff (c1 c2 : List UInt8) (h1 : FitsSize (newType c1.length) c1.length)
    (h2 : FitsSize (newType c2.length) c2.length) :
    ComparesContents c1 c2 ↔ c1.length ≤ c2.length + 1 ∧ c2.length ≤ c1.length + 1 := by
  constructor
  · intro h
    have hs := newBlock_sds (f := (c1.getD · 0)) (fun _ => 0) (lt_limit_newType h1.lt) h1
      fun _ _ => rfl
    have hs' := newBlock_sds (f := (c2.getD · 0)) (fun _ => 0) (lt_limit_newType h2.lt) h2
      fun _ _ => rfl
    have hb0 := Mem.grant_blocks_next Mem.empty
      (newBlock (newType c1.length) c1.length (c1.getD · 0) fun _ => 0)
    have hb : (exactPair c1 c2).blocks 0 = some _ := Mem.grant_blocks_of_some hb0 _
    have hd : (exactPair c1 c2).blocks 1 = some _ := Mem.grant_blocks_next _ _
    obtain ⟨r, hrun, -⟩ := h (exactPair c1 c2) 0 1 _ _ _ _ ⟨_, hb, hs⟩ ⟨_, hd, hs'⟩
    by_contra hfar
    have herr := sdscmp_run_far hb hs hd hs' (newBlock_size _ _ _ _) (newBlock_size _ _ _ _)
      (by omega)
    rw [herr] at hrun
    cases hrun
  · rintro ⟨h12, h21⟩ m i j T T' cap cap' ⟨b, hb, hs⟩ ⟨d, hd, hs'⟩
    exact sdscmp_run_near hb hs hd hs' h12 h21

/-- Two contents of lengths 3 and 2. -/
theorem comparesContents_iff_near :
    ComparesContents [97, 0, 98] [97, 0] ↔
      [97, 0, 98].length ≤ [97, 0].length + 1 ∧ [97, 0].length ≤ [97, 0, 98].length + 1 :=
  comparesContents_iff [97, 0, 98] [97, 0] (by decide) (by decide)

/-- A string `"a"` that was `"a\0c"` before, and the string `"a\0b"`. -/
def staleMem : Mem :=
  (Mem.empty.grant ⟨7, ([1, 3, 1, 97, 0, 99, 0].getD · 0)⟩).grant
    ⟨7, ([3, 3, 1, 97, 0, 98, 0].getD · 0)⟩

theorem stale_sds : SdsAt staleMem 0 .type8 [97] 3 :=
  ⟨_, Mem.grant_blocks_of_some (Mem.grant_blocks_next Mem.empty _) _,
    { tagged := ⟨by decide, by decide⟩, len := by decide, alloc := by decide, len_le := by decide,
      room := by decide, size_lt := by decide, content := by decide, term := by decide }⟩

theorem other_sds : SdsAt staleMem 1 .type8 [97, 0, 98] 3 :=
  ⟨_, Mem.grant_blocks_next _ _,
    { tagged := ⟨by decide, by decide⟩, len := by decide, alloc := by decide, len_le := by decide,
      room := by decide, size_lt := by decide, content := by decide, term := by decide }⟩

/-- `"a"` is a prefix of `"a\0b"`, but a byte behind its terminator makes it compare as greater. -/
theorem sdscmp_reads_stale_byte :
    outcome ((sdscmp (handle 0 .type8) (handle 1 .type8)).run staleMem) = .ok 1 ∧
      ([97] : List UInt8) < [97, 0, 98] ∧ ¬ ComparesContents [97] [97, 0, 98] := by
  have hrun : outcome ((sdscmp (handle 0 .type8) (handle 1 .type8)).run staleMem) = .ok 1 := by rfl
  have hlt : ([97] : List UInt8) < [97, 0, 98] := by decide
  refine ⟨hrun, hlt, ?_⟩
  intro h
  obtain ⟨r, hr, hs⟩ := h staleMem 0 1 _ _ _ _ stale_sds other_sds
  rw [hr, outcome_ok, Except.ok.injEq] at hrun
  have hneg := hs.neg.mpr hlt
  omega

end CLanguageLearning.Sds
