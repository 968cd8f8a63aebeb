import CLanguageLearning.Sds.Value

/-!
# The operations do what they are for

For an allocator that grants every request, each function of `sds.c` run on a well-formed string
with valid arguments returns a well-formed string with the value `Op.apply` names, in the same block
or a new one, and changes no other block (`Op.exec_correct`). Functions that write in place are
described by the update of the block they make.
-/

set_option autoImplicit false

namespace CLanguageLearning.Sds

open CLanguageLearning.Foundation

/-- The run returns a string with value `v`, moved from block `i`, and nothing else has changed. -/
def Yields (r : Except Halt (Ptr × Mem)) (m : Mem) (i : Nat) (v : Value) : Prop :=
  ∃ j m', r = .ok (handle j v.type, m') ∧ v.At m' j ∧ m.Moved m' i j

/-! ## Room -/

section Room

variable {al : Allocator} {m : Mem} {i : Nat} {v : Value} {n : Nat}

/-- The string may be one that is being written: the byte behind the content is kept. -/
theorem sdsMakeRoomFor_open {b : Block} (hal : al m.requests.length ≠ none)
    (hb : m.blocks i = some b) (hs : OpenBlock v.type v.content v.cap b) (hfit : v.RoomFits n) :
    ∃ j m' b', (sdsMakeRoomFor al (handle i v.type) n).run m =
        .ok (handle j (v.makeRoom n).type, m') ∧ m'.blocks j = some b' ∧
      OpenBlock (v.makeRoom n).type v.content (v.makeRoom n).cap b' ∧
      b'.data ((v.makeRoom n).type.hdrSize + v.content.length) =
        b.data (v.type.hdrSize + v.content.length) ∧ m.Moved m' i j := by
  by_cases h : n ≤ v.cap - v.content.length
  · have hval : v.makeRoom n = v := if_pos h
    rw [sdsMakeRoomFor_run_enough al hb hs h, hval]
    exact ⟨i, m, b, rfl, hb, hs, rfl, Mem.Moved.refl m i⟩
  · have hval : v.makeRoom n = ⟨growType (prealloc (v.content.length + n)), v.content,
        prealloc (v.content.length + n)⟩ := if_neg h
    have hf := hfit (by omega)
    obtain ⟨junk, hjunk⟩ := Option.ne_none_iff_exists'.mp hal
    -- nothing wraps, so the assertion passes
    have hle := le_prealloc (v.content.length + n)
    have hreq : sizeT (v.content.length + n) = v.content.length + n :=
      Nat.mod_eq_of_lt (Nat.lt_of_le_of_lt hle hf.lt)
    have hrun := sdsMakeRoomFor_run_grow al hb hs
      (by omega : v.cap - v.content.length < n) (by rw [hreq]; exact hf)
    rw [hreq] at hrun
    rw [hrun, hval]
    have hlim := lt_limit_growType hf.lt
    by_cases hT : v.type = growType (prealloc (v.content.length + n))
    · -- the header type stays: the block is reallocated
      rw [if_pos hT]
      rw [← hT] at hf hlim ⊢
      have h5 : v.type ≠ .type5 := by
        rw [hT]
        exact growType_ne_type5 _
      rw [growInPlace_run_granted hb hs.tagged (by omega) hf hjunk]
      exact ⟨m.next, _, _, rfl, reallocated_blocks_next hb _ junk,
        hs.resize h5 (by omega) hlim hf junk, hs.resize_data (by omega) junk (Nat.le_refl _),
        reallocated_moved hb _ junk⟩
    · -- a larger header: the string moves to a new block
      rw [if_neg hT]
      obtain ⟨m', b', hrun, hb', -, hs', hlast, hmoved⟩ :=
        moveString_run_open al hb hs (by omega) hlim hf
        (fun h5 => absurd h5 (growType_ne_type5 _)) hjunk
      exact ⟨m.next, m', b', hrun, hb', hs', hlast, hmoved⟩

theorem sdsMakeRoomFor_yields (hal : al m.requests.length ≠ none) (hv : v.At m i)
    (hfit : v.RoomFits n) :
    Yields ((sdsMakeRoomFor al (handle i v.type) n).run m) m i (v.makeRoom n) := by
  obtain ⟨b, hb, hs⟩ := hv
  obtain ⟨j, m', b', hrun, hb', ho, hlast, hmoved⟩ := sdsMakeRoomFor_open hal hb hs.opened hfit
  refine ⟨j, m', hrun, ⟨b', hb', ?_⟩, hmoved⟩
  rw [Value.makeRoom_content]
  exact ho.closed (by rw [hlast, hs.term])

theorem sdsRemoveFreeSpace_yields (hal : al m.requests.length ≠ none) (hv : v.At m i) :
    Yields ((sdsRemoveFreeSpace al (handle i v.type)).run m) m i v.removeFree := by
  obtain ⟨b, hb, hs⟩ := hv
  by_cases h : v.cap = v.content.length
  · have hval : v.removeFree = v := if_pos h
    rw [sdsRemoveFreeSpace_run_full hb hs h, hval]
    exact ⟨i, m, rfl, ⟨b, hb, hs⟩, Mem.Moved.refl m i⟩
  · have hle := hs.len_le
    have hroom := hs.room
    have hsize := hs.size_lt
    have hcap := hs.cap_lt
    obtain ⟨junk, hjunk⟩ := Option.ne_none_iff_exists'.mp hal
    rw [sdsRemoveFreeSpace_run_spare al hb hs (by omega)]
    by_cases hT : v.type = sdsReqType v.content.length ∨
        (sdsReqType v.content.length).code > SdsType.type8.code
    · have hval : v.removeFree = ⟨v.type, v.content, v.content.length⟩ := by
        rw [Value.removeFree, if_neg h, if_pos hT]
      -- a type 5 string has no free space
      have h5 : v.type ≠ .type5 := by
        intro he
        rw [he] at hs
        exact h hs.cap_eq_of_type5
      have hf : FitsSize v.type v.content.length := by
        unfold FitsSize
        omega
      rw [if_pos hT, shrinkInPlace_run_granted hb hs.tagged hf hjunk, hval]
      exact ⟨m.next, _, rfl,
        ⟨_, reallocated_blocks_next hb _ junk,
          hs.resize h5 (Nat.le_refl _) (by omega) hf junk⟩,
        reallocated_moved hb _ junk⟩
    · have hval : v.removeFree = ⟨sdsReqType v.content.length, v.content, v.content.length⟩ := by
        rw [Value.removeFree, if_neg h, if_neg hT]
      have hlim : v.content.length < (sdsReqType v.content.length).limit :=
        lt_limit_sdsReqType (by omega)
      have hf : FitsSize (sdsReqType v.content.length) v.content.length := by
        have hlen : v.content.length < 2 ^ 16 := by
          have hcode : ¬ (sdsReqType v.content.length).code > SdsType.type8.code :=
            fun hgt => hT (Or.inr hgt)
          apply Nat.lt_of_lt_of_le hlim
          revert hcode
          cases sdsReqType v.content.length <;> decide
        have hh := (sdsReqType v.content.length).hdrSize_le
        unfold FitsSize SIZE_COUNT
        omega
      rw [if_neg hT, hval]
      obtain ⟨m', b', hrun, hb', -, hs', hmoved⟩ := moveString_run_granted al hb hs (Nat.le_refl _)
        hlim hf (fun _ => rfl) hjunk
      exact ⟨m.next, m', hrun, ⟨b', hb', hs'⟩, hmoved⟩

end Room

/-! ## Copying -/

section Copy

variable {al : Allocator} {m : Mem} {i : Nat} {v : Value} {t : Source} {l : List UInt8}

theorem sdscatlen_yields (hal : al m.requests.length ≠ none) (hv : v.At m i) (ht : t.Holds m l)
    (hav : t.Avoids i) (hfit : v.RoomFits l.length) :
    Yields ((sdscatlen al (handle i v.type) t l.length).run m) m i
      ((v.makeRoom l.length).setContent (v.content ++ l)) := by
  obtain ⟨b, hb, hs⟩ := hv
  obtain ⟨j, m1, hmake, ⟨b1, hb1, hs1⟩, hmoved⟩ := sdsMakeRoomFor_yields hal ⟨b, hb, hs⟩ hfit
  obtain ⟨ht1, hav1⟩ := ht.moved hav hmoved
  have hcap := v.le_cap_makeRoom l.length hs.len_le
  rw [Value.makeRoom_content] at hs1
  generalize v.makeRoom l.length = w at *
  have hroom := hs1.room
  have hsize := hs1.size_lt
  have hsum : sizeT (v.content.length + l.length) = v.content.length + l.length :=
    Nat.mod_eq_of_lt (by omega)
  have hlen : (v.content ++ l).length = v.content.length + l.length := List.length_append
  obtain ⟨f, hcpy, hf⟩ := memcpy_run (o := w.type.hdrSize + v.content.length) hb1 (by omega) ht1
    hav1
  have hb2 := Mem.mapBlock_blocks_self hb1 fun b =>
    b.patch (w.type.hdrSize + v.content.length) l.length f
  have hset := sdssetlen_run hb2 (hs1.tagged.patch (by omega) f) (v.content.length + l.length)
  have hb3 := Mem.mapBlock_blocks_self hb2 (w.type.withLen (v.content.length + l.length))
  have hst := store8_run (o := w.type.hdrSize + (v.content.length + l.length)) hb3
    (by rw [SdsType.withLen_size, Block.patch_size]; omega) 0
  have hb4 := Mem.mapBlock_blocks_self hb3 fun b =>
    b.patch (w.type.hdrSize + (v.content.length + l.length)) 1 fun _ => 0
  refine ⟨j, _, ?_, ⟨_, hb4, ?_⟩, ((hmoved.mapBlock _).mapBlock _).mapBlock _⟩
  · rw [sdscatlen, run_bind_of_ok (hs.len_run hb), run_bind_of_ok hmake,
      if_neg (handle_ne_null _ _), hsum]
    apply (run_bind_of_ok hcpy _).trans
    apply (run_bind_of_ok hset _).trans
    exact run_bind_of_ok hst _
  · show SdsBlock w.type (v.content ++ l)
      (if w.type = .type5 then (v.content ++ l).length else w.cap) _
    rw [SdsType.withLen_patch _ (by omega), ← hlen]
    refine hs1.terminated (by omega) rfl (fun k hk => Block.patch_data_of_lt (by omega)) ?_
    intro k hk
    by_cases hkc : k < v.content.length
    · rw [Block.patch_data_of_lt (by omega), hs1.content k hkc, List.getD_append _ _ _ _ hkc]
    · obtain ⟨d, rfl⟩ : ∃ d, k = v.content.length + d := ⟨k - v.content.length, by omega⟩
      rw [← Nat.add_assoc, Block.patch_data_add (by omega), hf d (by omega),
        List.getD_append_right _ _ _ _ (by omega), Nat.add_sub_cancel_left]

theorem sdscatsds_yields {j : Nat} {w : Value} (hal : al m.requests.length ≠ none) (hv : v.At m i)
    (hw : w.At m j) (hne : j ≠ i) (hfit : v.RoomFits w.content.length) :
    Yields ((sdscatsds al (handle i v.type) (handle j w.type)).run m) m i
      ((v.makeRoom w.content.length).setContent (v.content ++ w.content)) := by
  obtain ⟨b, hb, hs⟩ := hw
  rw [sdscatsds, run_bind_of_ok (hs.len_run hb)]
  exact sdscatlen_yields hal hv (hs.holds_content hb) (avoids_handle w.type hne) hfit

/-- The last two writes of the functions that put new content `l` into a string: the terminator and
the length, after an update `d` of the block that put the bytes in place. -/
theorem terminate_run {b : Block} (hb : m.blocks i = some b)
    (hs : SdsBlock v.type v.content v.cap b) (hl : l.length ≤ v.cap) (d : Block → Block)
    (hsize : (d b).size = b.size) (hhdr : ∀ k, k < v.type.hdrSize → (d b).data k = b.data k)
    (hdata : ∀ k, k < l.length → (d b).data (v.type.hdrSize + k) = l.getD k 0) :
    ∃ (m2 : Mem) (g : Block → Block),
      (store8 ((handle i v.type).add l.length) 0).run (m.mapBlock i d) = .ok ((), m2) ∧
      (sdssetlen (handle i v.type) l.length).run m2 = .ok ((), m.mapBlock i g) ∧
      SdsBlock v.type l (v.setContent l).cap (g b) := by
  have hpos := v.type.hdrSize_pos
  have hroom := hs.room
  have hfits := hs.tagged.fits
  -- `sdssetlen` still finds the header type
  have htag : Tagged v.type (d b) := hs.tagged.congr (hhdr _ (by omega)) (by omega)
  have hb2 := Mem.mapBlock_blocks_self hb d
  have hst := store8_run (o := v.type.hdrSize + l.length) hb2 (by omega) 0
  have hb3 := Mem.mapBlock_blocks_self hb2 fun b =>
    b.patch (v.type.hdrSize + l.length) 1 fun _ => 0
  have hset := sdssetlen_run hb3 (htag.patch (by omega) _) l.length
  refine ⟨_, fun b => v.type.withLen l.length
    ((d b).patch (v.type.hdrSize + l.length) 1 fun _ => 0), hst, ?_,
    hs.terminated hl hsize hhdr hdata⟩
  rw [hset, Mem.mapBlock_mapBlock, Mem.mapBlock_mapBlock]
  rfl

/-- Writing `l` over a string with room for it. -/
theorem overwrite_run {b : Block} (hb : m.blocks i = some b)
    (hs : SdsBlock v.type v.content v.cap b) (hl : l.length ≤ v.cap) (ht : t.Holds m l)
    (hav : t.Avoids i) :
    ∃ g : Block → Block,
      (overwrite (handle i v.type) t l.length).run m =
        .ok (handle i v.type, m.mapBlock i g) ∧
      SdsBlock v.type l (v.setContent l).cap (g b) := by
  have hroom := hs.room
  obtain ⟨f, hcpy, hf⟩ := memcpy_run (o := v.type.hdrSize) hb (by omega) ht hav
  obtain ⟨m2, g, hst, hset, hs'⟩ := terminate_run hb hs hl
    (fun b => b.patch v.type.hdrSize l.length f) rfl (fun k hk => Block.patch_data_of_lt hk)
    (fun k hk => by rw [Block.patch_data_add hk, hf k hk])
  refine ⟨g, ?_, hs'⟩
  rw [overwrite]
  apply (run_bind_of_ok hcpy _).trans
  apply (run_bind_of_ok hst _).trans
  exact run_bind_of_ok hset _

theorem sdscpylen_yields (hal : al m.requests.length ≠ none) (hv : v.At m i) (ht : t.Holds m l)
    (hav : t.Avoids i) (hfit : v.RoomFits (l.length - v.content.length)) :
    Yields ((sdscpylen al (handle i v.type) t l.length).run m) m i
      (if v.cap < l.length then (v.makeRoom (l.length - v.content.length)).setContent l
        else v.setContent l) := by
  obtain ⟨b, hb, hs⟩ := hv
  have hle := hs.len_le
  rw [sdscpylen, run_bind_of_ok (hs.alloc_run hb)]
  by_cases h : v.cap < l.length
  · rw [if_pos h, if_pos h]
    -- the difference of the lengths does not wrap
    have hf := hfit (by omega)
    have hpre := le_prealloc (v.content.length + (l.length - v.content.length))
    have hlt := hf.lt
    have hsub : sizeT (SIZE_COUNT + l.length - v.content.length) =
        l.length - v.content.length := by
      unfold sizeT
      rw [Nat.add_sub_assoc (by omega), Nat.add_mod_left]
      exact Nat.mod_eq_of_lt (by omega)
    obtain ⟨j, m1, hmake, ⟨b1, hb1, hs1⟩, hmoved⟩ := sdsMakeRoomFor_yields hal ⟨b, hb, hs⟩ hfit
    obtain ⟨ht1, hav1⟩ := ht.moved hav hmoved
    have hcap := v.le_cap_makeRoom (l.length - v.content.length) hle
    obtain ⟨g, hrun, hs2⟩ := overwrite_run hb1 hs1 (by omega) ht1 hav1
    refine ⟨j, _, ?_, ⟨_, Mem.mapBlock_blocks_self hb1 g, hs2⟩, hmoved.mapBlock g⟩
    apply (run_bind_of_ok (hs.len_run hb) _).trans
    rw [hsub]
    apply (run_bind_of_ok hmake _).trans
    rw [if_neg (handle_ne_null _ _)]
    exact hrun
  · rw [if_neg h, if_neg h]
    obtain ⟨g, hrun, hs2⟩ := overwrite_run hb hs (by omega) ht hav
    exact ⟨i, _, hrun, ⟨_, Mem.mapBlock_blocks_self hb g, hs2⟩, (Mem.Moved.refl m i).mapBlock g⟩

theorem sdsgrowzero_yields {len : Nat} (hal : al m.requests.length ≠ none) (hv : v.At m i)
    (hfit : v.RoomFits (len - v.content.length)) :
    Yields ((sdsgrowzero al (handle i v.type) len).run m) m i
      (if len ≤ v.content.length then v
        else (v.makeRoom (len - v.content.length)).setContent
          (v.content ++ List.replicate (len - v.content.length) 0)) := by
  obtain ⟨b, hb, hs⟩ := hv
  rw [sdsgrowzero, run_bind_of_ok (hs.len_run hb)]
  by_cases h : len ≤ v.content.length
  · rw [if_pos h, if_pos h]
    exact ⟨i, m, rfl, ⟨b, hb, hs⟩, Mem.Moved.refl m i⟩
  · rw [if_neg h, if_neg h]
    obtain ⟨j, m1, hmake, ⟨b1, hb1, hs1⟩, hmoved⟩ := sdsMakeRoomFor_yields hal ⟨b, hb, hs⟩ hfit
    have hcap := v.le_cap_makeRoom (len - v.content.length) hs.len_le
    rw [Value.makeRoom_content] at hs1
    generalize v.makeRoom (len - v.content.length) = w at *
    have hroom := hs1.room
    have hsize := hs1.size_lt
    have hsum : sizeT (len - v.content.length + 1) = len - v.content.length + 1 :=
      Nat.mod_eq_of_lt (by omega)
    have hlen : (v.content ++ List.replicate (len - v.content.length) 0).length = len := by
      rw [List.length_append, List.length_replicate]
      omega
    have hset0 := memset_run (o := w.type.hdrSize + v.content.length)
      (n := len - v.content.length + 1) hb1 (by omega) 0
    have hb2 := Mem.mapBlock_blocks_self hb1 fun b =>
      b.patch (w.type.hdrSize + v.content.length) (len - v.content.length + 1) fun _ => 0
    have hset := sdssetlen_run hb2 (hs1.tagged.patch (by omega) _) len
    have hb3 := Mem.mapBlock_blocks_self hb2 (w.type.withLen len)
    refine ⟨j, _, ?_, ⟨_, hb3, ?_⟩, (hmoved.mapBlock _).mapBlock _⟩
    · apply (run_bind_of_ok hmake _).trans
      rw [if_neg (handle_ne_null _ _), hsum]
      apply (run_bind_of_ok hset0 _).trans
      exact run_bind_of_ok hset _
    · have hzero : ∀ d, d < len - v.content.length + 1 →
          (b1.patch (w.type.hdrSize + v.content.length) (len - v.content.length + 1)
            fun _ => 0).data (w.type.hdrSize + (v.content.length + d)) = 0 := by
        intro d hd
        rw [← Nat.add_assoc]
        exact Block.patch_data_add hd
      have hend := hzero (len - v.content.length) (by omega)
      rw [show v.content.length + (len - v.content.length) = len by omega] at hend
      have hres := hs1.withLen (l := v.content ++ List.replicate (len - v.content.length) 0)
        (d := b1.patch (w.type.hdrSize + v.content.length) (len - v.content.length + 1)
          fun _ => 0)
        (by omega) rfl (fun k hk => Block.patch_data_of_lt (by omega)) ?_ (by rw [hlen, hend])
      · rw [hlen] at hres
        show SdsBlock w.type _ (if w.type = .type5 then (_ ++ _ : List UInt8).length else w.cap) _
        rw [hlen]
        exact hres
      · intro k hk
        by_cases hkc : k < v.content.length
        · rw [Block.patch_data_of_lt (by omega), hs1.content k hkc, List.getD_append _ _ _ _ hkc]
        · obtain ⟨d, rfl⟩ : ∃ d, k = v.content.length + d := ⟨k - v.content.length, by omega⟩
          rw [hzero d (by omega), List.getD_append_right _ _ _ _ (by omega),
            Nat.add_sub_cancel_left, List.getD_replicate _ (by omega)]

end Copy

end CLanguageLearning.Sds
