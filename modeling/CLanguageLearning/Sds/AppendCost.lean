import CLanguageLearning.Foundation.Counting
import CLanguageLearning.Sds.Failures
import CLanguageLearning.Sds.Quoting

/-!
# What appending costs

`sdsMakeRoomFor` asks for more than it needs, double the new length below one megabyte and one
megabyte more from there on. So a string to which pieces are appended one after the other is moved
only a few times, however small the pieces are, and what it holds in reserve stays within the same
bound (`appends_amortised`).

`doublings` is the potential: a request raises that of the capacity by one at least.
-/

set_option autoImplicit false

namespace CLanguageLearning.Sds

open CLanguageLearning.Foundation

/-! ## Blocks -/

section Blocks

variable {β : Type} {obs : Mem → β}

theorem sdssetlen_keeps (h : ∀ m i pos n f, obs (m.mapBlock i fun b => b.patch pos n f) = obs m)
    (s : Ptr) (n : Nat) : Keeps obs (sdssetlen s n) := by
  refine (flagsOf_keeps _ s).bind fun flags => ?_
  split
  · exact (ptrSub_keeps _ s 1).bind fun _ => writeAt_keeps h _ _ _
  · exact (ptrSub_keeps _ s _).bind fun _ => writeAt_keeps h _ _ _
  · exact Keeps.pure _

theorem sdssetalloc_keeps (h : ∀ m i pos n f, obs (m.mapBlock i fun b => b.patch pos n f) = obs m)
    (s : Ptr) (n : Nat) : Keeps obs (sdssetalloc s n) := by
  refine (flagsOf_keeps _ s).bind fun flags => ?_
  split
  · exact Keeps.pure _
  · exact (ptrSub_keeps _ s _).bind fun _ => writeAt_keeps h _ _ _
  · exact Keeps.pure _

/-- What `sdscatlen` does behind `sdsMakeRoomFor`. -/
theorem sdscatlen_rest_keeps
    (h : ∀ m i pos n f, obs (m.mapBlock i fun b => b.patch pos n f) = obs m) (s : Ptr) (t : Source)
    (curlen len : Nat) :
    Keeps obs (if s = Ptr.null then return Ptr.null else do
      memcpy (s.add curlen) t len
      sdssetlen s (sizeT (curlen + len))
      store8 (s.add (sizeT (curlen + len))) 0
      return s : Exec Mem Ptr) := by
  refine Keeps.ite (Keeps.pure _) ((memcpy_keeps h _ _ _).bind fun _ => ?_)
  refine (sdssetlen_keeps h _ _).bind fun _ => (writeAt_keeps h _ _ _).bind fun _ => ?_
  exact Keeps.pure _

variable (al : Allocator)

theorem sdsMakeRoomFor_raises_next (s : Ptr) (addlen : Nat) :
    Raises Mem.next 1 (sdsMakeRoomFor al s addlen) := by
  have hobs : ∀ (m : Mem) (i pos n : Nat) (f : Nat → UInt8),
      (m.mapBlock i fun b => b.patch pos n f).next = m.next := fun _ _ _ _ _ => rfl
  have hgrow : ∀ sh T n, Raises Mem.next 1 (growInPlace al sh T n) := by
    intro sh T n
    refine (realloc_raises_next al sh _).andThen fun newsh => Keeps.ite (Keeps.pure _) ?_
    exact (sdssetalloc_keeps hobs _ n).bind fun _ => Keeps.pure _
  have hmove : ∀ sh T len n, Raises Mem.next 1 (moveString al sh s T len n) := by
    intro sh T len n
    refine (malloc_raises_next al _).andThen fun newsh => Keeps.ite (Keeps.pure _) ?_
    refine (memcpy_keeps_next _ _ _).bind fun _ => (free_keeps_next sh).bind fun _ => ?_
    refine (ptrSub_keeps _ _ 1).bind fun fp => (writeAt_keeps_next fp 1 _).bind fun _ => ?_
    refine (sdssetlen_keeps hobs _ len).bind fun _ => ?_
    exact (sdssetalloc_keeps hobs _ n).bind fun _ => Keeps.pure _
  refine .after (sdsavail_keeps _ s) fun avail => .after (flagsOf_keeps _ s) fun flags => ?_
  refine .ite ((Raises.of_keeps (Keeps.pure _)).mono (Nat.zero_le _)) ?_
  refine .after (sdslen_keeps _ s) fun len => .after (ptrSub_keeps _ s _) fun sh => ?_
  refine .ite ((Raises.of_keeps (Keeps.throw _)).mono (Nat.zero_le _)) ?_
  exact .ite (hgrow sh _ _) (hmove sh _ _ _)

variable {al} {m m' : Mem} {i n : Nat} {v : Value}

/-- A string that grows moves to the next block. -/
theorem sdsMakeRoomFor_run_next (hal : al m.requests.length ≠ none) (hv : v.At m i)
    (hfit : v.RoomFits n) (hshort : v.cap - v.content.length < n) :
    ∃ m', (sdsMakeRoomFor al (handle i v.type) n).run m =
      .ok (handle m.next (v.makeRoom n).type, m') := by
  obtain ⟨b, hb, hs⟩ := hv
  have hval : v.makeRoom n = ⟨growType (prealloc (v.content.length + n)), v.content,
      prealloc (v.content.length + n)⟩ := if_neg (by omega)
  obtain ⟨junk, hjunk⟩ := Option.ne_none_iff_exists'.mp hal
  have hf := hfit hshort
  have hle := le_prealloc (v.content.length + n)
  have hreq : sizeT (v.content.length + n) = v.content.length + n :=
    Nat.mod_eq_of_lt (Nat.lt_of_le_of_lt hle hf.lt)
  have hrun := sdsMakeRoomFor_run_grow al hb hs.opened hshort (by rw [hreq]; exact hf)
  rw [hreq] at hrun
  rw [hrun, hval]
  by_cases hT : v.type = growType (prealloc (v.content.length + n))
  · rw [if_pos hT]
    rw [← hT] at hf ⊢
    exact ⟨_, growInPlace_run_granted hb hs.tagged (by omega) hf hjunk⟩
  · rw [if_neg hT]
    obtain ⟨m', b', hmove, -⟩ := moveString_run_open al hb hs.opened (by omega)
      (lt_limit_growType hf.lt) hf (fun h5 => absurd h5 (growType_ne_type5 _)) hjunk
    exact ⟨m', hmove⟩

/-- The block of the string is the only one that `sdscatlen` leaves behind. -/
theorem sdscatlen_fresh {t : Source} {l : List UInt8} {p : Ptr}
    (hal : al m.requests.length ≠ none) (hv : v.At m i) (hfit : v.RoomFits l.length)
    (hrun : (sdscatlen al (handle i v.type) t l.length).run m = .ok (p, m')) {k : Nat}
    (hk : m.next ≤ k) (hp : p.block ≠ some k) : m'.blocks k = none := by
  obtain ⟨b, hb, hs⟩ := id hv
  rw [sdscatlen, run_bind_of_ok (hs.len_run hb)] at hrun
  obtain ⟨q, m₁, hmake, hrest⟩ := run_bind_eq_ok hrun
  have hsizes := sdscatlen_rest_keeps sizes_mapBlock_patch q t _ _ m₁ p m' hrest
  have hsize : m'.sizes k = m₁.sizes k := by rw [hsizes]
  have hnone : m₁.blocks k = none := by
    by_cases hshort : v.cap - v.content.length < l.length
    · obtain ⟨m₂, hnext⟩ := sdsMakeRoomFor_run_next hal hv hfit hshort
      have hraise := sdsMakeRoomFor_raises_next al _ _ m q m₁ hmake
      rw [hnext, Except.ok.injEq, Prod.mk.injEq] at hmake
      obtain ⟨rfl, rfl⟩ := hmake
      rw [if_neg (handle_ne_null _ _)] at hrest
      obtain ⟨_, _, -, hrest⟩ := run_bind_eq_ok hrest
      obtain ⟨_, _, -, hrest⟩ := run_bind_eq_ok hrest
      obtain ⟨_, _, -, hrest⟩ := run_bind_eq_ok hrest
      cases hrest
      have hne : k ≠ m.next := fun he => hp (by rw [he]; rfl)
      exact m₂.unused k (by omega)
    · rw [sdsMakeRoomFor_run_enough al hb hs.opened (by omega)] at hmake
      cases hmake
      exact m.unused k hk
  rw [Mem.sizes, Mem.sizes, hnone, Option.map_none, Option.map_eq_none_iff] at hsize
  exact hsize

end Blocks

/-! ## Requests -/

/-- How often a capacity can have been doubled, or raised by a megabyte, to become `n`. -/
def doublings (n : Nat) : Nat := Nat.log 2 (n + 1) + n / SDS_MAX_PREALLOC

theorem doublings_mono {n k : Nat} (h : n ≤ k) : doublings n ≤ doublings k :=
  Nat.add_le_add (Nat.log_mono_right (Nat.succ_le_succ h)) (Nat.div_le_div_right h)

/-- A capacity that was too small is at least doubled, or raised by a megabyte. -/
theorem doublings_prealloc {c r : Nat} (h : c < r) : doublings c + 1 ≤ doublings (prealloc r) := by
  unfold doublings prealloc
  split
  · have hdouble : Nat.log 2 (c + 1) + 1 = Nat.log 2 ((c + 1) * 2) :=
      (Nat.log_mul_base (by decide) (Nat.succ_ne_zero c)).symm
    have hlog : Nat.log 2 ((c + 1) * 2) ≤ Nat.log 2 (r * 2 + 1) := Nat.log_mono_right (by omega)
    have hdiv : c / SDS_MAX_PREALLOC ≤ r * 2 / SDS_MAX_PREALLOC :=
      Nat.div_le_div_right (by omega)
    omega
  · have hlog : Nat.log 2 (c + 1) ≤ Nat.log 2 (r + SDS_MAX_PREALLOC + 1) :=
      Nat.log_mono_right (by omega)
    have hstep : (r + SDS_MAX_PREALLOC) / SDS_MAX_PREALLOC = r / SDS_MAX_PREALLOC + 1 :=
      Nat.add_div_right r (by decide)
    have hdiv : c / SDS_MAX_PREALLOC ≤ r / SDS_MAX_PREALLOC := Nat.div_le_div_right h.le
    omega

theorem prealloc_mono {n k : Nat} (h : n ≤ k) : prealloc n ≤ prealloc k := by
  unfold prealloc
  split <;> split <;> omega

/-- The requests that lie between two memories. -/
def requested (m m' : Mem) : Nat := m'.requests.length - m.requests.length

/-- The account of the appends that have led from `v` in `m` to `w` in `m'`. -/
structure Account (m m' : Mem) (v w : Value) : Prop where
  le : m.requests.length ≤ m'.requests.length
  paid : requested m m' + doublings v.cap ≤ doublings w.cap
  bound : requested m m' = 0 ∨ requested m m' + doublings v.cap ≤ doublings w.content.length + 1
  reserve : w.cap ≤ max v.cap (prealloc w.content.length)

section Appends

variable {al : Allocator} {m m' m'' : Mem} {i : Nat} {v w : Value} {l : List UInt8}

theorem Account.refl (m : Mem) (v : Value) : Account m m v v where
  le := Nat.le_refl _
  paid := by rw [requested, Nat.sub_self, Nat.zero_add]
  bound := Or.inl (Nat.sub_self _)
  reserve := Nat.le_max_left _ _

/-- One more append. -/
theorem Account.append (h : Account m m' v w) (hw : w.At m' i)
    (hrun : ∃ p, (sdscatlen al (handle i w.type) (.bytes l) l.length).run m' = .ok (p, m'')) :
    Account m m'' v ((w.makeRoom l.length).setContent (w.content ++ l)) := by
  obtain ⟨p, hrun⟩ := hrun
  obtain ⟨b, hb, hs⟩ := hw
  rw [sdscatlen, run_bind_of_ok (hs.len_run hb)] at hrun
  obtain ⟨q, m₁, hmake, hrest⟩ := run_bind_eq_ok hrun
  have hkeep : m''.requests = m₁.requests :=
    sdscatlen_rest_keeps (fun _ _ _ _ _ => rfl) q _ _ _ m₁ p m'' hrest
  have hle := h.le
  have hpaid := h.paid
  have hlen : (w.content ++ l).length = w.content.length + l.length := List.length_append
  by_cases hshort : w.cap - w.content.length < l.length
  case neg =>
    -- there is room, and nothing is asked for
    rw [sdsMakeRoomFor_run_enough al hb hs.opened (by omega)] at hmake
    cases hmake
    have hreq : requested m m'' = requested m m' := by rw [requested, requested, hkeep]
    have hval : w.makeRoom l.length = w := if_pos (by omega)
    have hcap : w.cap ≤ (w.setContent (w.content ++ l)).cap ∧
        (w.setContent (w.content ++ l)).cap ≤ max w.cap (w.content.length + l.length) := by
      rw [Value.setContent]
      dsimp only
      split
      · rename_i h5
        rw [h5] at hs
        rw [hs.cap_eq_of_type5, hlen]
        exact ⟨Nat.le_add_right _ _, Nat.le_max_right _ _⟩
      · exact ⟨Nat.le_refl _, Nat.le_max_left _ _⟩
    rw [hval]
    refine ⟨by rw [hkeep]; exact hle, ?_, ?_, ?_⟩
    · rw [hreq]
      exact hpaid.trans (doublings_mono hcap.1)
    · rw [hreq]
      refine h.bound.imp_right fun hbound => hbound.trans (Nat.succ_le_succ (doublings_mono ?_))
      rw [Value.setContent, hlen]
      exact Nat.le_add_right _ _
    · have hmono := prealloc_mono (Nat.le_add_right w.content.length l.length)
      have hpre := le_prealloc (w.content.length + l.length)
      have hres := h.reserve
      rw [Value.setContent, hlen] at *
      omega
  case pos =>
    have hone : m₁.requests.length ≤ m'.requests.length + 1 := by
      rcases sdsMakeRoomFor_one al _ _ m' q m₁ hmake with he | ⟨r, he⟩
      · rw [he]
        exact Nat.le_succ _
      · rw [he, List.length_cons]
    have hmore : m'.requests.length ≤ m₁.requests.length := by
      rcases sdsMakeRoomFor_one al _ _ m' q m₁ hmake with he | ⟨r, he⟩
      · rw [he]
      · rw [he, List.length_cons]
        exact Nat.le_succ _
    have hreq : requested m m'' ≤ requested m m' + 1 := by
      rw [requested, requested, hkeep]
      omega
    have hval : w.makeRoom l.length = ⟨growType (prealloc (w.content.length + l.length)), w.content,
        prealloc (w.content.length + l.length)⟩ := if_neg (by omega)
    have hcap : ((w.makeRoom l.length).setContent (w.content ++ l)).cap =
        prealloc (w.content.length + l.length) := by
      rw [hval, Value.setContent, if_neg (growType_ne_type5 _)]
    have hc : w.cap < w.content.length + l.length := by omega
    refine ⟨by rw [hkeep]; omega, ?_, Or.inr ?_, ?_⟩
    · have hstep := doublings_prealloc hc
      rw [hcap]
      omega
    · have hmono := doublings_mono hc.le
      rw [Value.setContent, hlen]
      omega
    · rw [hcap, Value.setContent, hlen]
      exact Nat.le_max_right _ _

theorem catPieces_account (hal : ∀ k, al k ≠ none) (ls : List (List UInt8)) :
    ∀ {m' : Mem} {i : Nat} {w : Value}, Account m m' v w → w.At m' i →
      w.content.length + ls.flatten.length < 2 ^ 63 →
      ∃ j m'' u, (catPieces al (handle i w.type) ls).run m' = .ok (handle j (Value.type u), m'') ∧
        Value.At u m'' j ∧ u.content = w.content ++ ls.flatten ∧ Account m m'' v u := by
  induction ls with
  | nil =>
      intro m' i w h hw _
      exact ⟨i, m', w, rfl, hw, (List.append_nil _).symm, h⟩
  | cons l ls ih =>
      intro m' i w h hw hfit
      rw [List.flatten_cons, List.length_append] at hfit
      obtain ⟨j, m₁, hcat, hat, -⟩ := sdscatlen_yields (t := .bytes l) (hal _) hw List.prefix_rfl
        trivial (Value.roomFits_of_lt (by omega))
      have haccount := h.append hw ⟨_, hcat⟩
      obtain ⟨k, m'', u, hrest, hu, hcontent, hends⟩ := ih haccount hat (by
        rw [Value.setContent, List.length_append]
        omega)
      refine ⟨k, m'', u, (run_bind_of_ok hcat _).trans hrest, hu, ?_, hends⟩
      rw [hcontent, Value.setContent, List.flatten_cons, List.append_assoc]

/-- Pieces of any sizes appended one after the other: the requests are as few as the doublings of the
final length, and the capacity is at most what that length asks for, if it was not larger before. -/
theorem appends_amortised (hal : ∀ k, al k ≠ none) (hv : v.At m i) (ls : List (List UInt8))
    (hfit : v.content.length + ls.flatten.length < 2 ^ 63) :
    ∃ j m' w, (catPieces al (handle i v.type) ls).run m = .ok (handle j (Value.type w), m') ∧
      Value.At w m' j ∧ w.content = v.content ++ ls.flatten ∧
      (requested m m' = 0 ∨
        requested m m' + doublings v.cap ≤ doublings w.content.length + 1) ∧
      w.cap ≤ max v.cap (prealloc w.content.length) := by
  obtain ⟨j, m', w, hrun, hw, hcontent, haccount⟩ :=
    catPieces_account hal ls (.refl m v) hv hfit
  exact ⟨j, m', w, hrun, hw, hcontent, haccount.bound, haccount.reserve⟩

/-- `bc`, `d` and `efgh` appended to `a`. -/
theorem appends_amortised_letters :
    ∃ j m' k m'' w, (sdsnewlen (fun _ => some fun _ => 0) (.src (.bytes [97])) 1).run Mem.empty =
        .ok (handle j (Value.ofBytes [97]).type, m') ∧
      (catPieces (fun _ => some fun _ => 0) (handle j (Value.ofBytes [97]).type)
          [[98, 99], [100], [101, 102, 103, 104]]).run m' = .ok (handle k (Value.type w), m'') ∧
      w.content = [97, 98, 99, 100, 101, 102, 103, 104] ∧ requested m' m'' ≤ 3 := by
  have hsrc : (Source.bytes [97]).Holds Mem.empty [97] := List.prefix_rfl
  have hgranted : ∀ n, (fun _ => some fun _ => 0 : Allocator) n ≠ none :=
    fun _ => Option.some_ne_none _
  obtain ⟨j, m', hnew, hat, -⟩ := @sdsnewlen_yields (fun _ => some fun _ => 0) Mem.empty _ _
    (hgranted 0) hsrc (by decide)
  obtain ⟨k, m'', w, hrun, -, hcontent, hbound, -⟩ := appends_amortised hgranted hat
    [[98, 99], [100], [101, 102, 103, 104]] (by decide)
  refine ⟨j, m', k, m'', w, hnew, hrun, hcontent, ?_⟩
  rw [hcontent] at hbound
  have hfinal : doublings (8 : Nat) = 3 := by decide
  have hstart : doublings (Value.ofBytes [97]).cap = 1 := by decide
  change requested m' m'' = 0 ∨ requested m' m'' + _ ≤ doublings 8 + 1 at hbound
  omega

end Appends

end CLanguageLearning.Sds
