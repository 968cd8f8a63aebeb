import CLanguageLearning.Timer.TimeHeap

/-!
# The member functions on a heap

`Holds s b` says that the array in state `s` points to the entries that `b` gives slot by slot, and
`Heaped s held` that it does so in heap order for the entries `held`. A loop with a hole is told
with the element already in the hole, so that each of its moves exchanges two slots. Every member
function is shown to return in a state of the same kind with the entries it is for, or to stop
because a number of slots does not fit in an `int`, which needs an array of at least `2 ^ 30` slots.
-/

set_option autoImplicit false

namespace CLanguageLearning.Timer

open CLanguageLearning.Foundation

/-- A timer of a heap with its name. -/
structure HeapEntry where
  id : Nat
  expire : Int
  cb_func : Option Nat
  user_data : Nat
  deriving DecidableEq, Repr

namespace HeapEntry

/-- The timer in memory. -/
def timer (e : HeapEntry) : HeapTimer := ⟨e.expire, e.cb_func, e.user_data⟩

/-- The call made when the timer is due, if any. -/
def call (e : HeapEntry) : Option Call := e.cb_func.map fun f => ⟨e.id, f, e.user_data⟩

/-- The entry after the timer `x` has lost its callback. -/
def mute (x : Nat) (e : HeapEntry) : HeapEntry := if e.id = x then { e with cb_func := none } else e

@[simp] theorem mute_id (x : Nat) (e : HeapEntry) : (e.mute x).id = e.id := by
  unfold mute
  split <;> rfl

@[simp] theorem mute_expire (x : Nat) (e : HeapEntry) : (e.mute x).expire = e.expire := by
  unfold mute
  split <;> rfl

end HeapEntry

/-- The expiry times slot by slot. -/
def expires (b : Nat → HeapEntry) : Nat → Int := fun i => (b i).expire

namespace TimeHeap

/-- The array points to the entries `b`, which are in memory, at least outside the hole. -/
structure Hollow (s : TimeHeap) (b : Nat → HeapEntry) (hole : Nat) : Prop where
  room : s.cur_size ≤ s.capacity
  slots : ∀ i, i < s.cur_size → i ≠ hole → s.array i = some (b i).id
  stored : ∀ i, i < s.cur_size → s.timers (b i).id = some (b i).timer

/-- The array points to the entries `b`, which are in memory. -/
structure Holds (s : TimeHeap) (b : Nat → HeapEntry) : Prop where
  room : s.cur_size ≤ s.capacity
  slots : ∀ i, i < s.cur_size → s.array i = some (b i).id
  stored : ∀ i, i < s.cur_size → s.timers (b i).id = some (b i).timer

/-- Only the array was written. -/
def Rearranged (s s' : TimeHeap) : Prop := s' = { s with array := s'.array }

section Memory

variable {s s' s'' : TimeHeap} {b : Nat → HeapEntry} {hole i x : Nat} {t : HeapTimer}

theorem Rearranged.refl (s : TimeHeap) : Rearranged s s := rfl

theorem Rearranged.trans (h : Rearranged s s') (h' : Rearranged s' s'') : Rearranged s s'' := by
  unfold Rearranged at *
  rw [h', h]

theorem Rearranged.cur_size (h : Rearranged s s') : s'.cur_size = s.cur_size := by rw [h]

theorem Rearranged.capacity (h : Rearranged s s') : s'.capacity = s.capacity := by rw [h]

theorem Rearranged.timers (h : Rearranged s s') : s'.timers = s.timers := by rw [h]

theorem Rearranged.calls (h : Rearranged s s') : s'.calls = s.calls := by rw [h]

theorem deref_run (h : s.timers x = some t) : (deref (some x)).run s = .ok (t, s) := by
  simp [deref, h]

theorem slot_run (h : i < s.capacity) : (slot i).run s = .ok (s.array i, s) := by
  simp [slot, h]

theorem setSlot_run (h : i < s.capacity) (p : Option Nat) :
    (setSlot i p).run s = .ok ((), { s with array := Function.update s.array i p }) := by
  simp [setSlot, h]

theorem empty_run (s : TimeHeap) : empty.run s = .ok (decide (s.cur_size = 0), s) := rfl

theorem Holds.hollow (h : Holds s b) (hole : Nat) : Hollow s b hole :=
  ⟨h.room, fun i hi _ => h.slots i hi, h.stored⟩

theorem Hollow.slot_run (h : Hollow s b hole) (hi : i < s.cur_size) (hne : i ≠ hole) :
    (slot i).run s = .ok (some (b i).id, s) := by
  rw [TimeHeap.slot_run (hi.trans_le h.room), h.slots i hi hne]

theorem Hollow.deref_run (h : Hollow s b hole) (hi : i < s.cur_size) :
    (deref (some (b i).id)).run s = .ok ((b i).timer, s) :=
  TimeHeap.deref_run (h.stored i hi)

/-- Writing the element into the hole. -/
theorem Hollow.fill (h : Hollow s b hole) :
    Holds { s with array := Function.update s.array hole (some (b hole).id) } b where
  room := h.room
  slots i hi := by
    by_cases hih : i = hole
    · rw [hih]
      exact Function.update_self ..
    · exact (Function.update_of_ne hih _ _).trans (h.slots i hi hih)
  stored := h.stored

/-- Moving the hole to slot `c`. -/
theorem Hollow.move {c : Nat} (h : Hollow s b hole) (hhole : hole < s.cur_size)
    (hc : c < s.cur_size) :
    Hollow { s with array := Function.update s.array hole (some (b c).id) } (exchange hole c b)
      c where
  room := h.room
  slots i hi hic := by
    by_cases hih : i = hole
    · rw [hih, exchange_left]
      exact Function.update_self ..
    · rw [exchange_of_ne hih hic]
      exact (Function.update_of_ne hih _ _).trans (h.slots i hi hih)
  stored i hi := h.stored _ (swap_lt hhole hc hi)

end Memory

/-! ## Sifting down -/

section Percolate

variable {s : TimeHeap} {b : Nat → HeapEntry} {hole k : Nat} {stops : Halt → Prop}

theorem smallerChild_run (h : Hollow s b hole) (hleft : hole * 2 + 1 < s.cur_size) :
    ∃ c, (smallerChild (hole * 2 + 1)).run s = .ok (c, s) ∧ Child hole c ∧ c < s.cur_size ∧
      ∀ d, d < s.cur_size → Child hole d → expires b c ≤ expires b d := by
  have hl : Child hole (hole * 2 + 1) := .inl (by omega)
  have hr : Child hole (hole * 2 + 1 + 1) := .inr (by omega)
  by_cases htwo : hole * 2 + 1 < s.cur_size - 1
  · -- the hole has two children
    have hright : hole * 2 + 1 + 1 < s.cur_size := by omega
    have hslot := h.slot_run hright (Nat.ne_of_gt hr.lt)
    have hslot' := h.slot_run hleft (Nat.ne_of_gt hl.lt)
    have hrun : (smallerChild (hole * 2 + 1)).run s =
        .ok (if expires b (hole * 2 + 1 + 1) < expires b (hole * 2 + 1) then hole * 2 + 1 + 1
          else hole * 2 + 1, s) := by
      apply (run_bind_of_ok (run_get s) _).trans
      rw [if_pos htwo]
      apply (run_bind_of_ok hslot _).trans
      apply (run_bind_of_ok (h.deref_run hright) _).trans
      apply (run_bind_of_ok hslot' _).trans
      apply (run_bind_of_ok (h.deref_run hleft) _).trans
      show StateT.run (if expires b _ < expires b _ then _ else _) s = _
      split <;> rfl
    refine ⟨_, hrun, ?_⟩
    by_cases hlt : expires b (hole * 2 + 1 + 1) < expires b (hole * 2 + 1)
    · rw [if_pos hlt]
      refine ⟨hr, hright, ?_⟩
      rintro d - (rfl | rfl)
      · rw [Nat.mul_comm 2 hole]
        exact hlt.le
      · exact (congrArg (expires b) (by omega)).le
    · rw [if_neg hlt]
      refine ⟨hl, hleft, ?_⟩
      rintro d - (rfl | rfl)
      · exact (congrArg (expires b) (by omega)).le
      · rw [Nat.mul_comm 2 hole]
        exact not_lt.mp hlt
  · -- only the left one
    refine ⟨hole * 2 + 1, ?_, hl, hleft, ?_⟩
    · apply (run_bind_of_ok (run_get s) _).trans
      rw [if_neg htwo]
      rfl
    · rintro d hd (rfl | rfl)
      · exact (congrArg (expires b) (by omega)).le
      · omega

/-- The loop of `percolate_down` ends in heap order. The induction is on the turns, of which there
are as many as slots behind the hole. An index overflows only with more than `2 ^ 30` timers. -/
theorem percolateLoop_ends (fuel : Nat) :
    ∀ (s : TimeHeap) (b : Nat → HeapEntry) (hole : Nat), Hollow s b hole → k ≤ hole →
      hole < s.cur_size → s.cur_size ≤ hole + fuel → Sinking k s.cur_size hole (expires b) →
      (2 ^ 30 < s.cur_size → stops .overflow) →
      Ends stops ((percolateLoop (some (b hole).id) fuel hole).run s)
        fun hole' s' => ∃ b', Rearranged s s' ∧ Hollow s' b' hole' ∧ hole' < s.cur_size ∧
          b' hole' = b hole ∧ HeapFrom k s.cur_size (expires b') ∧
          (slots s.cur_size b').Perm (slots s.cur_size b) := by
  induction fuel with
  | zero =>
      intro s b hole _ _ hhole hfuel _ _
      omega
  | succ fuel ih =>
      intro s b hole h hk hhole hfuel hsink hstops
      have hroom := h.room
      -- `hole * 2 + 1` is an `int`
      refine .intValue ?_ (.next (run_get s) ?_)
      · intro hmax
        apply hstops
        unfold INT_MAX at hmax
        omega
      · by_cases hleft : hole * 2 + 1 ≤ s.cur_size - 1
        · rw [if_pos hleft]
          obtain ⟨c, hrun, hchild, hc, hmin⟩ :=
            smallerChild_run h (by omega : hole * 2 + 1 < s.cur_size)
          have hne : c ≠ hole := Nat.ne_of_gt hchild.lt
          refine .next hrun (.next (h.slot_run hc hne) (.next (h.deref_run hc)
            (.next (h.deref_run hhole) ?_)))
          by_cases hlt : expires b c < expires b hole
          · -- the smaller child moves up and the hole goes to its slot
            rw [if_pos (show (b c).timer.expire < (b hole).timer.expire from hlt)]
            refine .next (setSlot_run (hhole.trans_le hroom) _) ?_
            have hmoved := hsink.move hk hchild hc hlt hmin
            have hih := ih _ _ c (h.move hhole hc) (hk.trans hchild.lt.le) hc
              (by have := hchild.lt; show s.cur_size ≤ c + fuel; omega) hmoved hstops
            rw [exchange_right] at hih
            apply hih.mono
            rintro hole' s' ⟨b', hs', h', hhole', hb', horder, hperm⟩
            exact ⟨b', hs', h', hhole', hb', horder, hperm.trans (slots_exchange hhole hc)⟩
          · -- no child expires earlier: the loop breaks
            rw [if_neg (show ¬ (b c).timer.expire < (b hole).timer.expire from hlt)]
            refine .of_ok rfl ⟨b, .refl s, h, hhole, rfl, hsink.stop ?_, .refl _⟩
            intro d hd hhd
            exact (not_lt.mp hlt).trans (hmin d hd hhd)
        · -- the hole has no child
          rw [if_neg hleft]
          refine .of_ok rfl ⟨b, .refl s, h, hhole, rfl, hsink.stop ?_, .refl _⟩
          intro d hd hhd
          unfold Child at hhd
          omega

/-- `percolate_down` puts the parent in slot `k` in order, when those behind it are. -/
theorem percolate_down_ends {fuel : Nat} (h : Holds s b) (hk : k < s.cur_size)
    (hfuel : s.cur_size ≤ fuel) (horder : HeapFrom (k + 1) s.cur_size (expires b))
    (hstops : 2 ^ 30 < s.cur_size → stops .overflow) :
    Ends stops ((percolate_down fuel k).run s) fun _ s' =>
      ∃ b', Rearranged s s' ∧ Holds s' b' ∧ HeapFrom k s.cur_size (expires b') ∧
        (slots s.cur_size b').Perm (slots s.cur_size b) := by
  have hroom := h.room
  have hslot : (slot k).run s = .ok (some (b k).id, s) := by
    rw [slot_run (hk.trans_le hroom), h.slots k hk]
  refine .next hslot (.bind (percolateLoop_ends fuel s b k (h.hollow k) le_rfl hk (by omega)
    (.start horder) hstops) ?_)
  rintro hole s' ⟨b', hs', h', hhole, hb', horder', hperm⟩
  have hset := setSlot_run (s := s') (i := hole)
    (by rw [hs'.capacity]; exact hhole.trans_le hroom) (some (b k).id)
  refine .of_ok hset ⟨b', ?_, ?_, horder', hperm⟩
  · rw [hs']
    rfl
  · rw [← hb']
    exact h'.fill

/-- On an empty heap `percolate_down` reads and writes the first slot. -/
theorem percolate_down_run_empty (fuel : Nat) (hfuel : 0 < fuel) (hempty : s.cur_size = 0)
    (hcap : 0 < s.capacity) :
    ∃ s', (percolate_down fuel 0).run s = .ok ((), s') ∧ Rearranged s s' := by
  obtain ⟨fuel, rfl⟩ := Nat.exists_eq_succ_of_ne_zero (Nat.ne_of_gt hfuel)
  refine ⟨{ s with array := Function.update s.array 0 (s.array 0) }, ?_, rfl⟩
  apply (run_bind_of_ok (slot_run hcap) _).trans
  refine (run_bind_of_ok (a := 0) (t := s) ?_ _).trans (setSlot_run hcap _)
  apply (run_bind_of_ok (a := 1) (t := s) rfl _).trans
  apply (run_bind_of_ok (a := s) (t := s) rfl _).trans
  rw [if_neg (by omega)]
  rfl

end Percolate

/-! ## Heaps of entries -/

/-- The entries slot by slot, in heap order. -/
structure HeapOf (s : TimeHeap) (b : Nat → HeapEntry) : Prop where
  holds : Holds s b
  order : HeapFrom 0 s.cur_size (expires b)

/-- A heap of the entries `held`. -/
structure Heaped (s : TimeHeap) (held : List HeapEntry) : Prop where
  nodup : (held.map HeapEntry.id).Nodup
  heap : ∃ b, HeapOf s b ∧ (slots s.cur_size b).Perm held

section Pop

variable {s : TimeHeap} {b : Nat → HeapEntry} {held : List HeapEntry} {stops : Halt → Prop}

/-- Without timers the heap is in order, whatever the slots hold. -/
theorem heaped_of_empty (h : s.cur_size = 0) : Heaped s [] := by
  refine ⟨List.nodup_nil, fun _ => ⟨0, 0, none, 0⟩, ⟨⟨?_, fun i hi => ?_, fun i hi => ?_⟩, ?_⟩, ?_⟩
  · rw [h]
    exact Nat.zero_le _
  · rw [h] at hi
    exact absurd hi (Nat.not_lt_zero i)
  · rw [h] at hi
    exact absurd hi (Nat.not_lt_zero i)
  · rw [h]
    exact .of_half (Nat.zero_le _)
  · rw [h]
    exact .refl _

theorem Heaped.cur_size (h : Heaped s held) : s.cur_size = held.length := by
  obtain ⟨b, -, hperm⟩ := h.heap
  rw [← hperm.length_eq, slots_length]

/-- Different slots hold different timers. -/
theorem id_ne_of_nodup {n i j : Nat} (h : ((slots n b).map HeapEntry.id).Nodup) (hi : i < n)
    (hj : j < n) (hij : i ≠ j) : (b i).id ≠ (b j).id := by
  rw [slots, List.map_map] at h
  intro he
  exact hij (List.inj_on_of_nodup_map h (List.mem_range.mpr hi) (List.mem_range.mpr hj) he)

/-- The first timer is one that expires first. -/
theorem Heaped.first (h : Heaped s held) (hne : held ≠ []) :
    ∃ e ∈ held, s.array 0 = some e.id ∧ s.timers e.id = some e.timer ∧ 0 < s.capacity ∧
      ∀ e' ∈ held, e.expire ≤ e'.expire := by
  have hsize := h.cur_size
  obtain ⟨b, hb, hperm⟩ := h.heap
  have hpos : 0 < s.cur_size := by
    rw [hsize]
    exact List.length_pos_of_ne_nil hne
  refine ⟨b 0, hperm.mem_iff.mp (mem_slots.mpr ⟨0, hpos, rfl⟩), hb.holds.slots 0 hpos,
    hb.holds.stored 0 hpos, hpos.trans_le hb.holds.room, ?_⟩
  intro e' he'
  obtain ⟨i, hi, rfl⟩ := mem_slots.mp (hperm.mem_iff.mpr he')
  exact hb.order.root_le i hi

/-- The state in which `pop_timer` calls `percolate_down`: the first timer is deleted and the last
one is in its slot. -/
theorem HeapOf.replaceFirst {n : Nat} (h : HeapOf s b) (hn : s.cur_size = n + 1)
    (hnodup : ((slots (n + 1) b).map HeapEntry.id).Nodup) (hpos : 0 < n) :
    Holds { s with
      timers := Function.update s.timers (b 0).id none
      cur_size := n
      array := Function.update s.array 0 (s.array n) } (Function.update b 0 (b n)) where
  room := by
    have hroom := h.holds.room
    show n ≤ s.capacity
    omega
  slots i hi := by
    by_cases h0 : i = 0
    · rw [h0, Function.update_self]
      show Function.update s.array 0 (s.array n) 0 = _
      rw [Function.update_self]
      exact h.holds.slots n (by omega)
    · rw [Function.update_of_ne h0]
      exact (Function.update_of_ne h0 _ _).trans
        (h.holds.slots i (by have : i < n := hi; omega))
  stored i hi := by
    have hi' : i < n := hi
    by_cases h0 : i = 0
    · rw [h0, Function.update_self]
      -- the last timer is another one than the first, so it is still in memory
      refine (Function.update_of_ne ?_ _ _).trans (h.holds.stored n (by omega))
      exact id_ne_of_nodup hnodup (by omega) (by omega) (by omega)
    · rw [Function.update_of_ne h0]
      refine (Function.update_of_ne ?_ _ _).trans (h.holds.stored i (by omega))
      exact id_ne_of_nodup hnodup (by omega) (by omega) h0

theorem deleteTimer_run {x : Nat} {t : HeapTimer} (h : s.timers x = some t) :
    (deleteTimer (some x)).run s =
      .ok ((), { s with timers := Function.update s.timers x none }) := by
  rw [deleteTimer, run_bind_of_ok (deref_run h)]
  rfl

/-- `pop_timer` takes one entry that expires first out of the heap and deletes its timer. -/
theorem pop_timer_ends {fuel : Nat} (h : Heaped s held) (hne : held ≠ [])
    (hfuel : held.length ≤ fuel) (hstops : 2 ^ 30 < held.length → stops .overflow) :
    Ends stops ((pop_timer fuel).run s) fun _ s' =>
      ∃ e rest, held.Perm (e :: rest) ∧ s.array 0 = some e.id ∧
        (∀ e' ∈ held, e.expire ≤ e'.expire) ∧ Heaped s' rest ∧
        s'.timers = Function.update s.timers e.id none ∧ s'.calls = s.calls ∧
        s'.capacity = s.capacity := by
  have hsize := h.cur_size
  obtain ⟨n, hn⟩ := Nat.exists_eq_succ_of_ne_zero
    (by rw [hsize]; exact Nat.ne_of_gt (List.length_pos_of_ne_nil hne) : s.cur_size ≠ 0)
  rw [Nat.succ_eq_add_one] at hn
  obtain ⟨b, hb, hperm⟩ := h.heap
  rw [hn] at hperm
  have hnodup : ((slots (n + 1) b).map HeapEntry.id).Nodup := (hperm.map _).nodup_iff.mpr h.nodup
  have hroom := hb.holds.room
  have hcap : 0 < s.capacity := by omega
  have hfirst := hb.holds.slots 0 (by omega)
  have hpop := hperm.symm.trans (slots_pop n b)
  have hmin : ∀ e' ∈ held, (b 0).expire ≤ e'.expire := by
    intro e' he'
    obtain ⟨i, hi, rfl⟩ := mem_slots.mp (hperm.mem_iff.mpr he')
    exact hb.order.root_le i (by omega)
  have hrest : ((slots n (Function.update b 0 (b n))).map HeapEntry.id).Nodup :=
    (List.nodup_cons.mp ((hpop.map HeapEntry.id).nodup_iff.mp h.nodup)).2
  refine .next (empty_run s) ?_
  rw [if_neg (by simp [hn])]
  have hslot : (slot 0).run s = .ok (some (b 0).id, s) := by rw [slot_run hcap, hfirst]
  refine .next hslot ?_
  rw [if_neg (Option.some_ne_none _)]
  refine .next (deleteTimer_run (hb.holds.stored 0 (by omega))) (.next rfl (.next rfl ?_))
  refine .next (slot_run (by show s.cur_size - 1 < s.capacity; omega))
    (.next (setSlot_run ?_ _) ?_)
  · exact hcap
  have hlast : s.cur_size - 1 = n := by omega
  show Ends stops ((percolate_down fuel 0).run
    { s with
      timers := Function.update s.timers (b 0).id none
      cur_size := s.cur_size - 1
      array := Function.update s.array 0 (s.array (s.cur_size - 1)) }) _
  rw [hlast]
  rcases Nat.eq_zero_or_pos n with rfl | hpos
  · -- the heap is empty now
    obtain ⟨s', hrun, hs'⟩ := percolate_down_run_empty fuel (s := { s with
      timers := Function.update s.timers (b 0).id none
      cur_size := 0
      array := Function.update s.array 0 (s.array 0) }) (by omega) rfl hcap
    exact .of_ok hrun ⟨b 0, [], hpop, hfirst, hmin, heaped_of_empty hs'.cur_size, hs'.timers,
      hs'.calls, hs'.capacity⟩
  · -- the timer in the first slot sinks to its place
    have horder := hb.order
    rw [hn] at horder
    have hholds := hb.replaceFirst hn hnodup hpos
    have hfuel' : n ≤ fuel := by omega
    have hstops' : 2 ^ 30 < n → stops .overflow := fun hn' => hstops (by omega)
    apply (percolate_down_ends hholds hpos hfuel' (HeapFrom.pop (b := b) horder) hstops').mono
    rintro - s' ⟨b', hs', h', horder', hperm'⟩
    refine ⟨b 0, _, hpop, hfirst, hmin, ⟨hrest, b', ⟨h', ?_⟩, ?_⟩, hs'.timers, hs'.calls,
      hs'.capacity⟩
    · rw [hs'.cur_size]
      exact horder'
    · rw [hs'.cur_size]
      exact hperm'

end Pop

/-! ## Insertion -/

section Add

variable {s : TimeHeap} {b : Nat → HeapEntry} {held : List HeapEntry} {e : HeapEntry}
  {stops : Halt → Prop}

/-- The loop of `add_timer` ends in heap order. The induction is on the turns, of which there are at
most as many as slots before the hole. -/
theorem siftLoop_run (fuel : Nat) :
    ∀ (s : TimeHeap) (b : Nat → HeapEntry) (hole : Nat), Hollow s b hole → hole < s.cur_size →
      hole < fuel → Rising s.cur_size hole (expires b) →
      ∃ hole' s' b', (siftLoop (some (b hole).id) fuel hole).run s = .ok (hole', s') ∧
        Rearranged s s' ∧ Hollow s' b' hole' ∧ hole' < s.cur_size ∧ b' hole' = b hole ∧
        HeapFrom 0 s.cur_size (expires b') ∧ (slots s.cur_size b').Perm (slots s.cur_size b) := by
  induction fuel with
  | zero =>
      intro s b hole _ _ hfuel _
      exact absurd hfuel (Nat.not_lt_zero hole)
  | succ fuel ih =>
      intro s b hole h hhole hfuel hrise
      rcases Nat.eq_zero_or_pos hole with rfl | hpos
      · refine ⟨0, s, b, rfl, .refl s, h, hhole, rfl, hrise.stop ?_, .refl _⟩
        intro p hp
        exact absurd hp.lt (Nat.not_lt_zero p)
      · have hchild := child_parent hpos
        have hparent : (hole - 1) / 2 < s.cur_size := hchild.lt.trans hhole
        have hslot := h.slot_run hparent (Nat.ne_of_lt hchild.lt)
        have hderef := h.deref_run hparent
        have hderef' := h.deref_run hhole
        by_cases hle : expires b ((hole - 1) / 2) ≤ expires b hole
        · -- the parent expires no later: the loop breaks
          refine ⟨hole, s, b, ?_, .refl s, h, hhole, rfl, hrise.stop ?_, .refl _⟩
          · rw [siftLoop, if_neg (Nat.ne_of_gt hpos)]
            refine (run_bind_of_ok hslot _).trans ((run_bind_of_ok hderef _).trans ?_)
            apply (run_bind_of_ok hderef' _).trans
            rw [if_pos (show (b ((hole - 1) / 2)).timer.expire ≤ (b hole).timer.expire from hle)]
            rfl
          · intro p hp
            rwa [hp.parent_unique hchild]
        · -- the parent moves down and the hole goes to its slot
          have hrise' := hrise.move hchild hhole (not_le.mp hle)
          obtain ⟨hole', s', b', hrun, hs', h', hhole', hb', horder, hperm⟩ :=
            ih _ _ _ (h.move hhole hparent) hparent
              (by have := hchild.lt; omega : (hole - 1) / 2 < fuel) hrise'
          rw [exchange_right] at hrun hb'
          refine ⟨hole', s', b', ?_, hs', h', hhole', hb', horder,
            hperm.trans (slots_exchange hhole hparent)⟩
          rw [siftLoop, if_neg (Nat.ne_of_gt hpos)]
          refine (run_bind_of_ok hslot _).trans ((run_bind_of_ok hderef _).trans ?_)
          apply (run_bind_of_ok hderef' _).trans
          rw [if_neg (show ¬ (b ((hole - 1) / 2)).timer.expire ≤ (b hole).timer.expire from hle)]
          exact (run_bind_of_ok (setSlot_run (hhole.trans_le h.room) _) _).trans hrun

/-- Allocating a timer at a free address keeps the heap. -/
theorem Heaped.newTimer (h : Heaped s held) {x : Nat} (hx : s.timers x = none) (t : HeapTimer) :
    Heaped { s with timers := Function.update s.timers x (some t) } held := by
  obtain ⟨hnodup, b, hb, hperm⟩ := h
  refine ⟨hnodup, b, ⟨⟨hb.holds.room, hb.holds.slots, ?_⟩, hb.order⟩, hperm⟩
  intro i hi
  have hst := hb.holds.stored i hi
  refine (Function.update_of_ne ?_ _ _).trans hst
  rintro rfl
  rw [hx] at hst
  cases hst

/-- A timer at a free address is not in the heap. -/
theorem Heaped.fresh (h : Heaped s held) {x : Nat} (hx : s.timers x = none) :
    x ∉ held.map HeapEntry.id := by
  intro hmem
  obtain ⟨e, he, rfl⟩ := List.mem_map.mp hmem
  obtain ⟨b, hb, hperm⟩ := h.heap
  obtain ⟨i, hi, rfl⟩ := mem_slots.mp (hperm.mem_iff.mpr he)
  rw [hb.holds.stored i hi] at hx
  cases hx

/-- `resize` makes the array twice as large and keeps the entries. -/
theorem resize_ends (h : HeapOf s b) (hcap : 0 < s.capacity)
    (hstops : INT_MAX < 2 * s.capacity → stops .overflow) :
    Ends stops (resize.run s) fun _ s' =>
      HeapOf s' b ∧ s'.cur_size = s.cur_size ∧ s'.cur_size < s'.capacity ∧
        s'.timers = s.timers ∧ s'.calls = s.calls := by
  have hroom := h.holds.room
  refine .next (run_get s) (.intValue hstops ?_)
  rw [if_pos hroom]
  refine .of_ok rfl ⟨⟨⟨?_, ?_, h.holds.stored⟩, h.order⟩, rfl, ?_, rfl, rfl⟩
  · show s.cur_size ≤ 2 * s.capacity
    omega
  · intro i hi
    exact (if_pos hi).trans (h.holds.slots i hi)
  · show s.cur_size < 2 * s.capacity
    omega

/-- A timer is put behind the others and rises to its place. -/
theorem insert_run (fuel : Nat) (h : HeapOf s b) (hnodup : (held.map HeapEntry.id).Nodup)
    (hperm : (slots s.cur_size b).Perm held) (hroom : s.cur_size < s.capacity)
    (hst : s.timers e.id = some e.timer) (he : e.id ∉ held.map HeapEntry.id)
    (hfuel : held.length < fuel) :
    ∃ s', (do
        modify fun t => { t with cur_size := t.cur_size + 1 }
        let hole ← siftLoop (some e.id) fuel s.cur_size
        setSlot hole (some e.id) : Exec TimeHeap Unit).run s = .ok ((), s') ∧
      Heaped s' (e :: held) ∧ s'.timers = s.timers ∧ s'.calls = s.calls ∧
      s'.capacity = s.capacity := by
  have hbelow : ∀ i, i < s.cur_size → Function.update b s.cur_size e i = b i :=
    fun i hi => Function.update_of_ne (Nat.ne_of_lt hi) e b
  have hlen : s.cur_size = held.length := by rw [← hperm.length_eq, slots_length]
  have hhollow : Hollow { s with cur_size := s.cur_size + 1 } (Function.update b s.cur_size e)
      s.cur_size := by
    refine ⟨hroom, ?_, ?_⟩
    · intro i hi hne
      have hlt : i < s.cur_size := Nat.lt_of_le_of_ne (Nat.le_of_lt_succ hi) hne
      rw [hbelow i hlt]
      exact h.holds.slots i hlt
    · intro i hi
      by_cases hne : i = s.cur_size
      · rw [hne, Function.update_self]
        exact hst
      · have hlt : i < s.cur_size := Nat.lt_of_le_of_ne (Nat.le_of_lt_succ hi) hne
        rw [hbelow i hlt]
        exact h.holds.stored i hlt
  have hrise : Rising (s.cur_size + 1) s.cur_size (expires (Function.update b s.cur_size e)) :=
    .start h.order fun i hi => congrArg HeapEntry.expire (hbelow i hi)
  obtain ⟨hole, s', b', hrun, hs', h', hhole, hb', horder, hperm'⟩ :=
    siftLoop_run fuel _ _ _ hhollow (Nat.lt_succ_self _) (by rw [hlen]; exact hfuel) hrise
  rw [Function.update_self] at hrun hb'
  have hset := setSlot_run (s := s') (i := hole)
    (by rw [hs'.capacity]; exact hhole.trans_le hroom) (some e.id)
  refine ⟨_, (run_bind_of_ok rfl _).trans ((run_bind_of_ok hrun _).trans hset),
    ⟨List.nodup_cons.mpr ⟨he, hnodup⟩, b', ⟨?_, ?_⟩, ?_⟩, hs'.timers, hs'.calls, hs'.capacity⟩
  · rw [← hb']
    exact h'.fill
  · show HeapFrom 0 s'.cur_size _
    rw [hs'.cur_size]
    exact horder
  · show (slots s'.cur_size b').Perm _
    rw [hs'.cur_size]
    exact hperm'.trans ((slots_push s.cur_size b e).trans (hperm.cons e))

/-- `add_timer` puts a timer in memory into an array that has room. -/
theorem add_timer_run_room {fuel : Nat} (h : Heaped s held) (hroom : s.cur_size < s.capacity)
    (hst : s.timers e.id = some e.timer) (he : e.id ∉ held.map HeapEntry.id)
    (hfuel : held.length < fuel) :
    ∃ s', (add_timer fuel (some e.id)).run s = .ok ((), s') ∧ Heaped s' (e :: held) ∧
      s'.timers = s.timers ∧ s'.calls = s.calls ∧ s'.capacity = s.capacity := by
  obtain ⟨hnodup, b, hb, hperm⟩ := h
  obtain ⟨s', hrun, h'⟩ := insert_run fuel hb hnodup hperm hroom hst he hfuel
  refine ⟨s', ?_, h'⟩
  rw [add_timer, if_neg (Option.some_ne_none _)]
  apply (run_bind_of_ok (run_get s) _).trans
  rw [if_neg (not_le.mpr hroom)]
  exact (run_bind_of_ok (a := ()) (t := s) rfl _).trans hrun

/-- A full array whose doubled capacity is no `int` cannot grow. -/
theorem add_timer_run_overflow {x : Nat} (fuel : Nat) (hfull : s.capacity ≤ s.cur_size)
    (hmax : INT_MAX < 2 * s.capacity) :
    (add_timer fuel (some x)).run s = .error .overflow := by
  have hresize : resize.run s = .error .overflow := by
    apply (run_bind_of_ok (run_get s) _).trans
    exact run_bind_of_error (intValue_run_overflow hmax s) _
  rw [add_timer, if_neg (Option.some_ne_none x)]
  apply (run_bind_of_ok (run_get s) _).trans
  rw [if_pos hfull]
  exact run_bind_of_error hresize _

/-- `add_timer` puts a timer in memory into the heap, after doubling the array when it is full. -/
theorem add_timer_ends {fuel : Nat} (h : Heaped s held) (hcap : 0 < s.capacity)
    (hst : s.timers e.id = some e.timer) (he : e.id ∉ held.map HeapEntry.id)
    (hfuel : held.length < fuel)
    (hstops : s.capacity ≤ s.cur_size → INT_MAX < 2 * s.capacity → stops .overflow) :
    Ends stops ((add_timer fuel (some e.id)).run s) fun _ s' =>
      Heaped s' (e :: held) ∧ s'.timers = s.timers ∧ s'.calls = s.calls ∧ 0 < s'.capacity := by
  by_cases hfull : s.capacity ≤ s.cur_size
  · -- the array is full
    obtain ⟨hnodup, b, hb, hperm⟩ := h
    rw [add_timer, if_neg (Option.some_ne_none _)]
    refine .next (run_get s) ?_
    rw [if_pos hfull]
    refine .bind (resize_ends hb hcap (hstops hfull)) ?_
    rintro - s₁ ⟨hb₁, hsize, hroom₁, htimers, hcalls⟩
    obtain ⟨s', hrun, h', htimers', hcalls', hcap'⟩ := insert_run fuel hb₁ hnodup
      (by rw [hsize]; exact hperm) hroom₁ (by rw [htimers]; exact hst) he hfuel
    rw [hsize] at hrun
    refine .of_ok hrun ⟨h', htimers'.trans htimers, hcalls'.trans hcalls, ?_⟩
    rw [hcap']
    exact Nat.zero_lt_of_lt hroom₁
  · obtain ⟨s', hrun, h', htimers', hcalls', hcap'⟩ :=
      add_timer_run_room h (not_le.mp hfull) hst he hfuel
    refine .of_ok hrun ⟨h', htimers', hcalls', ?_⟩
    rw [hcap']
    exact hcap

/-- `del_timer` takes the callback of a timer away and leaves everything else. -/
theorem del_timer_run (h : Heaped s held) {x : Nat} {t : HeapTimer} (hx : s.timers x = some t) :
    ∃ s', (del_timer (some x)).run s = .ok ((), s') ∧ Heaped s' (held.map (HeapEntry.mute x)) ∧
      s'.calls = s.calls ∧ s'.capacity = s.capacity := by
  obtain ⟨hnodup, b, hb, hperm⟩ := h
  refine ⟨{ s with timers := Function.update s.timers x (some { t with cb_func := none }) },
    run_bind_of_ok (deref_run hx) _, ?_, rfl, rfl⟩
  refine ⟨?_, fun i => (b i).mute x, ⟨⟨hb.holds.room, ?_, ?_⟩, ?_⟩, ?_⟩
  · have hid : HeapEntry.id ∘ HeapEntry.mute x = HeapEntry.id :=
      funext fun e => HeapEntry.mute_id x e
    rwa [List.map_map, hid]
  · intro i hi
    rw [HeapEntry.mute_id]
    exact hb.holds.slots i hi
  · intro i hi
    have hst := hb.holds.stored i hi
    rw [HeapEntry.mute_id]
    by_cases hix : (b i).id = x
    · -- the slot of the timer that is deleted, if it has one
      rw [hix, hx, Option.some.injEq] at hst
      rw [HeapEntry.mute, if_pos hix, hix, hst]
      exact Function.update_self ..
    · rw [HeapEntry.mute, if_neg hix]
      exact (Function.update_of_ne hix _ _).trans hst
  · -- the expiry times are those of before
    have hexpires : expires (fun i => (b i).mute x) = expires b :=
      funext fun i => HeapEntry.mute_expire _ _
    rw [hexpires]
    exact hb.order
  · have hmap : slots s.cur_size (fun i => (b i).mute x) =
        (slots s.cur_size b).map (HeapEntry.mute x) := by
      rw [slots, slots, List.map_map]
      rfl
    show (slots s.cur_size _).Perm _
    rw [hmap]
    exact hperm.map _

end Add

/-! ## Ticks -/

section Tick

variable {s : TimeHeap} {held : List HeapEntry} {e : HeapEntry} {cur : Int} {stops : Halt → Prop}

/-- The callback of a timer in memory is called, unless it is null. -/
theorem callTimer_run (h : s.timers e.id = some e.timer) :
    (callTimer (some e.id)).run s =
      .ok ((), { s with calls := s.calls ++ e.call.toList }) := by
  rw [callTimer, run_bind_of_ok (deref_run h)]
  obtain ⟨id, expire, cb_func, user_data⟩ := e
  cases cb_func with
  | none => simp [HeapEntry.timer, HeapEntry.call]
  | some f => rfl

/-- Calls do not touch the heap. -/
theorem Heaped.withCalls (h : Heaped s held) (calls : List Call) :
    Heaped { s with calls := calls } held :=
  ⟨h.nodup, h.heap.imp fun _ hb => ⟨⟨⟨hb.1.holds.room, hb.1.holds.slots, hb.1.holds.stored⟩,
    hb.1.order⟩, hb.2⟩⟩

/-- What a tick at the time `cur` does to a heap of the entries `held`: `fired` are taken out, in
their order of expiry, and `rest` stay. -/
structure Ticked (s s' : TimeHeap) (cur : Int) (held fired rest : List HeapEntry) : Prop where
  split : held.Perm (fired ++ rest)
  ascending : fired.Pairwise fun a b => a.expire ≤ b.expire
  due : ∀ e ∈ fired, e.expire ≤ cur
  pending : ∀ e ∈ rest, cur < e.expire
  heaped : Heaped s' rest
  calls : s'.calls = s.calls ++ fired.filterMap HeapEntry.call
  freed : ∀ e ∈ fired, s'.timers e.id = none
  unborn : ∀ x, s.timers x = none → s'.timers x = none
  capacity : s'.capacity = s.capacity

/-- When no timer is due, nothing happens. -/
theorem Ticked.nothing (h : Heaped s held) (hpending : ∀ e ∈ held, cur < e.expire) :
    Ticked s s cur held [] held where
  split := .refl _
  ascending := .nil
  due e he := by cases he
  pending := hpending
  heaped := h
  calls := (List.append_nil _).symm
  freed e he := by cases he
  unborn x hx := hx
  capacity := rfl

/-- One timer fires before the others. -/
theorem Ticked.cons {s₁ s' : TimeHeap} {held₁ fired rest : List HeapEntry}
    (hperm : held.Perm (e :: held₁)) (hmin : ∀ e' ∈ held, e.expire ≤ e'.expire)
    (hdue : e.expire ≤ cur) (htimers : s₁.timers = Function.update s.timers e.id none)
    (hcalls : s₁.calls = s.calls ++ e.call.toList) (hcap : s₁.capacity = s.capacity)
    (h : Ticked s₁ s' cur held₁ fired rest) : Ticked s s' cur held (e :: fired) rest where
  split := hperm.trans (h.split.cons e)
  ascending := by
    refine List.pairwise_cons.mpr ⟨?_, h.ascending⟩
    intro e' he'
    -- those fired later were in the heap
    refine hmin e' (hperm.mem_iff.mpr (List.mem_cons_of_mem _ ?_))
    exact h.split.mem_iff.mpr (List.mem_append_left _ he')
  due e' he' := by
    rcases List.mem_cons.mp he' with rfl | he'
    · exact hdue
    · exact h.due e' he'
  pending := h.pending
  heaped := h.heaped
  calls := by
    rw [h.calls, hcalls, List.append_assoc]
    cases hc : e.call <;> simp [hc]
  freed e' he' := by
    rcases List.mem_cons.mp he' with rfl | he'
    · apply h.unborn _
      rw [htimers, Function.update_self]
    · exact h.freed e' he'
  unborn x hx := by
    apply h.unborn x
    rw [htimers]
    by_cases hxe : x = e.id
    · rw [hxe, Function.update_self]
    · rw [Function.update_of_ne hxe, hx]
  capacity := h.capacity.trans hcap

/-- The loop of `tick` fires the timers that are due. The induction is on the turns, of which there
are more than entries. -/
theorem tickLoop_ends (fuel : Nat) :
    ∀ (s : TimeHeap) (held : List HeapEntry), Heaped s held → 0 < s.capacity →
      held.length < fuel → (2 ^ 30 < held.length → stops .overflow) →
      Ends stops ((tickLoop cur fuel (s.array 0)).run s)
        fun _ s' => ∃ fired rest, Ticked s s' cur held fired rest := by
  induction fuel with
  | zero =>
      intro s held _ _ hfuel _
      exact absurd hfuel (Nat.not_lt_zero _)
  | succ fuel ih =>
      intro s held h hcap hfuel hstops
      refine .next (empty_run s) ?_
      by_cases hempty : held = []
      · -- the heap is empty
        rw [if_pos (by rw [h.cur_size, hempty]; rfl)]
        refine .of_ok rfl ⟨[], held, .nothing h ?_⟩
        intro e he
        rw [hempty] at he
        cases he
      · have hsize : s.cur_size ≠ 0 := by
          rw [h.cur_size]
          exact Nat.ne_of_gt (List.length_pos_of_ne_nil hempty)
        obtain ⟨e, he, harray, hst, -, hmin⟩ := h.first hempty
        rw [if_neg (by simpa using hsize), harray, if_neg (Option.some_ne_none _)]
        refine .next (deref_run hst) ?_
        by_cases hlt : cur < e.expire
        · -- the first timer is not due, and so is none of the others
          rw [if_pos (show cur < e.timer.expire from hlt)]
          exact .of_ok rfl ⟨[], held, .nothing h fun e' he' => hlt.trans_le (hmin e' he')⟩
        · rw [if_neg (show ¬ cur < e.timer.expire from hlt)]
          have hslot : (slot 0).run s = .ok (some e.id, s) := by rw [slot_run hcap, harray]
          refine .next hslot (.next (callTimer_run hst) ?_)
          refine .bind (pop_timer_ends (h.withCalls _) hempty (Nat.le_of_lt_succ hfuel) hstops) ?_
          rintro - s₁ ⟨e₁, held₁, hperm, harray₁, hmin₁, h₁, htimers, hcalls, hcap₁⟩
          have hid : e₁.id = e.id := Option.some.inj (harray₁.symm.trans harray)
          have hee : e₁ = e :=
            List.inj_on_of_nodup_map h.nodup (hperm.mem_iff.mpr (List.mem_cons_self ..)) he hid
          subst hee
          have hcap' : 0 < s₁.capacity := by
            rw [hcap₁]
            exact hcap
          have hlen := hperm.length_eq
          rw [List.length_cons] at hlen
          have hih := ih s₁ held₁ h₁ hcap' (by omega) fun hn => hstops (by omega)
          refine .next (slot_run hcap') (hih.mono ?_)
          rintro - s' ⟨fired, rest, hticked⟩
          exact ⟨e₁ :: fired, rest,
            hticked.cons hperm hmin (not_lt.mp hlt) htimers hcalls hcap₁⟩

theorem tick_ends {fuel : Nat} (h : Heaped s held) (hcap : 0 < s.capacity)
    (hfuel : held.length < fuel) (hstops : 2 ^ 30 < held.length → stops .overflow) :
    Ends stops ((tick cur fuel).run s) fun _ s' =>
      ∃ fired rest, Ticked s s' cur held fired rest :=
  .next (slot_run hcap) (tickLoop_ends fuel s held h hcap hfuel hstops)

end Tick

/-! ## Construction -/

section Construction

variable {s : TimeHeap} {b : Nat → HeapEntry} {init : List HeapEntry} {stops : Halt → Prop}

theorem ofCapacity_run (s : TimeHeap) (cap : Nat) :
    ∃ s', (ofCapacity cap).run s = .ok ((), s') ∧ Heaped s' [] ∧ s'.capacity = cap ∧
      s'.calls = s.calls :=
  ⟨_, rfl, heaped_of_empty rfl, rfl, rfl⟩

/-- The loop of the second constructor puts one parent after the other in order. The induction is on
the slot. -/
theorem heapify_ends {fuel : Nat} (i : Nat) :
    ∀ (s : TimeHeap) (b : Nat → HeapEntry), Holds s b → i < s.cur_size → s.cur_size ≤ fuel →
      HeapFrom (i + 1) s.cur_size (expires b) → (2 ^ 30 < s.cur_size → stops .overflow) →
      Ends stops ((heapify fuel i).run s) fun _ s' =>
        ∃ b', Rearranged s s' ∧ HeapOf s' b' ∧ (slots s.cur_size b').Perm (slots s.cur_size b) := by
  induction i with
  | zero =>
      intro s b h hi hfuel horder hstops
      apply (percolate_down_ends h hi hfuel horder hstops).mono
      rintro - s' ⟨b', hs', h', horder', hperm⟩
      refine ⟨b', hs', ⟨h', ?_⟩, hperm⟩
      rw [hs'.cur_size]
      exact horder'
  | succ i ih =>
      intro s b h hi hfuel horder hstops
      -- the last parent first, then those in front of it
      refine .bind (percolate_down_ends h hi hfuel horder hstops) ?_
      rintro - s₁ ⟨b₁, hs₁, h₁, horder₁, hperm₁⟩
      have hih := ih s₁ b₁ h₁ (by rw [hs₁.cur_size]; omega) (by rw [hs₁.cur_size]; exact hfuel)
        (by rw [hs₁.cur_size]; exact horder₁) (by rw [hs₁.cur_size]; exact hstops)
      rw [hs₁.cur_size] at hih
      apply hih.mono
      rintro - s' ⟨b', hs', h', hperm⟩
      exact ⟨b', hs₁.trans hs', h', hperm.trans hperm₁⟩

theorem slots_getD (init : List HeapEntry) (d : HeapEntry) :
    slots init.length (fun i => init.getD i d) = init := by
  apply List.ext_getElem (by simp)
  intro i h₁ h₂
  simp [slots, h₂]

/-- The second constructor makes a heap of the timers it is given. -/
theorem ofArray_ends {fuel capacity : Nat} (hst : ∀ e ∈ init, s.timers e.id = some e.timer)
    (hnodup : (init.map HeapEntry.id).Nodup) (hcap : init.length ≤ capacity)
    (hfuel : init.length ≤ fuel) (hstops : 2 ^ 30 < init.length → stops .overflow) :
    Ends stops
      ((ofArray fuel (fun i => (init[i]?).map HeapEntry.id) init.length capacity).run s)
      fun _ s' => Heaped s' init ∧ s'.capacity = capacity ∧ s'.timers = s.timers ∧
        s'.calls = s.calls := by
  have hslots := slots_getD init ⟨0, 0, none, 0⟩
  have hholds : Holds { s with
      array := fun i => if i < init.length then (init[i]?).map HeapEntry.id else none
      capacity := capacity
      cur_size := init.length } (fun i => init.getD i ⟨0, 0, none, 0⟩) := by
    refine ⟨hcap, ?_, ?_⟩
    · intro i hi
      have hi' : i < init.length := hi
      apply (if_pos hi').trans
      simp [hi']
    · intro i hi
      have hi' : i < init.length := hi
      have hget : init.getD i ⟨0, 0, none, 0⟩ = init[i] := by simp [hi']
      rw [hget]
      exact hst _ (List.getElem_mem hi')
  rw [ofArray, if_neg (not_lt.mpr hcap)]
  refine .next rfl ?_
  by_cases hzero : init.length = 0
  · -- without timers there is no parent to put in order
    rw [if_pos hzero]
    refine .of_ok rfl ⟨⟨hnodup, _, ⟨hholds, ?_⟩, ?_⟩, rfl, rfl, rfl⟩
    · exact .of_half (by show init.length ≤ _; omega)
    · show (slots init.length _).Perm _
      rw [hslots]
  · rw [if_neg hzero]
    refine (heapify_ends ((init.length - 1) / 2) _ _ hholds
      (by show _ < init.length; omega) hfuel
      (.of_half (by show init.length ≤ _; omega)) hstops).mono ?_
    rintro - s' ⟨b', hs', h', hperm⟩
    refine ⟨⟨hnodup, b', h', ?_⟩, hs'.capacity, hs'.timers, hs'.calls⟩
    rw [hs'.cur_size]
    apply hperm.trans
    show (slots init.length _).Perm _
    rw [hslots]

end Construction

end TimeHeap

end CLanguageLearning.Timer
