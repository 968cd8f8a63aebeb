import CLanguageLearning.Chat.ShmMessages

/-!
# The blocks that the clients are sent

What lies in the shared memory of `13-4shm_talk_server.cpp` while the messages are on their way, and
what a child copies out of it. A region is cleared and written byte by byte by one child and copied
byte by byte by the others. `Region` says what it holds at each point of its writer, and `Blocks`
what its readers have got; `relayed` puts this together with the order of the notices.
-/

set_option autoImplicit false

namespace CLanguageLearning.Chat

open CLanguageLearning.Foundation

namespace TalkMessages

/-- A byte of the region of a child. -/
def cell (s : TalkMessages) (k q : Nat) : UInt8 := s.share_mem (k * BUFFER_SIZE + q)

/-- A message as it lies in its region, with zeros after it. -/
def padded (message : List UInt8) (q : Nat) : UInt8 := message[q]?.getD 0

section Memory

variable {s t : TalkMessages} {e : MessageEvent} {j k : Nat}

theorem offset_inj {i p q : Nat} (hp : p < BUFFER_SIZE) (hq : q < BUFFER_SIZE)
    (h : k * BUFFER_SIZE + q = i * BUFFER_SIZE + p) : k = i ∧ q = p := by
  rw [BUFFER_SIZE] at *
  omega

/-- A write leaves the other regions, and the other bytes, alone. -/
theorem cell_write_of_ne {i p q : Nat} {b : UInt8} (hp : p < BUFFER_SIZE) (hq : q < BUFFER_SIZE)
    (hne : k ≠ i ∨ q ≠ p) : (s.write i p b).cell k q = s.cell k q := by
  have hoffset : k * BUFFER_SIZE + q ≠ i * BUFFER_SIZE + p := by
    intro h
    obtain ⟨rfl, rfl⟩ := offset_inj hp hq h
    exact hne.elim (· rfl) (· rfl)
  simp only [cell, write, Function.update_of_ne hoffset]

theorem cell_write_self {i p : Nat} {b : UInt8} : (s.write i p b).cell i p = b := by
  simp only [cell, write, Function.update_self]

/-- What the region of a child holds, by what the child is doing. -/
structure Region (s : TalkMessages) (k : Nat) : Prop where
  mixed : ∀ m, (s.stored k).getLast? = some m → ∀ q, q < BUFFER_SIZE →
    s.cell k q = 0 ∨ s.cell k q = padded m q
  clearing : ∀ p, s.child k = .clearing p → s.intact k = false ∧
    ∀ q, q < p → q < BUFFER_SIZE → s.cell k q = 0
  storing : ∀ m p, s.child k = .storing m p → (s.stored k).getLast? = some m ∧ s.intact k = true ∧
    m.length < BUFFER_SIZE ∧ p ≤ m.length ∧
      ∀ q, q < BUFFER_SIZE → s.cell k q = if q < p then padded m q else 0
  whole : s.intact k = true → (∀ m p, s.child k ≠ .storing m p) → ∃ m,
    (s.stored k).getLast? = some m ∧ ∀ q, q < BUFFER_SIZE → s.cell k q = padded m q

theorem Region.congr (h : s.Region k) (hclearing : ∀ p, t.child k = .clearing p →
      s.child k = .clearing p) (hstoring : ∀ m p, t.child k = .storing m p ↔ s.child k = .storing m p)
    (hstored : t.stored k = s.stored k) (hintact : t.intact k = s.intact k)
    (hcell : ∀ q, q < BUFFER_SIZE → t.cell k q = s.cell k q) : t.Region k := by
  constructor
  case mixed =>
    intro m hm q hq
    rw [hstored] at hm
    rw [hcell q hq]
    exact h.mixed m hm q hq
  case clearing =>
    intro p hp
    obtain ⟨hno, hzero⟩ := h.clearing p (hclearing p hp)
    refine ⟨hintact.trans hno, fun q hqp hq => ?_⟩
    rw [hcell q hq]
    exact hzero q hqp hq
  case storing =>
    intro m p hp
    obtain ⟨hlast, hyes, hlength, hle, hbytes⟩ := h.storing m p ((hstoring m p).mp hp)
    refine ⟨hstored ▸ hlast, hintact.trans hyes, hlength, hle, fun q hq => ?_⟩
    rw [hcell q hq]
    exact hbytes q hq
  case whole =>
    intro hyes hno
    obtain ⟨m, hlast, hbytes⟩ := h.whole (hintact ▸ hyes) fun m p => mt (hstoring m p).mpr (hno m p)
    refine ⟨m, hstored ▸ hlast, fun q hq => ?_⟩
    rw [hcell q hq]
    exact hbytes q hq

theorem Region.clear {p : Nat} (h : s.Region k) (hpoint : s.child k = .clearing p)
    (hp : p < BUFFER_SIZE) : ((s.write k p 0).setChild k (.clearing (p + 1))).Region k := by
  obtain ⟨hno, hzero⟩ := h.clearing p hpoint
  have hcell : ∀ q, q < BUFFER_SIZE → q ≠ p → (s.write k p 0).cell k q = s.cell k q :=
    fun q hq hne => cell_write_of_ne hp hq (Or.inr hne)
  constructor
  case mixed =>
    intro m hm q hq
    show (s.write k p 0).cell k q = 0 ∨ _
    by_cases hqp : q = p
    · rw [hqp]
      exact Or.inl cell_write_self
    · show _ ∨ (s.write k p 0).cell k q = _
      rw [hcell q hq hqp]
      exact h.mixed m hm q hq
  case clearing =>
    intro p' hp'
    obtain rfl : p + 1 = p' := by simpa [setChild] using hp'
    refine ⟨hno, fun q hqp hq => ?_⟩
    show (s.write k p 0).cell k q = 0
    by_cases hqe : q = p
    · rw [hqe]
      exact cell_write_self
    · rw [hcell q hq hqe]
      exact hzero q (by omega) hq
  case storing =>
    intro m p' hp'
    simp [setChild] at hp'
  case whole =>
    intro hyes
    exact absurd (hno.symm.trans hyes) (by decide)

theorem Region.recv {p : Nat} {message : List UInt8} (h : s.Region k)
    (hpoint : s.child k = .clearing p) (hp : BUFFER_SIZE ≤ p)
    (hlength : message.length < BUFFER_SIZE) :
    Region { s.setChild k (.storing message 0) with
      stored := Function.update s.stored k (s.stored k ++ [message])
      intact := Function.update s.intact k true } k := by
  obtain ⟨-, hzero⟩ := h.clearing p hpoint
  constructor
  case mixed => exact fun m _ q hq => Or.inl (hzero q (by omega) hq)
  case clearing =>
    intro p' hp'
    simp [setChild] at hp'
  case storing =>
    intro m p' hp'
    obtain ⟨rfl, rfl⟩ : message = m ∧ 0 = p' := by simpa [setChild] using hp'
    refine ⟨by simp, Function.update_self _ _ _, hlength, Nat.zero_le _, fun q hq => ?_⟩
    rw [if_neg (Nat.not_lt_zero q)]
    exact hzero q (by omega) hq
  case whole =>
    intro _ hno
    exact absurd (Function.update_self _ _ _) (hno message 0)

theorem Region.store {p : Nat} {message : List UInt8} {b : UInt8} (h : s.Region k)
    (hpoint : s.child k = .storing message p) (hb : message[p]? = some b) :
    ((s.write k p b).setChild k (.storing message (p + 1))).Region k := by
  obtain ⟨hlast, hyes, hlength, hle, hbytes⟩ := h.storing message p hpoint
  have hpm : p < message.length := (List.getElem?_eq_some_iff.mp hb).1
  have hp : p < BUFFER_SIZE := hpm.trans hlength
  have hnew : ∀ q, q < BUFFER_SIZE →
      (s.write k p b).cell k q = if q < p + 1 then padded message q else 0 := by
    intro q hq
    by_cases hqp : q = p
    · rw [hqp, cell_write_self, if_pos (Nat.lt_succ_self p), padded, hb]
      rfl
    · have hlt : q < p + 1 ↔ q < p := by omega
      rw [cell_write_of_ne hp hq (Or.inr hqp), hbytes q hq]
      simp only [hlt]
  constructor
  case mixed =>
    intro m hm q hq
    cases hlast.symm.trans hm
    show (s.write k p b).cell k q = 0 ∨ (s.write k p b).cell k q = _
    rw [hnew q hq]
    split
    · exact Or.inr rfl
    · exact Or.inl rfl
  case clearing =>
    intro p' hp'
    simp [setChild] at hp'
  case storing =>
    intro m p' hp'
    obtain ⟨rfl, rfl⟩ : message = m ∧ p + 1 = p' := by simpa [setChild] using hp'
    exact ⟨hlast, hyes, hlength, hpm, hnew⟩
  case whole =>
    intro _ hno
    exact absurd (Function.update_self _ _ _) (hno message (p + 1))

/-- A message that is stored to its end lies in the region as a whole. -/
theorem Region.stored {p : Nat} {message : List UInt8} (h : s.Region k)
    (hpoint : s.child k = .storing message p) (hp : message.length ≤ p)
    (hwaiting : t.child k = .waiting) (hstored : t.stored k = s.stored k)
    (hcell : ∀ q, t.cell k q = s.cell k q) : t.Region k := by
  obtain ⟨hlast, hyes, hlength, hle, hbytes⟩ := h.storing message p hpoint
  have hwhole : ∀ q, q < BUFFER_SIZE → t.cell k q = padded message q := by
    intro q hq
    rw [hcell, hbytes q hq]
    split
    · rfl
    · rw [padded, List.getElem?_eq_none (by omega), Option.getD_none]
  constructor
  case mixed =>
    intro m hm q hq
    rw [hstored, hlast] at hm
    cases hm
    exact Or.inr (hwhole q hq)
  case clearing =>
    intro p' hp'
    cases hwaiting.symm.trans hp'
  case storing =>
    intro m p' hp'
    cases hwaiting.symm.trans hp'
  case whole => exact fun _ _ => ⟨message, hstored ▸ hlast, hwhole⟩

/-- A step of one process leaves the other children and their regions alone. -/
theorem frame (hregion : ∀ i, s.Region i) (h : s.Moves e t) (hactor : e.actor ≠ some k)
    (hk : k ≠ s.tables.user_count ∨ t.tables.user_count = s.tables.user_count) :
    t.child k = s.child k ∧ t.stored k = s.stored k ∧ t.intact k = s.intact k ∧
      t.sent k = s.sent k ∧ ∀ q, q < BUFFER_SIZE → t.cell k q = s.cell k q := by
  have hne : ∀ {i : Nat}, some i ≠ some k → k ≠ i := fun h hki => h (congrArg some hki.symm)
  cases h with
  | joined hparent hfresh htables =>
      rcases hk with hk | hcount
      · exact ⟨Function.update_of_ne hk _ _, Function.update_of_ne hk _ _,
          Function.update_of_ne hk _ _, Function.update_of_ne hk _ _, fun _ _ => rfl⟩
      · exact absurd hcount (Nat.succ_ne_self _)
  | @readable idx hidx hpoint =>
      exact ⟨Function.update_of_ne (hne hactor) _ _, rfl, Function.update_of_ne (hne hactor) _ _,
        rfl, fun _ _ => rfl⟩
  | @clear idx p hpoint hp =>
      refine ⟨Function.update_of_ne (hne hactor) _ _, rfl, rfl, rfl, fun q hq => ?_⟩
      show (s.write idx p 0).cell k q = _
      exact cell_write_of_ne hp hq (Or.inl (hne hactor))
  | again hpoint => exact ⟨Function.update_of_ne (hne hactor) _ _, rfl, rfl, rfl, fun _ _ => rfl⟩
  | recv hpoint hp hmessage hlength =>
      exact ⟨Function.update_of_ne (hne hactor) _ _, Function.update_of_ne (hne hactor) _ _,
        Function.update_of_ne (hne hactor) _ _, rfl, fun _ _ => rfl⟩
  | @store idx p message b hpoint hb =>
      obtain ⟨-, -, hlength, -⟩ := (hregion idx).storing message p hpoint
      have hp : p < BUFFER_SIZE := (List.getElem?_eq_some_iff.mp hb).1.trans hlength
      refine ⟨Function.update_of_ne (hne hactor) _ _, rfl, rfl, rfl, fun q hq => ?_⟩
      show (s.write idx p b).cell k q = _
      exact cell_write_of_ne hp hq (Or.inl (hne hactor))
  | announce hpoint hp =>
      exact ⟨Function.update_of_ne (hne hactor) _ _, rfl, rfl, rfl, fun _ _ => rfl⟩
  | announceFull hpoint hp =>
      exact ⟨Function.update_of_ne (hne hactor) _ _, rfl, rfl, rfl, fun _ _ => rfl⟩
  | notified hpoint hpipe hidx =>
      exact ⟨Function.update_of_ne (hne hactor) _ _, rfl, rfl, rfl, fun _ _ => rfl⟩
  | copy hpoint hlength =>
      exact ⟨Function.update_of_ne (hne hactor) _ _, rfl, rfl, rfl, fun _ _ => rfl⟩
  | sent hpoint hlength htaken =>
      exact ⟨Function.update_of_ne (hne hactor) _ _, rfl, rfl, Function.update_of_ne (hne hactor) _ _,
        fun _ _ => rfl⟩
  | _ => exact ⟨rfl, rfl, rfl, rfl, fun _ _ => rfl⟩

theorem Region.join (h : s.Region k) (tables : TalkServer) : (s.join tables).Region k := by
  by_cases hk : k = s.tables.user_count
  · subst hk
    constructor
    case mixed =>
      intro m hm
      simp [TalkMessages.join] at hm
    case clearing =>
      intro p hp
      simp [TalkMessages.join] at hp
    case storing =>
      intro m p hp
      simp [TalkMessages.join] at hp
    case whole =>
      intro hyes
      simp [TalkMessages.join] at hyes
  · have hchild : (s.join tables).child k = s.child k := Function.update_of_ne hk _ _
    exact h.congr (fun p hp => hchild ▸ hp) (fun m p => by rw [hchild])
      (Function.update_of_ne hk _ _) (Function.update_of_ne hk _ _) fun _ _ => rfl

/-- What a step of the child itself does to its region. -/
theorem Region.act (h : s.Region k) (hmoves : s.Moves e t) (hactor : e.actor = some k) :
    t.Region k := by
  cases hmoves with
  | @readable idx hidx hpoint =>
      cases hactor
      constructor
      case mixed => exact h.mixed
      case clearing =>
        intro p hp
        obtain rfl : 0 = p := by simpa [setChild] using hp
        exact ⟨Function.update_self _ _ _, fun q hq => absurd hq (Nat.not_lt_zero q)⟩
      case storing =>
        intro m p hp
        simp [setChild] at hp
      case whole =>
        intro hyes
        simp at hyes
  | clear hpoint hp =>
      cases hactor
      exact h.clear hpoint hp
  | @again idx p hpoint =>
      cases hactor
      obtain ⟨hno, -⟩ := h.clearing p hpoint
      constructor
      case mixed => exact h.mixed
      case clearing =>
        intro p hp
        simp [setChild] at hp
      case storing =>
        intro m p hp
        simp [setChild] at hp
      case whole => exact fun hyes => absurd (hno.symm.trans hyes) (by decide)
  | recv hpoint hp hmessage hlength =>
      cases hactor
      exact h.recv hpoint hp hlength
  | store hpoint hb =>
      cases hactor
      exact h.store hpoint hb
  | announce hpoint hp =>
      cases hactor
      exact h.stored hpoint hp (Function.update_self _ _ _) rfl fun _ => rfl
  | announceFull hpoint hp =>
      cases hactor
      exact h.stored hpoint hp (Function.update_self _ _ _) rfl fun _ => rfl
  | notified hpoint hpipe hidx =>
      cases hactor
      exact h.congr (by simp [setChild]) (by simp [setChild, hpoint]) rfl rfl fun _ _ => rfl
  | copy hpoint hlength =>
      cases hactor
      exact h.congr (by simp [setChild]) (by simp [setChild, hpoint]) rfl rfl fun _ _ => rfl
  | sent hpoint hlength htaken =>
      cases hactor
      exact h.congr (by simp [setChild]) (by simp [setChild, hpoint]) rfl rfl fun _ _ => rfl
  | _ => cases hactor

/-- The regions keep what they say. -/
theorem region_moves (hregion : ∀ i, s.Region i) (h : s.Moves e t) (k : Nat) : t.Region k := by
  by_cases hactor : e.actor = some k
  · exact (hregion k).act h hactor
  · rcases tables_moves h with ⟨hcount, -⟩ | ⟨connfd, pipefd, pid, -, -, rfl⟩
    · obtain ⟨hchild, hstored, hintact, -, hcell⟩ := frame hregion h hactor (Or.inr hcount)
      exact (hregion k).congr (fun p hp => hchild ▸ hp) (fun m p => by rw [hchild]) hstored hintact
        hcell
    · exact (hregion k).join _

theorem region_start (k : Nat) : start.Region k where
  mixed := fun _ hm => by simp [start] at hm
  clearing := fun _ hp => by simp [start] at hp
  storing := fun _ _ hp => by simp [start] at hp
  whole := fun hyes => by simp [start] at hyes

/-- A step keeps the messages of a client. A region is made whole only by a new message. -/
theorem stored_moves (h : s.Moves e t) (hk : k < s.tables.user_count) :
    (t.stored k = s.stored k ∧ (t.intact k = true → s.intact k = true)) ∨
      ∃ m, t.stored k = s.stored k ++ [m] := by
  cases h with
  | joined hparent hfresh htables =>
      refine Or.inl ⟨Function.update_of_ne (Nat.ne_of_lt hk) _ _, fun hyes => ?_⟩
      exact (Function.update_of_ne (Nat.ne_of_lt hk) _ _).symm.trans hyes
  | @readable idx hidx hpoint =>
      refine Or.inl ⟨rfl, fun hyes => ?_⟩
      by_cases hki : k = idx
      · subst hki
        simp at hyes
      · exact (Function.update_of_ne hki _ _).symm.trans hyes
  | @recv idx p message hpoint hp hmessage hlength =>
      by_cases hki : k = idx
      · subst hki
        exact Or.inr ⟨message, Function.update_self _ _ _⟩
      · refine Or.inl ⟨Function.update_of_ne hki _ _, fun hyes => ?_⟩
        exact (Function.update_of_ne hki _ _).symm.trans hyes
  | _ => exact Or.inl ⟨rfl, id⟩

/-- Every byte of `block` is a zero or a byte of a message that is not older than `number`. -/
def Fresh (stored : List (List UInt8)) (number : Nat) (block : List UInt8) : Prop :=
  ∀ q b, block[q]? = some b →
    b = 0 ∨ ∃ v m, number ≤ v ∧ stored[v]? = some m ∧ b = padded m q

theorem Fresh.concat {stored : List (List UInt8)} {number : Nat} {block : List UInt8}
    (h : Fresh stored number block) (m : List UInt8) : Fresh (stored ++ [m]) number block := by
  intro q b hb
  rcases h q b hb with hzero | ⟨v, m', hv, hm', rfl⟩
  · exact Or.inl hzero
  · refine Or.inr ⟨v, m', hv, ?_, rfl⟩
    rw [List.getElem?_append_left (List.getElem?_eq_some_iff.mp hm').1]
    exact hm'

theorem Fresh.push {stored : List (List UInt8)} {number : Nat} {block : List UInt8}
    (h : Fresh stored number block) {m : List UInt8} {b : UInt8} (hlast : stored.getLast? = some m)
    (hnumber : number < stored.length) (hb : b = 0 ∨ b = padded m block.length) :
    Fresh stored number (block ++ [b]) := by
  intro q b' hb'
  rcases Nat.lt_trichotomy q block.length with hq | rfl | hq
  · rw [List.getElem?_append_left hq] at hb'
    exact h q b' hb'
  · rw [List.getElem?_concat_length] at hb'
    cases hb'
    refine hb.imp id fun hb => ⟨stored.length - 1, m, by omega, ?_, hb⟩
    rw [← List.getLast?_eq_getElem?]
    exact hlast
  · rw [List.getElem?_eq_none (by simp; omega)] at hb'
    cases hb'

/-- The blocks of a child: the one that it copies and those that it has handed to `send`. A block is
the message of its notice when no later one has got in between. -/
structure Blocks (s : TalkMessages) (j : Nat) : Prop where
  copying : ∀ n block, s.child j = .copying n block →
    block.length ≤ BUFFER_SIZE ∧ Fresh (s.stored n.client) n.number block
  exact : ∀ n block, s.child j = .copying n block → s.intact n.client = true →
    n.number + 1 = (s.stored n.client).length → ∃ m, (s.stored n.client).getLast? = some m ∧
      ∀ q b, block[q]? = some b → b = padded m q
  sent : ∀ b ∈ s.sent j, b.2.length = BUFFER_SIZE ∧ Fresh (s.stored b.1.client) b.1.number b.2

theorem mem_numbers {n : Notice} {l : List Notice} (h : n ∈ l) : n.number ∈ numbers n.client l := by
  rw [numbers]
  exact List.mem_map_of_mem (List.mem_filter.mpr ⟨h, by simp⟩)

/-- A notice names a message that was stored to its end. -/
theorem Ordered.notice (ho : s.Ordered) (ha : s.Addressed) (hj : j < s.tables.user_count)
    {n : Notice} (hn : n ∈ s.noticesTo j) (hne : n.client ≠ j) :
    n.client < s.tables.user_count ∧ n.number < (s.stored n.client).length ∧
      (n.number + 1 = (s.stored n.client).length → ∀ m p, s.child n.client ≠ .storing m p) := by
  have hclient := ha.others j n hn hj
  obtain ⟨hpair, hbound⟩ := ho.flow j n.client hj hclient hne.symm
  have hmem : n.number ∈ numbers n.client (s.noticesTo j) := mem_numbers hn
  refine ⟨hclient, hbound _ (List.mem_append_left _ hmem), fun hlast m p hpoint => ?_⟩
  -- the message that is being stored comes after it
  have hlater : (s.stored n.client).length - 1 ∈ s.unheard n.client := by
    rw [TalkMessages.unheard, hpoint]
    exact List.mem_append_right _ (List.mem_singleton_self _)
  have := (List.pairwise_append.mp hpair).2.2 _ hmem _ hlater
  omega

theorem mem_noticesTo_of_copying {n : Notice} {block : List UInt8}
    (h : s.child j = .copying n block) : n ∈ s.noticesTo j := by
  simp [noticesTo, h, ChildPoint.held]

theorem Addressed.copying_ne (ha : s.Addressed) {n : Notice} {block : List UInt8}
    (h : s.child j = .copying n block) : n.client ≠ j :=
  ha.never j n (by simp [h, ChildPoint.held])

theorem Addressed.sent_ne (ha : s.Addressed) {b : Notice × List UInt8} (hb : b ∈ s.sent j) :
    b.1.client ≠ j :=
  ha.never j b.1 (List.mem_append_left _ (List.mem_map_of_mem hb))

theorem mem_noticesTo_of_sent {b : Notice × List UInt8} (hb : b ∈ s.sent j) :
    b.1 ∈ s.noticesTo j :=
  List.mem_append_left _ (List.mem_map_of_mem hb)

/-- A step that does not touch the blocks of a child keeps what they say. -/
theorem Blocks.mono (hblocks : s.Blocks j) (ha : s.Addressed) (ho : s.Ordered) (h : s.Moves e t)
    (hj : j < s.tables.user_count)
    (hchild : ∀ n block, t.child j = .copying n block → s.child j = .copying n block)
    (hsent : t.sent j = s.sent j) : t.Blocks j := by
  constructor
  case copying =>
    intro n block hpoint
    obtain ⟨hle, hfresh⟩ := hblocks.copying n block (hchild n block hpoint)
    refine ⟨hle, ?_⟩
    have hclient := ha.others j n (mem_noticesTo_of_copying (hchild n block hpoint)) hj
    rcases stored_moves h hclient with ⟨hsame, -⟩ | ⟨m, hmore⟩
    · rw [hsame]
      exact hfresh
    · rw [hmore]
      exact hfresh.concat m
  case exact =>
    intro n block hpoint hyes hlast
    have hn := mem_noticesTo_of_copying (hchild n block hpoint)
    obtain ⟨hclient, hbound, -⟩ := ho.notice ha hj hn (ha.copying_ne (hchild n block hpoint))
    rcases stored_moves h hclient with ⟨hsame, hintact⟩ | ⟨m, hmore⟩
    · rw [hsame] at hlast ⊢
      exact hblocks.exact n block (hchild n block hpoint) (hintact hyes) hlast
    · -- there is a later message now
      rw [hmore, List.length_append, List.length_singleton] at hlast
      omega
  case sent =>
    intro b hb
    rw [hsent] at hb
    obtain ⟨hlength, hfresh⟩ := hblocks.sent b hb
    refine ⟨hlength, ?_⟩
    rcases stored_moves h (ha.others j b.1 (mem_noticesTo_of_sent hb) hj) with ⟨hsame, -⟩ | ⟨m, hmore⟩
    · rw [hsame]
      exact hfresh
    · rw [hmore]
      exact hfresh.concat m

theorem Blocks.notified {n : Notice} (hblocks : s.Blocks j) (rest : List Notice) :
    Blocks { s.setChild j (.copying n []) with
      toChild := Function.update s.toChild j rest } j := by
  have hpoint : ∀ n' block, (s.setChild j (.copying n [])).child j = .copying n' block →
      n = n' ∧ [] = block := by
    intro n' block h
    simpa [setChild] using h
  constructor
  case copying =>
    intro n' block h
    obtain ⟨rfl, rfl⟩ := hpoint n' block h
    exact ⟨Nat.zero_le _, fun q b hb => by simp at hb⟩
  case exact =>
    intro n' block h _ hlast
    obtain ⟨rfl, rfl⟩ := hpoint n' block h
    have hne : s.stored n.client ≠ [] := by
      intro hnil
      rw [show ({ s.setChild j (.copying n []) with
        toChild := Function.update s.toChild j rest } : TalkMessages).stored = s.stored from rfl,
        hnil] at hlast
      simp at hlast
    exact ⟨_, List.getLast?_eq_some_getLast hne, fun q b hb => by simp at hb⟩
  case sent => exact hblocks.sent

theorem Blocks.copy {n : Notice} {block : List UInt8} (hblocks : s.Blocks j) (ha : s.Addressed)
    (ho : s.Ordered) (hregion : ∀ i, s.Region i) (hj : j < s.tables.user_count)
    (hpoint : s.child j = .copying n block) (hlength : block.length < BUFFER_SIZE) :
    (s.setChild j (.copying n (block ++ [s.cell n.client block.length]))).Blocks j := by
  have hne := ha.copying_ne hpoint
  obtain ⟨hclient, hbound, hdone⟩ := ho.notice ha hj (mem_noticesTo_of_copying hpoint) hne
  obtain ⟨m, hm⟩ : ∃ m, (s.stored n.client).getLast? = some m :=
    ⟨_, List.getLast?_eq_some_getLast (List.ne_nil_of_length_pos (by omega))⟩
  have hnew : ∀ n' block', (s.setChild j
        (.copying n (block ++ [s.cell n.client block.length]))).child j = .copying n' block' →
      n = n' ∧ block ++ [s.cell n.client block.length] = block' := by
    intro n' block' h
    simpa [setChild] using h
  constructor
  case copying =>
    intro n' block' h
    obtain ⟨rfl, rfl⟩ := hnew n' block' h
    refine ⟨by simpa using hlength, ?_⟩
    exact (hblocks.copying n block hpoint).2.push hm hbound
      ((hregion n.client).mixed m hm _ hlength)
  case exact =>
    intro n' block' h hyes hlast
    obtain ⟨rfl, rfl⟩ := hnew n' block' h
    refine ⟨m, hm, fun q b hb => ?_⟩
    rcases Nat.lt_trichotomy q block.length with hq | rfl | hq
    · obtain ⟨m', hm', hexact⟩ := hblocks.exact n block hpoint hyes hlast
      cases hm.symm.trans hm'
      rw [List.getElem?_append_left hq] at hb
      exact hexact q b hb
    · obtain ⟨m', hm', hwhole⟩ := (hregion n.client).whole hyes (hdone hlast)
      cases hm.symm.trans hm'
      rw [List.getElem?_concat_length] at hb
      cases hb
      exact hwhole _ hlength
    · rw [List.getElem?_eq_none (by simp; omega)] at hb
      cases hb
  case sent => exact hblocks.sent

theorem Blocks.hand {n : Notice} {block : List UInt8} (hblocks : s.Blocks j)
    (hpoint : s.child j = .copying n block) (hlength : BUFFER_SIZE ≤ block.length) (taken : Nat) :
    (s.send j n block taken).Blocks j := by
  constructor
  case copying =>
    intro n' block' h
    simp [send, setChild] at h
  case exact =>
    intro n' block' h
    simp [send, setChild] at h
  case sent =>
    intro b hb
    simp only [send, Function.update_self, List.mem_append, List.mem_singleton] at hb
    rcases hb with hb | rfl
    · exact hblocks.sent b hb
    · obtain ⟨hle, hfresh⟩ := hblocks.copying n block hpoint
      exact ⟨Nat.le_antisymm hle hlength, hfresh⟩

/-- What a step of the child itself does to its blocks. -/
theorem Blocks.act (hblocks : s.Blocks j) (ha : s.Addressed) (ho : s.Ordered)
    (hregion : ∀ i, s.Region i) (hj : j < s.tables.user_count) (h : s.Moves e t)
    (hactor : e.actor = some j) : t.Blocks j := by
  have hmoves := h
  cases h with
  | readable hidx hpoint =>
      cases hactor
      exact hblocks.mono ha ho hmoves hj (by simp [setChild]) rfl
  | clear hpoint hp =>
      cases hactor
      exact hblocks.mono ha ho hmoves hj (by simp [setChild]) rfl
  | again hpoint =>
      cases hactor
      exact hblocks.mono ha ho hmoves hj (by simp [setChild]) rfl
  | recv hpoint hp hmessage hlength =>
      cases hactor
      exact hblocks.mono ha ho hmoves hj (by simp [setChild]) rfl
  | store hpoint hb =>
      cases hactor
      exact hblocks.mono ha ho hmoves hj (by simp [setChild]) rfl
  | announce hpoint hp =>
      cases hactor
      exact hblocks.mono ha ho hmoves hj (by simp [setChild]) rfl
  | announceFull hpoint hp =>
      cases hactor
      exact hblocks.mono ha ho hmoves hj (by simp [setChild]) rfl
  | notified hpoint hpipe hidx =>
      cases hactor
      exact hblocks.notified _
  | copy hpoint hlength =>
      cases hactor
      exact hblocks.copy ha ho hregion hj hpoint hlength
  | sent hpoint hlength htaken =>
      cases hactor
      exact hblocks.hand hpoint hlength _
  | _ => cases hactor

/-- `send` took at most the whole of each block. -/
structure Taken (s : TalkMessages) : Prop where
  length : ∀ j, (s.taken j).length = (s.sent j).length
  bound : ∀ j, ∀ n ∈ s.taken j, n ≤ BUFFER_SIZE

theorem Taken.moves (htaken : s.Taken) (h : s.Moves e t) : t.Taken := by
  cases h with
  | joined hparent hfresh htables =>
      constructor
      · intro j
        by_cases hj : j = s.tables.user_count
        · simp [TalkMessages.join, hj]
        · simp only [TalkMessages.join, Function.update_of_ne hj]
          exact htaken.length j
      · intro j n hn
        by_cases hj : j = s.tables.user_count
        · simp [TalkMessages.join, hj] at hn
        · simp only [TalkMessages.join, Function.update_of_ne hj] at hn
          exact htaken.bound j n hn
  | @sent idx taken notice block hpoint hlength hle =>
      constructor
      · intro j
        by_cases hj : j = idx
        · simp [hj, htaken.length idx]
        · simp only [Function.update_of_ne hj]
          exact htaken.length j
      · intro j n hn
        by_cases hj : j = idx
        · subst hj
          simp only [Function.update_self, List.mem_append, List.mem_singleton] at hn
          rcases hn with hn | rfl
          · exact htaken.bound j n hn
          · exact hle
        · simp only [Function.update_of_ne hj] at hn
          exact htaken.bound j n hn
  | _ => exact ⟨htaken.length, htaken.bound⟩

/-- What holds in every run. -/
structure Sound (s : TalkMessages) : Prop where
  table : s.tables.Table
  addressed : s.Addressed
  ordered : s.Ordered
  region : ∀ k, s.Region k
  blocks : ∀ j, j < s.tables.user_count → s.Blocks j
  taken : s.Taken

theorem sound_start : start.Sound where
  table := TalkServer.table_start
  addressed := addressed_start
  ordered := ⟨fun _ hk => absurd hk (Nat.not_lt_zero _), fun _ _ hj => absurd hj (Nat.not_lt_zero _)⟩
  region := region_start
  blocks := fun _ hj => absurd hj (Nat.not_lt_zero _)
  taken := ⟨fun _ => rfl, fun _ _ hn => absurd hn List.not_mem_nil⟩

theorem table_moves (h : s.Moves e t) (htable : s.tables.Table) : t.tables.Table := by
  cases h with
  | refused tables htables hcount husers => exact htable.step htables
  | joined hparent hfresh htables => exact htable.step htables
  | _ => exact htable

theorem Sound.step (hs : s.Sound) (hstep : s.step e = some t) : t.Sound := by
  have h := Moves.of_step hstep
  refine ⟨table_moves h hs.table, hs.addressed.moves h, hs.ordered.moves hs.addressed h,
    region_moves hs.region h, fun j hj => ?_, hs.taken.moves h⟩
  by_cases hjs : j < s.tables.user_count
  · by_cases hactor : e.actor = some j
    · exact (hs.blocks j hjs).act hs.addressed hs.ordered hs.region hjs h hactor
    · obtain ⟨hchild, -, -, hsent, -⟩ := frame hs.region h hactor (Or.inl (Nat.ne_of_lt hjs))
      exact (hs.blocks j hjs).mono hs.addressed hs.ordered h hjs (fun n block hb => hchild ▸ hb) hsent
  · rcases tables_moves h with ⟨hcount, -⟩ | ⟨connfd, pipefd, pid, -, -, rfl⟩
    · exact absurd (hcount ▸ hj) hjs
    · -- the new client
      obtain rfl : j = s.tables.user_count :=
        Nat.le_antisymm (Nat.le_of_lt_succ hj) (Nat.le_of_not_lt hjs)
      constructor
      case copying =>
        intro n block hb
        simp [TalkMessages.join] at hb
      case exact =>
        intro n block hb
        simp [TalkMessages.join] at hb
      case sent =>
        intro b hb
        simp [TalkMessages.join] at hb

/-- What is handed to `send` for the clients. A client is handed nothing of its own; it gets the
messages of another client in their order and none of them twice; every block is as long as a region,
and its bytes are zeros or bytes of the message that it was announced for or of a later one; and the
block that a child is about to send is the message itself, padded with zeros, unless the sender has
begun to receive another one. Of each block `send` takes a start. -/
structure Relayed (s : TalkMessages) : Prop where
  others : ∀ j, j < s.tables.user_count → ∀ b ∈ s.sent j, b.1.client ≠ j ∧
    TalkServer.region b.1.client ⊆ Set.Ico 0 (USER_LIMIT * BUFFER_SIZE)
  ordered : ∀ j k, j < s.tables.user_count → j ≠ k →
    (numbers k ((s.sent j).map Prod.fst)).Pairwise (· < ·)
  fresh : ∀ j, j < s.tables.user_count → ∀ b ∈ s.sent j,
    b.2.length = BUFFER_SIZE ∧ Fresh (s.stored b.1.client) b.1.number b.2
  exact : ∀ j n block, j < s.tables.user_count → s.child j = .copying n block →
    block.length = BUFFER_SIZE → s.intact n.client = true →
    n.number + 1 = (s.stored n.client).length →
    ∃ m, (s.stored n.client).getLast? = some m ∧ block = (List.range BUFFER_SIZE).map (padded m)
  taken : ∀ j, (s.taken j).length = (s.sent j).length ∧ ∀ n ∈ s.taken j, n ≤ BUFFER_SIZE

/-- What has gone into the connection of a client: of each block as much as `send` took. -/
def received (s : TalkMessages) (j : Nat) : List UInt8 :=
  (List.zipWith (fun b n => b.2.take n) (s.sent j) (s.taken j)).flatten

theorem Sound.told (hs : s.Sound) : s.Relayed where
  others := by
    intro j hj b hb
    refine ⟨hs.addressed.sent_ne hb, TalkServer.region_subset ?_⟩
    exact (hs.addressed.others j b.1 (mem_noticesTo_of_sent hb) hj).trans_le hs.table.count
  ordered := by
    intro j k hj hne
    by_cases hk : k < s.tables.user_count
    · have hsub : (numbers k ((s.sent j).map Prod.fst)).Sublist (s.flow j k) := by
        rw [TalkMessages.flow, noticesTo, numbers_append, List.append_assoc]
        exact List.sublist_append_left _ _
      exact (hs.ordered.flow j k hj hk hne).1.sublist hsub
    · have hnil : numbers k ((s.sent j).map Prod.fst) = [] := by
        refine numbers_eq_nil fun n hn => ?_
        rintro rfl
        exact hk (hs.addressed.others j n (List.mem_append_left _ hn) hj)
      rw [hnil]
      exact .nil
  fresh := fun j hj b hb => (hs.blocks j hj).sent b hb
  exact := by
    intro j n block hj hpoint hlength hyes hlast
    obtain ⟨m, hm, hexact⟩ := (hs.blocks j hj).exact n block hpoint hyes hlast
    refine ⟨m, hm, List.ext_getElem (by simp [hlength]) fun q hq hq' => ?_⟩
    rw [List.getElem_map, List.getElem_range]
    exact hexact q _ (List.getElem?_eq_getElem hq)
  taken := fun j => ⟨hs.taken.length j, hs.taken.bound j⟩

theorem sound_run {l : List MessageEvent} (hrun : runEvents step start l = some s) : s.Sound :=
  invariant (fun _ _ _ hs hstep => Sound.step hs hstep) sound_start hrun

/-- In every run without a client that leaves, what is sent to the clients is as `Relayed` says. -/
theorem relayed {l : List MessageEvent} (hrun : runEvents step start l = some s) : s.Relayed :=
  (sound_run hrun).told

/-! ### A message on its way -/

/-- `memset` runs to its end, whatever the region held. -/
theorem clear_run {idx : Nat} (hs : s.tables.outside = false) (hpoint : s.child idx = .clearing 0) :
    ∃ mem, runEvents step s (List.replicate BUFFER_SIZE (.clear idx)) =
      some { s with
        share_mem := mem, child := Function.update s.child idx (.clearing BUFFER_SIZE) } := by
  have hstep : ∀ (p : Nat) (t : TalkMessages), p < BUFFER_SIZE →
      (∃ mem, t = { s with
        share_mem := mem, child := Function.update s.child idx (.clearing p) }) →
      ∃ u, t.step (.clear idx) = some u ∧ ∃ mem, u = { s with
        share_mem := mem, child := Function.update s.child idx (.clearing (p + 1)) } := by
    rintro p _ hp ⟨mem, rfl⟩
    refine ⟨_, ?_, Function.update mem (idx * BUFFER_SIZE + p) 0, rfl⟩
    simp [step, hs, hp, write, setChild]
  have hfirst : s = { s with
      share_mem := s.share_mem, child := Function.update s.child idx (.clearing 0) } := by
    rw [← hpoint, Function.update_eq_self]
  obtain ⟨t, hrun, mem, rfl⟩ :=
    runEvents_replicate hstep BUFFER_SIZE ⟨s.share_mem, hfirst⟩ (Nat.zero_add _).le
  exact ⟨mem, hrun⟩

/-- So does `copy`, and the block is as long as a region then. -/
theorem copy_run (idx : Nat) (notice : Notice) (hs : s.tables.outside = false)
    (hpoint : s.child idx = .copying notice []) :
    ∃ block, block.length = BUFFER_SIZE ∧
      runEvents step s (List.replicate BUFFER_SIZE (.copy idx)) =
        some { s with child := Function.update s.child idx (.copying notice block) } := by
  have hstep : ∀ (p : Nat) (t : TalkMessages), p < BUFFER_SIZE →
      (∃ block, block.length = p ∧
        t = { s with child := Function.update s.child idx (.copying notice block) }) →
      ∃ u, t.step (.copy idx) = some u ∧ ∃ block, block.length = p + 1 ∧
        u = { s with child := Function.update s.child idx (.copying notice block) } := by
    rintro p _ hp ⟨block, rfl, rfl⟩
    refine ⟨_, ?_, block ++ [s.share_mem (notice.client * BUFFER_SIZE + block.length)],
      List.length_append, rfl⟩
    simp [step, hs, hp, copy, setChild]
  have hfirst : s = { s with child := Function.update s.child idx (.copying notice []) } := by
    rw [← hpoint, Function.update_eq_self]
  obtain ⟨t, hrun, block, hlength, rfl⟩ :=
    runEvents_replicate hstep BUFFER_SIZE ⟨[], rfl, hfirst⟩ (Nat.zero_add _).le
  exact ⟨block, hlength.trans (Nat.zero_add _), hrun⟩

/-- Nothing is on its way. -/
structure Quiet (s : TalkMessages) : Prop where
  parent : s.parent = .waiting
  children : ∀ j, j < s.tables.user_count → s.child j = .waiting
  toParent : ∀ j, j < s.tables.user_count → s.toParent j = []
  toChild : ∀ j, j < s.tables.user_count → s.toChild j = []

/-- Two clients come, and there is something to read from the second one. -/
def twoClients : List MessageEvent :=
  [.connect 10 20 (some 100), .connect 11 21 (some 101), .readable 1]

/-- The region of the second client has been cleared. -/
def cleared (mem : Nat → UInt8) : TalkMessages :=
  let s := (runEvents step start twoClients).get rfl
  { s with share_mem := mem, child := Function.update s.child 1 (.clearing BUFFER_SIZE) }

/-- The second client has said something, and the first child begins to copy it. -/
def oneMessage : List MessageEvent :=
  [.recv 1 (some [104, 105]), .store 1, .store 1, .announce 1 false, .take 1, .forward false,
    .forward false, .forward false, .notified 0]

/-- A message up to the `send` to the first client. -/
def greeting : List MessageEvent :=
  twoClients ++ (List.replicate BUFFER_SIZE (.clear 1) ++
    (oneMessage ++ List.replicate BUFFER_SIZE (.copy 0)))

theorem greeting_copied : ∃ s block, runEvents step start greeting = some s ∧
    block.length = BUFFER_SIZE ∧ s.child 0 = .copying ⟨1, 0⟩ block ∧ s.stored 1 = [[104, 105]] ∧
    s.intact 1 = true ∧ s.sent 0 = [] ∧ s.taken 0 = [] ∧ s.tables.user_count = 2 ∧
    (∀ n ≤ BUFFER_SIZE, s.step (.send 0 n) = some (s.send 0 ⟨1, 0⟩ block n)) ∧
    (s.send 0 ⟨1, 0⟩ block BUFFER_SIZE).Quiet := by
  obtain ⟨mem, hclear⟩ : ∃ mem, runEvents step ((runEvents step start twoClients).get rfl)
      (List.replicate BUFFER_SIZE (.clear 1)) = some (cleared mem) := clear_run rfl rfl
  obtain ⟨block, hlength, hcopy⟩ :=
    copy_run (s := (runEvents step (cleared mem) oneMessage).get rfl) 0 ⟨1, 0⟩ rfl rfl
  refine ⟨_, block, runEvents_append.mpr ⟨_, (Option.some_get _).symm, runEvents_append.mpr
    ⟨_, hclear, runEvents_append.mpr ⟨_, (Option.some_get _).symm, hcopy⟩⟩⟩, hlength, rfl, rfl, rfl,
    rfl, rfl, rfl, fun n hn => if_neg (not_or.mpr ⟨hlength.not_lt, hn.not_gt⟩), rfl,
    fun j hj => ?_, fun j hj => ?_, fun j hj => ?_⟩
  all_goals
    replace hj : j < 2 := hj
    interval_cases j <;> rfl

/-- The first client gets 700 bytes of what the second one has said. -/
theorem relayed_greeting : ∃ s, runEvents step start (greeting ++ [.send 0 700]) = some s ∧
    s.Relayed ∧
    s.received 0 = ((List.range BUFFER_SIZE).map (padded [104, 105])).take 700 := by
  obtain ⟨s, block, hrun, hlength, hpoint, hstored, hintact, hsent, htaken, hcount, hsend, -⟩ :=
    greeting_copied
  have hend : runEvents step start (greeting ++ [.send 0 700]) =
      some (s.send 0 ⟨1, 0⟩ block 700) :=
    runEvents_append.mpr ⟨s, hrun, by rw [runEvents, hsend 700 (by decide)]; rfl⟩
  refine ⟨_, hend, relayed hend, ?_⟩
  -- the block is the message, as `relayed` says of the state before the `send`
  obtain ⟨m, hm, hblock⟩ := (relayed hrun).exact 0 ⟨1, 0⟩ block (by rw [hcount]; decide) hpoint
    hlength hintact (by rw [hstored]; rfl)
  obtain rfl : [104, 105] = m := Option.some.inj ((congrArg List.getLast? hstored).symm.trans hm)
  simp only [received, TalkMessages.send, hsent, htaken, Function.update_self, List.nil_append,
    List.zipWith_cons_cons, List.zipWith_nil_left, List.flatten_singleton, hblock]

end Memory

end TalkMessages

end CLanguageLearning.Chat
