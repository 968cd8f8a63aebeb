import CLanguageLearning.Chat.ShmTalkServer

/-!
# The messages of the chat server with shared memory

How a message goes from one client of `13-4shm_talk_server.cpp` to the others. The child of the
sender clears its region of the shared memory, receives into it and writes its index to its pipe.
The parent reads the index and writes it to the pipe of every other child. A child that reads an
index sends the region it names to its own client. No step waits for another process, so the region
may have been overwritten by then. The sockets of the clients do not block, and nobody looks at how
much of a block `send` took.

`clearing`, `storing` and `copying` go byte by byte, because other processes run in between. The runs
here are those in which no client leaves; what happens to the regions when one does is
`TalkServer.owned_iff`.

A `flow` lists the messages of one client on their way to another. `flow_moves` says what a step does
to it; that notices keep their order (`Ordered`) and that none is lost while the pipes have room
(`Complete`) follow from it.
-/

set_option autoImplicit false

namespace CLanguageLearning.Chat

open CLanguageLearning.Foundation

/-- What goes through a pipe is the number of a client. `number` counts the messages of that client
and is not in the source. -/
structure Notice where
  client : Nat
  number : Nat
  deriving DecidableEq, Repr

/-- Where a child is in the loop of `run_child`. -/
inductive ChildPoint where
  | waiting
  | clearing (p : Nat)
  | storing (message : List UInt8) (p : Nat)
  | copying (notice : Notice) (block : List UInt8)
  deriving DecidableEq, Repr

/-- Where the parent is in the branch that relays a notice. -/
inductive ParentPoint where
  | waiting
  | forwarding (notice : Notice) (sockfd j : Nat)
  deriving DecidableEq, Repr

/-- The processes, the shared memory and the pipes. Children are named by the index they were forked
with. `stored` are the messages that a child has received, `sent` the blocks that it has handed to
`send` for its client and `taken` how many bytes `send` took of each; `intact` says that no `memset`
has begun since the last message. These four are not in the source. -/
structure TalkMessages where
  tables : TalkServer
  share_mem : Nat → UInt8
  child : Nat → ChildPoint
  toParent : Nat → List Notice
  toChild : Nat → List Notice
  parent : ParentPoint
  stored : Nat → List (List UInt8)
  intact : Nat → Bool
  sent : Nat → List (Notice × List UInt8)
  taken : Nat → List Nat

/-- What can happen next. A `send` on a pipe fails when the pipe is full, and a `send` to a client
takes what there is room for, or nothing; nobody looks at that. -/
inductive MessageEvent where
  | connect (connfd pipefd : Nat) (fork : Option Nat)
  | readable (idx : Nat)
  | clear (idx : Nat)
  | recv (idx : Nat) (result : Option (List UInt8))
  | store (idx : Nat)
  | announce (idx : Nat) (full : Bool)
  | take (idx : Nat)
  | forward (full : Bool)
  | notified (idx : Nat)
  | copy (idx : Nat)
  | send (idx taken : Nat)
  deriving DecidableEq, Repr

/-- The event is not a `send` on a full pipe, nor one that takes only a part of a block. -/
def MessageEvent.Fits : MessageEvent → Prop
  | .announce _ full => full = false
  | .forward full => full = false
  | .send _ taken => taken = BUFFER_SIZE
  | _ => True

/-- The child that takes the step. -/
def MessageEvent.actor : MessageEvent → Option Nat
  | .readable idx | .clear idx | .recv idx _ | .store idx | .announce idx _ | .notified idx
  | .copy idx | .send idx _ => some idx
  | _ => none

namespace TalkMessages

def start : TalkMessages where
  tables := TalkServer.start
  share_mem := fun _ => 0
  child := fun _ => .waiting
  toParent := fun _ => []
  toChild := fun _ => []
  parent := .waiting
  stored := fun _ => []
  intact := fun _ => false
  sent := fun _ => []
  taken := fun _ => []

def setChild (s : TalkMessages) (idx : Nat) (point : ChildPoint) : TalkMessages :=
  { s with child := Function.update s.child idx point }

/-- One byte of the region of the child `idx`. -/
def write (s : TalkMessages) (idx p : Nat) (b : UInt8) : TalkMessages :=
  { s with share_mem := Function.update s.share_mem (idx * BUFFER_SIZE + p) b }

/-- A new child, with an empty pipe. -/
def join (s : TalkMessages) (tables : TalkServer) : TalkMessages :=
  let idx := s.tables.user_count
  { s with
    tables := tables
    child := Function.update s.child idx .waiting
    toParent := Function.update s.toParent idx []
    toChild := Function.update s.toChild idx []
    stored := Function.update s.stored idx []
    intact := Function.update s.intact idx false
    sent := Function.update s.sent idx []
    taken := Function.update s.taken idx [] }

/-- The parent accepts a connection. The pipe has a descriptor that is not in use. -/
def connect (s : TalkMessages) (connfd pipefd : Nat) (fork : Option Nat) : Option TalkMessages :=
  if s.parent = .waiting ∧ ∀ i, i < s.tables.user_count → (s.tables.users i).pipefd ≠ pipefd then
    (s.tables.step (.connect connfd pipefd fork)).map fun tables =>
      if s.tables.user_count < tables.user_count then s.join tables
      else { s with tables := tables }
  else none

/-- The `memset` is done, and `recv` has a message or fails with `EAGAIN`. -/
def recv (s : TalkMessages) (idx : Nat) : Option (List UInt8) → Option TalkMessages
  | none => some (s.setChild idx .waiting)
  | some message =>
      if message ≠ [] ∧ message.length ≤ BUFFER_SIZE - 1 then
        some { s.setChild idx (.storing message 0) with
          stored := Function.update s.stored idx (s.stored idx ++ [message])
          intact := Function.update s.intact idx true }
      else none

/-- The child writes its index to its pipe. -/
def announce (s : TalkMessages) (idx : Nat) (full : Bool) : TalkMessages :=
  if full then s.setChild idx .waiting
  else
    { s.setChild idx .waiting with
      toParent := Function.update s.toParent idx
        (s.toParent idx ++ [⟨idx, (s.stored idx).length - 1⟩]) }

/-- One turn of the loop over `users` in the parent. -/
def forward (s : TalkMessages) (notice : Notice) (sockfd j : Nat) (full : Bool) : TalkMessages :=
  if j < s.tables.user_count then
    if (s.tables.users j).pipefd ≠ sockfd ∧ full = false then
      { s with
        toChild := Function.update s.toChild j (s.toChild j ++ [notice])
        parent := .forwarding notice sockfd (j + 1) }
    else { s with parent := .forwarding notice sockfd (j + 1) }
  else { s with parent := .waiting }

/-- The child copies the next byte of the region that the notice names. -/
def copy (s : TalkMessages) (idx : Nat) (notice : Notice) (block : List UInt8) : TalkMessages :=
  let byte := s.share_mem (notice.client * BUFFER_SIZE + block.length)
  s.setChild idx (.copying notice (block ++ [byte]))

/-- The child hands the block to `send`, which takes some of its bytes. -/
def send (s : TalkMessages) (idx : Nat) (notice : Notice) (block : List UInt8) (taken : Nat) :
    TalkMessages :=
  { s.setChild idx .waiting with
    sent := Function.update s.sent idx (s.sent idx ++ [(notice, block)])
    taken := Function.update s.taken idx (s.taken idx ++ [taken]) }

def step (s : TalkMessages) (e : MessageEvent) : Option TalkMessages :=
  if s.tables.outside = true then none
  else
    match e with
    | .connect connfd pipefd fork => s.connect connfd pipefd fork
    | .readable idx =>
        if idx < s.tables.user_count ∧ s.child idx = .waiting then
          some { s.setChild idx (.clearing 0) with intact := Function.update s.intact idx false }
        else none
    | .clear idx =>
        match s.child idx with
        | .clearing p =>
            if p < BUFFER_SIZE then some ((s.write idx p 0).setChild idx (.clearing (p + 1))) else none
        | _ => none
    | .recv idx result =>
        match s.child idx with
        | .clearing p => if p < BUFFER_SIZE then none else s.recv idx result
        | _ => none
    | .store idx =>
        match s.child idx with
        | .storing message p =>
            message[p]?.map fun b => (s.write idx p b).setChild idx (.storing message (p + 1))
        | _ => none
    | .announce idx full =>
        match s.child idx with
        | .storing message p => if p < message.length then none else some (s.announce idx full)
        | _ => none
    | .take idx =>
        match s.parent, s.toParent idx with
        | .waiting, notice :: rest =>
            if idx < s.tables.user_count then
              some { s with
                toParent := Function.update s.toParent idx rest
                parent := .forwarding notice (s.tables.users idx).pipefd 0 }
            else none
        | _, _ => none
    | .forward full =>
        match s.parent with
        | .forwarding notice sockfd j => some (s.forward notice sockfd j full)
        | .waiting => none
    | .notified idx =>
        match s.child idx, s.toChild idx with
        | .waiting, notice :: rest =>
            if idx < s.tables.user_count then
              some { s.setChild idx (.copying notice []) with
                toChild := Function.update s.toChild idx rest }
            else none
        | _, _ => none
    | .copy idx =>
        match s.child idx with
        | .copying notice block =>
            if block.length < BUFFER_SIZE then some (s.copy idx notice block) else none
        | _ => none
    | .send idx taken =>
        match s.child idx with
        | .copying notice block =>
            if block.length < BUFFER_SIZE ∨ BUFFER_SIZE < taken then none
            else some (s.send idx notice block taken)
        | _ => none

/-! ### What a step does -/

/-- The steps of the processes. -/
inductive Moves (s : TalkMessages) : MessageEvent → TalkMessages → Prop
  | refused {connfd pipefd : Nat} {fork : Option Nat} (tables : TalkServer)
      (htables : s.tables.step (.connect connfd pipefd fork) = some tables)
      (hcount : tables.user_count = s.tables.user_count)
      (husers : ∀ i, i < s.tables.user_count → tables.users i = s.tables.users i) :
      Moves s (.connect connfd pipefd fork) { s with tables := tables }
  | joined {connfd pipefd pid : Nat} {fork : Option Nat} (hparent : s.parent = .waiting)
      (hfresh : ∀ i, i < s.tables.user_count → (s.tables.users i).pipefd ≠ pipefd)
      (htables : s.tables.step (.connect connfd pipefd fork) =
        some (s.tables.forked connfd pipefd pid)) :
      Moves s (.connect connfd pipefd fork) (s.join (s.tables.forked connfd pipefd pid))
  | readable {idx : Nat} (hidx : idx < s.tables.user_count) (hpoint : s.child idx = .waiting) :
      Moves s (.readable idx)
        { s.setChild idx (.clearing 0) with intact := Function.update s.intact idx false }
  | clear {idx p : Nat} (hpoint : s.child idx = .clearing p) (hp : p < BUFFER_SIZE) :
      Moves s (.clear idx) ((s.write idx p 0).setChild idx (.clearing (p + 1)))
  | again {idx p : Nat} (hpoint : s.child idx = .clearing p) :
      Moves s (.recv idx none) (s.setChild idx .waiting)
  | recv {idx p : Nat} {message : List UInt8} (hpoint : s.child idx = .clearing p)
      (hp : BUFFER_SIZE ≤ p) (hmessage : message ≠ []) (hlength : message.length < BUFFER_SIZE) :
      Moves s (.recv idx (some message))
        { s.setChild idx (.storing message 0) with
          stored := Function.update s.stored idx (s.stored idx ++ [message])
          intact := Function.update s.intact idx true }
  | store {idx p : Nat} {message : List UInt8} {b : UInt8}
      (hpoint : s.child idx = .storing message p) (hb : message[p]? = some b) :
      Moves s (.store idx) ((s.write idx p b).setChild idx (.storing message (p + 1)))
  | announce {idx p : Nat} {message : List UInt8} (hpoint : s.child idx = .storing message p)
      (hp : message.length ≤ p) :
      Moves s (.announce idx false)
        { s.setChild idx .waiting with
          toParent := Function.update s.toParent idx
            (s.toParent idx ++ [⟨idx, (s.stored idx).length - 1⟩]) }
  | announceFull {idx p : Nat} {message : List UInt8} (hpoint : s.child idx = .storing message p)
      (hp : message.length ≤ p) : Moves s (.announce idx true) (s.setChild idx .waiting)
  | take {idx : Nat} {notice : Notice} {rest : List Notice} (hparent : s.parent = .waiting)
      (hpipe : s.toParent idx = notice :: rest) (hidx : idx < s.tables.user_count) :
      Moves s (.take idx)
        { s with
          toParent := Function.update s.toParent idx rest
          parent := .forwarding notice (s.tables.users idx).pipefd 0 }
  | forward {notice : Notice} {sockfd j : Nat} (hparent : s.parent = .forwarding notice sockfd j)
      (hj : j < s.tables.user_count) (hother : (s.tables.users j).pipefd ≠ sockfd) :
      Moves s (.forward false)
        { s with
          toChild := Function.update s.toChild j (s.toChild j ++ [notice])
          parent := .forwarding notice sockfd (j + 1) }
  | skip {full : Bool} {notice : Notice} {sockfd j : Nat}
      (hparent : s.parent = .forwarding notice sockfd j) (hj : j < s.tables.user_count)
      (hskip : (s.tables.users j).pipefd = sockfd ∨ full = true) :
      Moves s (.forward full) { s with parent := .forwarding notice sockfd (j + 1) }
  | forwarded {full : Bool} {notice : Notice} {sockfd j : Nat}
      (hparent : s.parent = .forwarding notice sockfd j) (hj : s.tables.user_count ≤ j) :
      Moves s (.forward full) { s with parent := .waiting }
  | notified {idx : Nat} {notice : Notice} {rest : List Notice} (hpoint : s.child idx = .waiting)
      (hpipe : s.toChild idx = notice :: rest) (hidx : idx < s.tables.user_count) :
      Moves s (.notified idx)
        { s.setChild idx (.copying notice []) with
          toChild := Function.update s.toChild idx rest }
  | copy {idx : Nat} {notice : Notice} {block : List UInt8}
      (hpoint : s.child idx = .copying notice block) (hlength : block.length < BUFFER_SIZE) :
      Moves s (.copy idx)
        (s.setChild idx
          (.copying notice (block ++ [s.share_mem (notice.client * BUFFER_SIZE + block.length)])))
  | sent {idx taken : Nat} {notice : Notice} {block : List UInt8}
      (hpoint : s.child idx = .copying notice block) (hlength : BUFFER_SIZE ≤ block.length)
      (htaken : taken ≤ BUFFER_SIZE) :
      Moves s (.send idx taken)
        { s.setChild idx .waiting with
          sent := Function.update s.sent idx (s.sent idx ++ [(notice, block)])
          taken := Function.update s.taken idx (s.taken idx ++ [taken]) }

section Steps

variable {s t : TalkMessages} {e : MessageEvent}

theorem Moves.of_connect {connfd pipefd : Nat} {fork : Option Nat}
    (hstep : s.connect connfd pipefd fork = some t) : s.Moves (.connect connfd pipefd fork) t := by
  rw [connect] at hstep
  split at hstep
  case isFalse => cases hstep
  case isTrue hopen =>
    obtain ⟨tables, htables, rfl⟩ := Option.map_eq_some_iff.mp hstep
    cases TalkServer.Stepped.of_step htables with
    | refuse _ _ _ _ =>
        rw [if_neg (Nat.lt_irrefl _)]
        exact .refused _ htables rfl fun _ _ => rfl
    | forkFails _ _ user _ =>
        rw [if_neg (Nat.lt_irrefl _)]
        exact .refused _ htables rfl fun i hi => Function.update_of_ne (Nat.ne_of_lt hi) _ _
    | forkOutside _ _ _ _ =>
        rw [if_neg (Nat.lt_irrefl _)]
        exact .refused _ htables rfl fun _ _ => rfl
    | @fork _ _ pid _ _ _ =>
        have hmore : s.tables.user_count < (s.tables.forked connfd pipefd pid).user_count :=
          Nat.lt_succ_self _
        rw [if_pos hmore]
        exact .joined hopen.1 hopen.2 htables

/-- Every step is one of these. -/
theorem Moves.of_step (hstep : s.step e = some t) : s.Moves e t := by
  obtain ⟨-, hstep⟩ := Option.ite_none_left_eq_some.mp hstep
  cases e with
  | connect connfd pipefd fork => exact .of_connect hstep
  | readable idx =>
      obtain ⟨⟨hidx, hpoint⟩, ⟨⟩⟩ := Option.ite_none_right_eq_some.mp hstep
      exact .readable hidx hpoint
  | clear idx =>
      dsimp only at hstep
      split at hstep
      case h_1 p hpoint =>
        obtain ⟨hp, ⟨⟩⟩ := Option.ite_none_right_eq_some.mp hstep
        exact .clear hpoint hp
      case h_2 => cases hstep
  | recv idx result =>
      dsimp only at hstep
      split at hstep
      case h_1 p hpoint =>
        obtain ⟨hp, hrecv⟩ := Option.ite_none_left_eq_some.mp hstep
        cases result with
        | none =>
            cases hrecv
            exact .again hpoint
        | some message =>
            obtain ⟨⟨hne, hlength⟩, ⟨⟩⟩ := Option.ite_none_right_eq_some.mp hrecv
            exact .recv hpoint (Nat.le_of_not_lt hp) hne (Nat.lt_of_le_of_lt hlength (by decide))
      case h_2 => cases hstep
  | store idx =>
      dsimp only at hstep
      split at hstep
      case h_1 message p hpoint =>
        obtain ⟨b, hb, ⟨⟩⟩ := Option.map_eq_some_iff.mp hstep
        exact .store hpoint hb
      case h_2 => cases hstep
  | announce idx full =>
      dsimp only at hstep
      split at hstep
      case h_1 message p hpoint =>
        obtain ⟨hp, ⟨⟩⟩ := Option.ite_none_left_eq_some.mp hstep
        cases full with
        | false => exact .announce hpoint (Nat.le_of_not_lt hp)
        | true => exact .announceFull hpoint (Nat.le_of_not_lt hp)
      case h_2 => cases hstep
  | take idx =>
      dsimp only at hstep
      split at hstep
      case h_1 notice rest hparent hpipe =>
        obtain ⟨hidx, ⟨⟩⟩ := Option.ite_none_right_eq_some.mp hstep
        exact .take hparent hpipe hidx
      case h_2 => cases hstep
  | forward full =>
      dsimp only at hstep
      split at hstep
      case h_1 notice sockfd j hparent =>
        cases hstep
        rw [TalkMessages.forward]
        split
        case isTrue hj =>
          split
          case isTrue hother =>
            obtain ⟨hother, rfl⟩ := hother
            exact .forward hparent hj hother
          case isFalse hother =>
            refine .skip hparent hj ?_
            rw [not_and_or, not_not, Bool.not_eq_false] at hother
            exact hother
        case isFalse hj => exact .forwarded hparent (Nat.le_of_not_lt hj)
      case h_2 => cases hstep
  | notified idx =>
      dsimp only at hstep
      split at hstep
      case h_1 notice rest hpoint hpipe =>
        obtain ⟨hidx, ⟨⟩⟩ := Option.ite_none_right_eq_some.mp hstep
        exact .notified hpoint hpipe hidx
      case h_2 => cases hstep
  | copy idx =>
      dsimp only at hstep
      split at hstep
      case h_1 notice block hpoint =>
        obtain ⟨hlength, ⟨⟩⟩ := Option.ite_none_right_eq_some.mp hstep
        exact .copy hpoint hlength
      case h_2 => cases hstep
  | send idx taken =>
      dsimp only at hstep
      split at hstep
      case h_1 notice block hpoint =>
        obtain ⟨hlength, ⟨⟩⟩ := Option.ite_none_left_eq_some.mp hstep
        rw [not_or, not_lt, not_lt] at hlength
        exact .sent hpoint hlength.1 hlength.2
      case h_2 => cases hstep

end Steps

end TalkMessages

/-! ### The flow of notices -/

/-- The numbers of the notices about the client `k`, in their order. -/
def numbers (k : Nat) (l : List Notice) : List Nat :=
  (l.filter fun n => n.client == k).map Notice.number

@[simp]
theorem numbers_nil (k : Nat) : numbers k [] = [] := rfl

@[simp]
theorem numbers_append (k : Nat) (l l' : List Notice) :
    numbers k (l ++ l') = numbers k l ++ numbers k l' := by
  rw [numbers, List.filter_append, List.map_append]
  rfl

@[simp]
theorem numbers_cons_self (n : Notice) (l : List Notice) :
    numbers n.client (n :: l) = n.number :: numbers n.client l := by
  simp [numbers]

theorem numbers_cons_of_ne {k : Nat} {n : Notice} (h : n.client ≠ k) (l : List Notice) :
    numbers k (n :: l) = numbers k l := by
  simp [numbers, h]

theorem numbers_eq_nil {k : Nat} {l : List Notice} (h : ∀ n ∈ l, n.client ≠ k) :
    numbers k l = [] := by
  induction l with
  | nil => rfl
  | cons n l ih =>
      rw [numbers_cons_of_ne (h n List.mem_cons_self)]
      exact ih fun m hm => h m (List.mem_cons_of_mem n hm)

/-- The notice that a child works on. -/
def ChildPoint.held : ChildPoint → List Notice
  | .copying notice _ => [notice]
  | _ => []

/-- The number of the message that a child has received, of `count`, and not announced. -/
def ChildPoint.unannounced (count : Nat) : ChildPoint → List Nat
  | .storing _ _ => [count - 1]
  | _ => []

/-- The notice that the parent has still to write to the pipe of the child `j`. -/
def ParentPoint.held (j : Nat) : ParentPoint → List Notice
  | .forwarding notice _ i => if i ≤ j then [notice] else []
  | .waiting => []

namespace TalkMessages

/-- The notices that the parent has taken up for the child `j`, the oldest first. -/
def noticesTo (s : TalkMessages) (j : Nat) : List Notice :=
  (s.sent j).map Prod.fst ++ ((s.child j).held ++ (s.toChild j ++ s.parent.held j))

/-- The messages of the client `k` that the parent has not heard of. -/
def unheard (s : TalkMessages) (k : Nat) : List Nat :=
  numbers k (s.toParent k) ++ (s.child k).unannounced (s.stored k).length

/-- The messages of the client `k` on their way to the client `j`. -/
def flow (s : TalkMessages) (j k : Nat) : List Nat := numbers k (s.noticesTo j) ++ s.unheard k

section Flow

variable {s t : TalkMessages} {e : MessageEvent} {j k : Nat}

/-- Who a notice comes from, and whose pipe it is in. -/
structure Addressed (s : TalkMessages) : Prop where
  pipes : ∀ i j, i < s.tables.user_count → j < s.tables.user_count →
    (s.tables.users i).pipefd = (s.tables.users j).pipefd → i = j
  own : ∀ k n, n ∈ s.toParent k → n.client = k
  parent : ∀ n sockfd j, s.parent = .forwarding n sockfd j →
    n.client < s.tables.user_count ∧ sockfd = (s.tables.users n.client).pipefd
  others : ∀ j n, n ∈ s.noticesTo j → j < s.tables.user_count → n.client < s.tables.user_count
  never : ∀ j n, n ∈ (s.sent j).map Prod.fst ++ ((s.child j).held ++ s.toChild j) → n.client ≠ j

theorem addressed_start : start.Addressed where
  pipes := fun _ _ hi => absurd hi (Nat.not_lt_zero _)
  own := fun _ _ hn => absurd hn List.not_mem_nil
  parent := fun _ _ _ h => by cases h
  others := fun _ _ _ hj => absurd hj (Nat.not_lt_zero _)
  never := fun _ _ hn => absurd hn List.not_mem_nil

/-- A child that goes on with the notice it has. -/
theorem held_update {child : Nat → ChildPoint} {idx : Nat} {point : ChildPoint}
    (h : point.held = (child idx).held) (j : Nat) :
    (Function.update child idx point j).held = (child j).held := by
  by_cases hj : j = idx
  · rw [hj, Function.update_self, h]
  · rw [Function.update_of_ne hj]

theorem unannounced_update {child : Nat → ChildPoint} {idx : Nat} {point : ChildPoint} {n : Nat}
    (h : point.unannounced n = (child idx).unannounced n) (k : Nat) :
    (Function.update child idx point k).unannounced n = (child k).unannounced n := by
  by_cases hk : k = idx
  · rw [hk, Function.update_self, h]
  · rw [Function.update_of_ne hk]

theorem noticesTo_congr (hsent : t.sent j = s.sent j) (hheld : (t.child j).held = (s.child j).held)
    (hpipe : t.toChild j = s.toChild j) (hparent : t.parent.held j = s.parent.held j) :
    t.noticesTo j = s.noticesTo j := by
  rw [noticesTo, hsent, hheld, hpipe, hparent, noticesTo]

theorem unheard_congr (hpipe : t.toParent k = s.toParent k) (hstored : t.stored k = s.stored k)
    (hpoint : (t.child k).unannounced (s.stored k).length =
      (s.child k).unannounced (s.stored k).length) : t.unheard k = s.unheard k := by
  rw [unheard, hpipe, hstored, hpoint, unheard]

/-- What is on its way to a child stays, but for a notice that the parent takes up or does not
pass on. -/
theorem noticesTo_moves (h : s.Moves e t) (hj : j < s.tables.user_count) :
    t.noticesTo j = s.noticesTo j ∨
      (∃ idx n, e = .take idx ∧ idx < s.tables.user_count ∧ (s.toParent idx).head? = some n ∧
        t.noticesTo j = s.noticesTo j ++ [n]) ∨
      ∃ full n sockfd, e = .forward full ∧ s.parent = .forwarding n sockfd j ∧
        ((s.tables.users j).pipefd = sockfd ∨ full = true) ∧
        t.noticesTo j ++ [n] = s.noticesTo j := by
  cases h with
  | refused tables htables hcount husers => exact Or.inl rfl
  | joined hparent hfresh htables =>
      refine Or.inl ?_
      simp [noticesTo, join, Function.update_of_ne (Nat.ne_of_lt hj)]
  | readable hidx hpoint =>
      exact Or.inl (noticesTo_congr rfl (held_update (by rw [hpoint]; rfl) j) rfl rfl)
  | clear hpoint hp =>
      exact Or.inl (noticesTo_congr rfl (held_update (by simp [write, hpoint, ChildPoint.held]) j)
        rfl rfl)
  | again hpoint =>
      exact Or.inl (noticesTo_congr rfl (held_update (by rw [hpoint]; rfl) j) rfl rfl)
  | recv hpoint hp hmessage hlength =>
      exact Or.inl (noticesTo_congr rfl (held_update (by rw [hpoint]; rfl) j) rfl rfl)
  | store hpoint hb =>
      exact Or.inl (noticesTo_congr rfl (held_update (by simp [write, hpoint, ChildPoint.held]) j)
        rfl rfl)
  | announce hpoint hp =>
      exact Or.inl (noticesTo_congr rfl (held_update (by rw [hpoint]; rfl) j) rfl rfl)
  | announceFull hpoint hp =>
      exact Or.inl (noticesTo_congr rfl (held_update (by rw [hpoint]; rfl) j) rfl rfl)
  | @take idx notice rest hparent hpipe hidx =>
      refine Or.inr (Or.inl ⟨idx, notice, rfl, hidx, by rw [hpipe]; rfl, ?_⟩)
      simp [noticesTo, hparent, ParentPoint.held]
  | @forward notice sockfd i hparent hi hother =>
      refine Or.inl ?_
      by_cases hij : j = i
      · -- the notice goes from the parent into the pipe
        subst hij
        simp [noticesTo, hparent, ParentPoint.held]
      · have hle : i + 1 ≤ j ↔ i ≤ j := by omega
        simp [noticesTo, hparent, ParentPoint.held, Function.update_of_ne hij, hle]
  | @skip full notice sockfd i hparent hi hskip =>
      by_cases hij : j = i
      · subst hij
        refine Or.inr (Or.inr ⟨full, notice, sockfd, rfl, hparent, hskip, ?_⟩)
        simp [noticesTo, hparent, ParentPoint.held]
      · have hle : i + 1 ≤ j ↔ i ≤ j := by omega
        exact Or.inl (by simp [noticesTo, hparent, ParentPoint.held, hle])
  | @forwarded full notice sockfd i hparent hi =>
      refine Or.inl ?_
      have hnot : ¬ i ≤ j := by omega
      simp [noticesTo, hparent, ParentPoint.held, hnot]
  | @notified idx notice rest hpoint hpipe hidx =>
      refine Or.inl ?_
      by_cases hji : j = idx
      · subst hji
        simp [noticesTo, setChild, hpoint, hpipe, ChildPoint.held]
      · simp [noticesTo, setChild, Function.update_of_ne hji]
  | copy hpoint hlength =>
      exact Or.inl (noticesTo_congr rfl (held_update (by rw [hpoint]; rfl) j) rfl rfl)
  | @sent idx taken notice block hpoint hlength htaken =>
      refine Or.inl ?_
      by_cases hji : j = idx
      · subst hji
        simp [noticesTo, setChild, hpoint, ChildPoint.held]
      · simp [noticesTo, setChild, Function.update_of_ne hji]

/-- What the parent has not heard of stays, but for a new message, and for a notice that the parent
takes up or that does not fit into the pipe. -/
theorem unheard_moves (ha : s.Addressed) (h : s.Moves e t) (hk : k < s.tables.user_count) :
    (e ≠ .take k ∧ t.unheard k = s.unheard k ∧ t.stored k = s.stored k) ∨
      (∃ m, e = .recv k (some m) ∧ t.unheard k = s.unheard k ++ [(s.stored k).length] ∧
        t.stored k = s.stored k ++ [m]) ∨
      (∃ n, e = .take k ∧ (s.toParent k).head? = some n ∧ s.unheard k = n.number :: t.unheard k ∧
        t.stored k = s.stored k) ∨
      ∃ x, e = .announce k true ∧ t.unheard k ++ [x] = s.unheard k ∧ t.stored k = s.stored k := by
  cases h with
  | refused tables htables hcount husers => exact Or.inl ⟨by simp, rfl, rfl⟩
  | joined hparent hfresh htables =>
      refine Or.inl ⟨by simp, ?_, Function.update_of_ne (Nat.ne_of_lt hk) _ _⟩
      simp [unheard, join, Function.update_of_ne (Nat.ne_of_lt hk)]
  | readable hidx hpoint =>
      exact Or.inl ⟨by simp, unheard_congr rfl rfl (unannounced_update (by rw [hpoint]; rfl) k), rfl⟩
  | clear hpoint hp =>
      refine Or.inl ⟨by simp, unheard_congr rfl rfl (unannounced_update ?_ k), rfl⟩
      simp [write, hpoint, ChildPoint.unannounced]
  | again hpoint =>
      exact Or.inl ⟨by simp, unheard_congr rfl rfl (unannounced_update (by rw [hpoint]; rfl) k), rfl⟩
  | @recv idx p message hpoint hp hmessage hlength =>
      by_cases hki : k = idx
      · subst hki
        refine Or.inr (Or.inl ⟨message, rfl, ?_, Function.update_self _ _ _⟩)
        simp [unheard, setChild, hpoint, ChildPoint.unannounced]
      · refine Or.inl ⟨by simp, ?_, Function.update_of_ne hki _ _⟩
        simp [unheard, setChild, Function.update_of_ne hki]
  | store hpoint hb =>
      refine Or.inl ⟨by simp, unheard_congr rfl rfl (unannounced_update ?_ k), rfl⟩
      simp [write, hpoint, ChildPoint.unannounced]
  | @announce idx p message hpoint hp =>
      refine Or.inl ⟨by simp, ?_, rfl⟩
      by_cases hki : k = idx
      · -- the number goes from the child into the pipe
        subst hki
        simp [unheard, setChild, hpoint, ChildPoint.unannounced, numbers]
      · simp [unheard, setChild, Function.update_of_ne hki]
  | @announceFull idx p message hpoint hp =>
      by_cases hki : k = idx
      · subst hki
        refine Or.inr (Or.inr (Or.inr ⟨(s.stored k).length - 1, rfl, ?_, rfl⟩))
        simp [unheard, setChild, hpoint, ChildPoint.unannounced]
      · refine Or.inl ⟨by simp, ?_, rfl⟩
        simp [unheard, setChild, Function.update_of_ne hki]
  | @take idx notice rest hparent hpipe hidx =>
      by_cases hki : k = idx
      · subst hki
        have hclient : notice.client = k := ha.own k notice (by rw [hpipe]; exact List.mem_cons_self)
        refine Or.inr (Or.inr (Or.inl ⟨notice, rfl, by rw [hpipe]; rfl, ?_, rfl⟩))
        subst hclient
        simp [unheard, hpipe]
      · refine Or.inl ⟨by simp [Ne.symm hki], ?_, rfl⟩
        simp [unheard, Function.update_of_ne hki]
  | forward hparent hj hother => exact Or.inl ⟨by simp, rfl, rfl⟩
  | skip hparent hj hskip => exact Or.inl ⟨by simp, rfl, rfl⟩
  | forwarded hparent hj => exact Or.inl ⟨by simp, rfl, rfl⟩
  | notified hpoint hpipe hidx =>
      exact Or.inl ⟨by simp, unheard_congr rfl rfl (unannounced_update (by rw [hpoint]; rfl) k), rfl⟩
  | copy hpoint hlength =>
      exact Or.inl ⟨by simp, unheard_congr rfl rfl (unannounced_update (by rw [hpoint]; rfl) k), rfl⟩
  | sent hpoint hlength htaken =>
      exact Or.inl ⟨by simp, unheard_congr rfl rfl (unannounced_update (by rw [hpoint]; rfl) k), rfl⟩

/-- A step appends a new message to a flow or leaves it alone, unless a pipe is full. -/
theorem flow_moves (ha : s.Addressed) (h : s.Moves e t) (hj : j < s.tables.user_count)
    (hk : k < s.tables.user_count) (hne : j ≠ k) :
    (t.stored k = s.stored k ∧ (t.flow j k).Sublist (s.flow j k) ∧
        (e.Fits → t.flow j k = s.flow j k)) ∨
      ∃ m, t.stored k = s.stored k ++ [m] ∧ t.flow j k = s.flow j k ++ [(s.stored k).length] := by
  rcases unheard_moves ha h hk with ⟨htake, hu, hs⟩ | ⟨m, rfl, hu, hs⟩ | ⟨n, rfl, hn, hu, hs⟩ |
    ⟨x, rfl, hu, hs⟩
  · rcases noticesTo_moves h hj with hl | ⟨idx, n, rfl, hidx, hn, hl⟩ |
      ⟨full, n, sockfd, rfl, hparent, hskip, hl⟩
    · refine Or.inl ⟨hs, ?_⟩
      rw [flow, hl, hu]
      exact ⟨.refl _, fun _ => rfl⟩
    · -- a notice about another client
      have hik : n.client ≠ k := by
        rw [ha.own idx n (List.mem_of_mem_head? hn)]
        rintro rfl
        exact htake rfl
      refine Or.inl ⟨hs, ?_⟩
      rw [flow, hl, hu, numbers_append, numbers_cons_of_ne hik, numbers_nil, List.append_nil]
      exact ⟨.refl _, fun _ => rfl⟩
    · refine Or.inl ⟨hs, ?_⟩
      rw [flow, flow, hu, ← hl, numbers_append]
      refine ⟨(List.sublist_append_left _ _).append_right _, fun hfits => ?_⟩
      -- the pipe was not full, so this is the child that the notice came from
      have hown : n.client ≠ k := by
        rcases hskip with hpipe | hfull
        · obtain ⟨hclient, rfl⟩ := ha.parent n sockfd j hparent
          rw [← ha.pipes j n.client hj hclient hpipe]
          exact hne
        · exact absurd (hfull.symm.trans hfits) (by decide)
      rw [numbers_cons_of_ne hown, numbers_nil, List.append_nil]
  · refine Or.inr ⟨m, hs, ?_⟩
    rcases noticesTo_moves h hj with hl | ⟨idx, n, he, -⟩ | ⟨full, n, sockfd, he, -⟩
    · rw [flow, hl, hu, flow, List.append_assoc]
    · cases he
    · cases he
  · have hclient : n.client = k := ha.own k n (List.mem_of_mem_head? hn)
    have hl : t.noticesTo j = s.noticesTo j ++ [n] := by
      cases h with
      | take hparent hpipe hidx =>
          rw [hpipe] at hn
          cases hn
          simp [noticesTo, hparent, ParentPoint.held]
    refine Or.inl ⟨hs, ?_⟩
    subst hclient
    rw [flow, flow, hl, hu, numbers_append, numbers_cons_self, numbers_nil, List.append_assoc]
    exact ⟨.refl _, fun _ => rfl⟩
  · refine Or.inl ⟨hs, ?_⟩
    rcases noticesTo_moves h hj with hl | ⟨idx, n, he, -⟩ | ⟨full, n, sockfd, he, -⟩
    · rw [flow, hl, flow, ← hu]
      refine ⟨(List.sublist_append_left _ _).append_left _, fun hfits => absurd hfits ?_⟩
      exact (Bool.eq_not_iff.mp rfl)
    · cases he
    · cases he

/-- The parent's tables change only when a client comes. -/
theorem tables_moves (h : s.Moves e t) :
    (t.tables.user_count = s.tables.user_count ∧
        ∀ i, i < s.tables.user_count → t.tables.users i = s.tables.users i) ∨
      ∃ connfd pipefd pid, s.parent = .waiting ∧
        (∀ i, i < s.tables.user_count → (s.tables.users i).pipefd ≠ pipefd) ∧
        t = s.join (s.tables.forked connfd pipefd pid) := by
  cases h with
  | refused tables htables hcount husers => exact Or.inl ⟨hcount, husers⟩
  | joined hparent hfresh htables => exact Or.inr ⟨_, _, _, hparent, hfresh, rfl⟩
  | _ => exact Or.inl ⟨rfl, fun _ _ => rfl⟩

theorem Addressed.join {connfd pipefd pid : Nat} (ha : s.Addressed) (hparent : s.parent = .waiting)
    (hfresh : ∀ i, i < s.tables.user_count → (s.tables.users i).pipefd ≠ pipefd) :
    (s.join (s.tables.forked connfd pipefd pid)).Addressed := by
  have husers : ∀ i, i < s.tables.user_count →
      (s.tables.forked connfd pipefd pid).users i = s.tables.users i :=
    fun i hi => Function.update_of_ne (Nat.ne_of_lt hi) _ _
  have hnew : (s.tables.forked connfd pipefd pid).users s.tables.user_count = ⟨connfd, pid, pipefd⟩ :=
    Function.update_self _ _ _
  constructor
  case pipes =>
    intro i j hi hj hij
    replace hij : ((s.tables.forked connfd pipefd pid).users i).pipefd =
      ((s.tables.forked connfd pipefd pid).users j).pipefd := hij
    rcases Nat.lt_or_eq_of_le (Nat.le_of_lt_succ hi) with hi | rfl <;>
      rcases Nat.lt_or_eq_of_le (Nat.le_of_lt_succ hj) with hj | rfl
    · rw [husers i hi, husers j hj] at hij
      exact ha.pipes i j hi hj hij
    · rw [husers i hi, hnew] at hij
      exact absurd hij (hfresh i hi)
    · rw [husers j hj, hnew] at hij
      exact absurd hij.symm (hfresh j hj)
    · rfl
  case own =>
    intro k n hn
    by_cases hk : k = s.tables.user_count
    · subst hk
      simp [TalkMessages.join] at hn
    · simp only [TalkMessages.join, Function.update_of_ne hk] at hn
      exact ha.own k n hn
  case parent =>
    intro n sockfd j h
    exact absurd (hparent.symm.trans h) (by simp)
  case others =>
    intro j n hn hj
    rcases Nat.lt_or_eq_of_le (Nat.le_of_lt_succ hj) with hj | rfl
    · simp only [noticesTo, TalkMessages.join, Function.update_of_ne (Nat.ne_of_lt hj)] at hn
      exact Nat.lt_succ_of_lt (ha.others j n hn hj)
    · simp [noticesTo, TalkMessages.join, hparent, ChildPoint.held, ParentPoint.held] at hn
  case never =>
    intro j n hn
    by_cases hj : j = s.tables.user_count
    · subst hj
      simp [TalkMessages.join, ChildPoint.held] at hn
    · simp only [TalkMessages.join, Function.update_of_ne hj] at hn
      exact ha.never j n hn

/-- What a child has got was there before, or the parent has just written it to its pipe. -/
theorem reached_moves (h : s.Moves e t) (hparent : ∀ n sockfd, s.parent = .forwarding n sockfd j →
      (s.tables.users j).pipefd ≠ sockfd → n.client ≠ j)
    (hold : ∀ n ∈ (s.sent j).map Prod.fst ++ ((s.child j).held ++ s.toChild j), n.client ≠ j) :
    ∀ n ∈ (t.sent j).map Prod.fst ++ ((t.child j).held ++ t.toChild j), n.client ≠ j := by
  have hsame : ∀ {u : TalkMessages}, u.sent j = s.sent j → (u.child j).held = (s.child j).held →
      u.toChild j = s.toChild j →
      ∀ n ∈ (u.sent j).map Prod.fst ++ ((u.child j).held ++ u.toChild j), n.client ≠ j := by
    intro u hsent hheld hpipe
    rw [hsent, hheld, hpipe]
    exact hold
  cases h with
  | refused tables htables hcount husers => exact hold
  | joined hparent hfresh htables =>
      by_cases hj : j = s.tables.user_count
      · subst hj
        simp [TalkMessages.join, ChildPoint.held]
      · simp only [TalkMessages.join, Function.update_of_ne hj]
        exact hold
  | readable hidx hpoint => exact hsame rfl (held_update (by rw [hpoint]; rfl) j) rfl
  | clear hpoint hp =>
      exact hsame rfl (held_update (by simp [write, hpoint, ChildPoint.held]) j) rfl
  | again hpoint => exact hsame rfl (held_update (by rw [hpoint]; rfl) j) rfl
  | recv hpoint hp hmessage hlength => exact hsame rfl (held_update (by rw [hpoint]; rfl) j) rfl
  | store hpoint hb =>
      exact hsame rfl (held_update (by simp [write, hpoint, ChildPoint.held]) j) rfl
  | announce hpoint hp => exact hsame rfl (held_update (by rw [hpoint]; rfl) j) rfl
  | announceFull hpoint hp => exact hsame rfl (held_update (by rw [hpoint]; rfl) j) rfl
  | take hparent hpipe hidx => exact hold
  | @forward notice sockfd i hforward hi hother =>
      by_cases hij : j = i
      · subst hij
        intro n hn
        simp only [Function.update_self, ← List.append_assoc, List.mem_append,
          List.mem_singleton] at hn
        rcases hn with hn | rfl
        · exact hold n (by simpa only [← List.append_assoc, List.mem_append] using hn)
        · exact hparent n sockfd hforward hother
      · exact hsame rfl rfl (Function.update_of_ne hij _ _)
  | skip hforward hi hskip => exact hold
  | forwarded hforward hi => exact hold
  | @notified idx notice rest hpoint hpipe hidx =>
      by_cases hji : j = idx
      · subst hji
        simpa [setChild, hpoint, hpipe, ChildPoint.held] using hold
      · exact hsame rfl (congrArg ChildPoint.held (Function.update_of_ne hji _ _))
          (Function.update_of_ne hji _ _)
  | copy hpoint hlength => exact hsame rfl (held_update (by rw [hpoint]; rfl) j) rfl
  | @sent idx taken notice block hpoint hlength htaken =>
      by_cases hji : j = idx
      · subst hji
        simpa [setChild, hpoint, ChildPoint.held, or_assoc] using hold
      · exact hsame (Function.update_of_ne hji _ _)
          (congrArg ChildPoint.held (Function.update_of_ne hji _ _)) rfl

/-- A child writes its own index to its pipe. -/
theorem own_moves (h : s.Moves e t) (hold : ∀ n ∈ s.toParent k, n.client = k) :
    ∀ n ∈ t.toParent k, n.client = k := by
  cases h with
  | joined hparent hfresh htables =>
      by_cases hk : k = s.tables.user_count
      · subst hk
        simp [TalkMessages.join]
      · simp only [TalkMessages.join, Function.update_of_ne hk]
        exact hold
  | @announce idx p message hpoint hp =>
      by_cases hki : k = idx
      · subst hki
        intro n hn
        simp only [Function.update_self, List.mem_append, List.mem_singleton] at hn
        rcases hn with hn | rfl
        · exact hold n hn
        · rfl
      · simp only [Function.update_of_ne hki]
        exact hold
  | @take idx notice rest hparent hpipe hidx =>
      by_cases hki : k = idx
      · subst hki
        intro n hn
        simp only [Function.update_self] at hn
        exact hold n (by rw [hpipe]; exact List.mem_cons_of_mem notice hn)
      · simp only [Function.update_of_ne hki]
        exact hold
  | _ => exact hold

/-- The parent goes on with its notice, or has just taken it out of a pipe. -/
theorem parent_moves {n : Notice} {sockfd i : Nat} (h : s.Moves e t)
    (ht : t.parent = .forwarding n sockfd i) :
    (∃ i, s.parent = .forwarding n sockfd i) ∨
      ∃ idx, n ∈ s.toParent idx ∧ idx < s.tables.user_count ∧
        sockfd = (s.tables.users idx).pipefd := by
  cases h with
  | @take idx notice rest hparent hpipe hidx =>
      cases ht
      exact Or.inr ⟨idx, by rw [hpipe]; exact List.mem_cons_self, hidx, rfl⟩
  | forward hparent hj hother =>
      cases ht
      exact Or.inl ⟨_, hparent⟩
  | skip hparent hj hskip =>
      cases ht
      exact Or.inl ⟨_, hparent⟩
  | forwarded hparent hj => cases ht
  | _ => exact Or.inl ⟨i, ht⟩

/-- Notices stay addressed. -/
theorem Addressed.moves (ha : s.Addressed) (h : s.Moves e t) : t.Addressed := by
  rcases tables_moves h with ⟨hcount, husers⟩ | ⟨connfd, pipefd, pid, hparent, hfresh, rfl⟩
  · constructor
    case pipes =>
      intro i j hi hj hij
      rw [hcount] at hi hj
      rw [husers i hi, husers j hj] at hij
      exact ha.pipes i j hi hj hij
    case own => exact fun k => own_moves h (ha.own k)
    case parent =>
      intro n sockfd i ht
      have hclient : n.client < s.tables.user_count ∧
          sockfd = (s.tables.users n.client).pipefd := by
        rcases parent_moves h ht with ⟨i, hs⟩ | ⟨idx, hn, hidx, rfl⟩
        · exact ha.parent n sockfd i hs
        · rw [ha.own idx n hn]
          exact ⟨hidx, rfl⟩
      rw [hcount, husers n.client hclient.1]
      exact hclient
    case others =>
      intro j n hn hj
      rw [hcount] at hj ⊢
      rcases noticesTo_moves h hj with hl | ⟨idx, n', -, hidx, hn', hl⟩ | ⟨-, n', -, -, -, -, hl⟩
      · rw [hl] at hn
        exact ha.others j n hn hj
      · rw [hl, List.mem_append, List.mem_singleton] at hn
        rcases hn with hn | rfl
        · exact ha.others j n hn hj
        · rw [ha.own idx n (List.mem_of_mem_head? hn')]
          exact hidx
      · exact ha.others j n (by rw [← hl]; exact List.mem_append_left _ hn) hj
    case never =>
      intro j
      refine reached_moves h (fun n sockfd hparent hne => ?_) (ha.never j)
      rintro rfl
      exact hne (ha.parent n sockfd n.client hparent).2.symm
  · exact ha.join hparent hfresh

/-- The messages on their way: a flow is in the order of its messages, and names only messages that
were received. -/
structure Ordered (s : TalkMessages) : Prop where
  unheard : ∀ k, k < s.tables.user_count →
    (s.unheard k).Pairwise (· < ·) ∧ ∀ x ∈ s.unheard k, x < (s.stored k).length
  flow : ∀ j k, j < s.tables.user_count → k < s.tables.user_count → j ≠ k →
    (s.flow j k).Pairwise (· < ·) ∧ ∀ x ∈ s.flow j k, x < (s.stored k).length

/-- Nothing was lost: a flow ends with the last message, and lists every message when the sender
came after the receiver. -/
structure Complete (s : TalkMessages) : Prop where
  unheard : ∀ k, k < s.tables.user_count → s.unheard k <:+ List.range (s.stored k).length
  flow : ∀ j k, j < s.tables.user_count → k < s.tables.user_count → j ≠ k →
    s.flow j k <:+ List.range (s.stored k).length
  all : ∀ j k, j < k → k < s.tables.user_count → s.flow j k = List.range (s.stored k).length

/-- An increasing list below `n` may go on with `n`. -/
theorem pairwise_lt_concat {l : List Nat} {n : Nat}
    (h : l.Pairwise (· < ·) ∧ ∀ x ∈ l, x < n) :
    (l ++ [n]).Pairwise (· < ·) ∧ ∀ x ∈ l ++ [n], x < n + 1 := by
  constructor
  · refine List.pairwise_append.mpr ⟨h.1, List.pairwise_singleton _ _, fun x hx y hy => ?_⟩
    rw [List.mem_singleton.mp hy]
    exact h.2 x hx
  · intro x hx
    rcases List.mem_append.mp hx with hx | hx
    · exact Nat.lt_succ_of_lt (h.2 x hx)
    · rw [List.mem_singleton.mp hx]
      exact Nat.lt_succ_self n

theorem suffix_range_concat {l : List Nat} {n : Nat} (h : l <:+ List.range n) :
    l ++ [n] <:+ List.range (n + 1) := by
  obtain ⟨front, hfront⟩ := h
  exact ⟨front, by rw [List.range_succ, ← hfront, List.append_assoc]⟩

/-- The flows to and from a new client. -/
structure Joining (s t : TalkMessages) : Prop where
  count : t.tables.user_count = s.tables.user_count + 1
  stored : ∀ k, k < s.tables.user_count → t.stored k = s.stored k
  unheard : ∀ k, k < s.tables.user_count → t.unheard k = s.unheard k
  flow : ∀ j k, j < s.tables.user_count → k < s.tables.user_count → t.flow j k = s.flow j k
  arrives : ∀ k, k < s.tables.user_count → t.flow s.tables.user_count k = s.unheard k
  silent : t.stored s.tables.user_count = [] ∧ t.unheard s.tables.user_count = []
  unsent : ∀ j, j < s.tables.user_count → t.flow j s.tables.user_count = []

theorem joining {connfd pipefd pid : Nat} (ha : s.Addressed) (hparent : s.parent = .waiting) :
    Joining s (s.join (s.tables.forked connfd pipefd pid)) := by
  have hto : ∀ j, j < s.tables.user_count →
      (s.join (s.tables.forked connfd pipefd pid)).noticesTo j = s.noticesTo j := by
    intro j hj
    simp [noticesTo, TalkMessages.join, Function.update_of_ne (Nat.ne_of_lt hj)]
  have hnew : (s.join (s.tables.forked connfd pipefd pid)).noticesTo s.tables.user_count = [] := by
    simp [noticesTo, TalkMessages.join, hparent, ChildPoint.held, ParentPoint.held]
  have hunheard : ∀ k, k < s.tables.user_count →
      (s.join (s.tables.forked connfd pipefd pid)).unheard k = s.unheard k := by
    intro k hk
    simp [TalkMessages.unheard, TalkMessages.join, Function.update_of_ne (Nat.ne_of_lt hk)]
  have hsilent : (s.join (s.tables.forked connfd pipefd pid)).unheard s.tables.user_count = [] := by
    simp [TalkMessages.unheard, TalkMessages.join, ChildPoint.unannounced]
  constructor
  case count => rfl
  case stored => exact fun k hk => Function.update_of_ne (Nat.ne_of_lt hk) _ _
  case unheard => exact hunheard
  case flow =>
    intro j k hj hk
    rw [TalkMessages.flow, hto j hj, hunheard k hk, TalkMessages.flow]
  case arrives =>
    intro k hk
    rw [TalkMessages.flow, hnew, hunheard k hk, numbers_nil, List.nil_append]
  case silent => exact ⟨Function.update_self _ _ _, hsilent⟩
  case unsent =>
    intro j hj
    rw [TalkMessages.flow, hto j hj, hsilent, List.append_nil]
    exact numbers_eq_nil fun n hn => Nat.ne_of_lt (ha.others j n hn hj)

theorem Ordered.joining (h : s.Ordered) (hj : Joining s t) : t.Ordered := by
  constructor
  case unheard =>
    intro k hk
    rw [hj.count] at hk
    rcases Nat.lt_or_eq_of_le (Nat.le_of_lt_succ hk) with hk | rfl
    · rw [hj.unheard k hk, hj.stored k hk]
      exact h.unheard k hk
    · rw [hj.silent.2]
      exact ⟨.nil, fun _ hx => absurd hx List.not_mem_nil⟩
  case flow =>
    intro j k hjt hkt hne
    rw [hj.count] at hjt hkt
    rcases Nat.lt_or_eq_of_le (Nat.le_of_lt_succ hjt) with hjs | rfl <;>
      rcases Nat.lt_or_eq_of_le (Nat.le_of_lt_succ hkt) with hks | rfl
    · rw [hj.flow j k hjs hks, hj.stored k hks]
      exact h.flow j k hjs hks hne
    · rw [hj.unsent j hjs]
      exact ⟨.nil, fun _ hx => absurd hx List.not_mem_nil⟩
    · rw [hj.arrives k hks, hj.stored k hks]
      exact h.unheard k hks
    · exact absurd rfl hne

theorem Complete.joining (h : s.Complete) (hj : Joining s t) : t.Complete := by
  constructor
  case unheard =>
    intro k hk
    rw [hj.count] at hk
    rcases Nat.lt_or_eq_of_le (Nat.le_of_lt_succ hk) with hk | rfl
    · rw [hj.unheard k hk, hj.stored k hk]
      exact h.unheard k hk
    · rw [hj.silent.2]
      exact List.nil_suffix
  case flow =>
    intro j k hjt hkt hne
    rw [hj.count] at hjt hkt
    rcases Nat.lt_or_eq_of_le (Nat.le_of_lt_succ hjt) with hjs | rfl <;>
      rcases Nat.lt_or_eq_of_le (Nat.le_of_lt_succ hkt) with hks | rfl
    · rw [hj.flow j k hjs hks, hj.stored k hks]
      exact h.flow j k hjs hks hne
    · rw [hj.unsent j hjs]
      exact List.nil_suffix
    · -- the new client hears of what the parent had not taken up when it came
      rw [hj.arrives k hks, hj.stored k hks]
      exact h.unheard k hks
    · exact absurd rfl hne
  case all =>
    intro j k hjk hkt
    rw [hj.count] at hkt
    rcases Nat.lt_or_eq_of_le (Nat.le_of_lt_succ hkt) with hks | rfl
    · rw [hj.flow j k (hjk.trans hks) hks, hj.stored k hks]
      exact h.all j k hjk hks
    · rw [hj.unsent j hjk, hj.silent.1]
      rfl

theorem Ordered.moves (ho : s.Ordered) (ha : s.Addressed) (h : s.Moves e t) : t.Ordered := by
  rcases tables_moves h with ⟨hcount, -⟩ | ⟨connfd, pipefd, pid, hparent, -, rfl⟩
  · constructor
    case unheard =>
      intro k hk
      rw [hcount] at hk
      rcases unheard_moves ha h hk with ⟨-, hu, hs⟩ | ⟨m, -, hu, hs⟩ | ⟨n, -, -, hu, hs⟩ |
        ⟨x, -, hu, hs⟩
      · rw [hu, hs]
        exact ho.unheard k hk
      · rw [hu, hs, List.length_append, List.length_singleton]
        exact pairwise_lt_concat (ho.unheard k hk)
      · have hsub : (t.unheard k).Sublist (s.unheard k) := hu ▸ List.sublist_cons_self _ _
        rw [hs]
        exact ⟨(ho.unheard k hk).1.sublist hsub, fun y hy => (ho.unheard k hk).2 y (hsub.subset hy)⟩
      · have hsub : (t.unheard k).Sublist (s.unheard k) := hu ▸ List.sublist_append_left _ _
        rw [hs]
        exact ⟨(ho.unheard k hk).1.sublist hsub, fun y hy => (ho.unheard k hk).2 y (hsub.subset hy)⟩
    case flow =>
      intro j k hj hk hne
      rw [hcount] at hj hk
      rcases flow_moves ha h hj hk hne with ⟨hs, hsub, -⟩ | ⟨m, hs, hf⟩
      · rw [hs]
        exact ⟨(ho.flow j k hj hk hne).1.sublist hsub,
          fun y hy => (ho.flow j k hj hk hne).2 y (hsub.subset hy)⟩
      · rw [hf, hs, List.length_append, List.length_singleton]
        exact pairwise_lt_concat (ho.flow j k hj hk hne)
  · exact ho.joining (TalkMessages.joining ha hparent)

theorem Complete.moves (hc : s.Complete) (ha : s.Addressed) (hfits : e.Fits) (h : s.Moves e t) :
    t.Complete := by
  rcases tables_moves h with ⟨hcount, -⟩ | ⟨connfd, pipefd, pid, hparent, -, rfl⟩
  · constructor
    case unheard =>
      intro k hk
      rw [hcount] at hk
      rcases unheard_moves ha h hk with ⟨-, hu, hs⟩ | ⟨m, -, hu, hs⟩ | ⟨n, -, -, hu, hs⟩ |
        ⟨x, rfl, -⟩
      · rw [hu, hs]
        exact hc.unheard k hk
      · rw [hu, hs, List.length_append, List.length_singleton]
        exact suffix_range_concat (hc.unheard k hk)
      · rw [hs]
        exact (hu ▸ List.suffix_cons _ _ : t.unheard k <:+ s.unheard k).trans (hc.unheard k hk)
      · exact absurd hfits (by simp [MessageEvent.Fits])
    case flow =>
      intro j k hj hk hne
      rw [hcount] at hj hk
      rcases flow_moves ha h hj hk hne with ⟨hs, -, hf⟩ | ⟨m, hs, hf⟩
      · rw [hs, hf hfits]
        exact hc.flow j k hj hk hne
      · rw [hf, hs, List.length_append, List.length_singleton]
        exact suffix_range_concat (hc.flow j k hj hk hne)
    case all =>
      intro j k hjk hk
      rw [hcount] at hk
      rcases flow_moves ha h (hjk.trans hk) hk (Nat.ne_of_lt hjk) with ⟨hs, -, hf⟩ | ⟨m, hs, hf⟩
      · rw [hs, hf hfits]
        exact hc.all j k hjk hk
      · rw [hf, hs, List.length_append, List.length_singleton, List.range_succ, hc.all j k hjk hk]
  · exact hc.joining (TalkMessages.joining ha hparent)

end Flow

end TalkMessages

end CLanguageLearning.Chat
