import CLanguageLearning.Foundation.CString
import CLanguageLearning.Foundation.Transitions

/-!
# The chat server with poll

The loop of `9-7mytalk_server.cpp`: `fds` holds the listening socket and the clients without gaps,
`users` the data of every descriptor. A message that has been received stays in the buffer of its
sender; every other client gets a pointer to it and waits until it is writable. A client that leaves
is overwritten with the last one, in `fds` and in `users`.

An event is a call of `poll` or one turn of the loop over `fds` after it, so a state is one at the
top of the outer or of the inner loop. The calls that the server has made are kept, the last one
first.
-/

set_option autoImplicit false

namespace CLanguageLearning.Chat.Poll

open CLanguageLearning.Foundation

def USER_LIMIT : Nat := 5

def BUFFER_SIZE : Nat := 64

def FD_LIMIT : Nat := 65535

/-! ## Masks -/

def POLLIN : BitVec 16 := 0x001

def POLLOUT : BitVec 16 := 0x004

def POLLERR : BitVec 16 := 0x008

def POLLHUP : BitVec 16 := 0x010

def POLLNVAL : BitVec 16 := 0x020

def POLLRDHUP : BitVec 16 := 0x2000

/-- `mask & flag`, as a condition. -/
def has (mask flag : BitVec 16) : Bool := mask &&& flag ≠ 0

/-- What `poll` can report for a descriptor: the events it was asked for and the three that are
always reported. -/
def Reported (events revents : BitVec 16) : Prop :=
  revents &&& ~~~(events ||| (POLLERR ||| POLLHUP ||| POLLNVAL)) = 0

instance (events revents : BitVec 16) : Decidable (Reported events revents) :=
  inferInstanceAs (Decidable (_ = _))

section Masks

variable {events revents mask flag : BitVec 16}

theorem has_eq_false_iff : has mask flag = false ↔ mask &&& flag = 0 := by
  simp [has]

theorem has_or (mask events flag : BitVec 16) :
    has (mask ||| events) flag = (has mask flag || has events flag) := by
  have hdistrib : (mask ||| events) &&& flag = mask &&& flag ||| events &&& flag := by
    ext k
    simp only [BitVec.getElem_and, BitVec.getElem_or]
    exact Bool.and_or_distrib_right ..
  rw [has, has, has, hdistrib]
  simp [BitVec.or_eq_zero_iff]

theorem has_or_self (h : flag ≠ 0) : has (mask ||| flag) flag = true := by
  have habsorb : (mask ||| flag) &&& flag = flag := by
    ext k
    simp only [BitVec.getElem_and, BitVec.getElem_or, Bool.and_eq_right_iff_imp, Bool.or_eq_true]
    exact Or.inr
  simpa [has, habsorb] using h

/-- A reported event was asked for, or is reported always. -/
theorem Reported.has (h : Reported events revents) (hrev : has revents flag = true) :
    Poll.has (events ||| (POLLERR ||| POLLHUP ||| POLLNVAL)) flag = true := by
  by_contra hno
  rw [Bool.not_eq_true, has_eq_false_iff] at hno
  have hzero : revents &&& flag = 0 := by
    have hsplit : revents &&& flag =
        (revents &&& ~~~(events ||| (POLLERR ||| POLLHUP ||| POLLNVAL))) &&& flag |||
          revents &&& ((events ||| (POLLERR ||| POLLHUP ||| POLLNVAL)) &&& flag) := by
      ext k
      simp
      grind
    rw [hsplit, hno, h]
    simp
  rw [← has_eq_false_iff, hrev] at hzero
  cases hzero

/-- Asking for more does not make a report wrong. -/
theorem Reported.mono (h : Reported events revents) (mask : BitVec 16) :
    Reported (events ||| mask) revents := by
  have hle : revents &&& ~~~(events ||| mask ||| (POLLERR ||| POLLHUP ||| POLLNVAL)) =
      revents &&& ~~~(events ||| (POLLERR ||| POLLHUP ||| POLLNVAL)) &&& ~~~mask := by
    ext k
    simp
    grind
  rw [Reported, hle, h]
  simp

end Masks

/-! ## The server -/

structure PollFd where
  fd : Int
  events : BitVec 16
  revents : BitVec 16
  deriving DecidableEq

/-- An entry of `users`. A pointer in `write_buf` is named by the entry whose `buf` it points to. -/
structure ClientData where
  write_buf : Option Int
  buf : List UInt8

/-- A system call of the server. What is sent is `none` for a string that goes on behind the end of
its buffer. -/
inductive Call where
  | accepted (fd : Int)
  | closed (fd : Int)
  | received (fd : Int) (message : List UInt8)
  | sent (fd : Int) (text : Option (List UInt8))

/-- The client was accepted and has not been closed. -/
def isOpen (fd : Int) : List Call → Bool
  | [] => false
  | .accepted c :: calls => c = fd || isOpen fd calls
  | .closed c :: calls => c ≠ fd && isOpen fd calls
  | _ :: calls => isOpen fd calls

/-- What `recv` answers. -/
inductive Recv where
  | data (message : List UInt8)
  | eof
  | again
  | error
  deriving DecidableEq

/-- The branches of the inner loop. -/
inductive Branch where
  | accept
  | error
  | leave
  | read
  | write
  | idle
  deriving DecidableEq

/-- The outer loop is before `poll`, the inner loop before its turn `i`. -/
inductive Point where
  | polling
  | scanning (i : Nat)
  deriving DecidableEq

/-- The server. `present` are the clients at the last call of `poll`, `examined` the descriptors that
the loop has come to since. -/
structure PollServer where
  listenfd : Int
  fds : Nat → PollFd
  user_counter : Nat
  users : Int → ClientData
  point : Point
  calls : List Call
  present : List Int
  examined : List Int

/-- What can happen next: `poll` returns with what it reports for each slot; a turn of the inner
loop, with the answers of `accept` and `recv` if it makes these calls. -/
inductive PollEvent where
  | poll (revents : Nat → BitVec 16)
  | turn (connfd : Int) (ret : Recv)

namespace PollServer

/-- The server before its loop. The new array of `users` has no initial values. -/
def start (listenfd : Int) (users : Int → ClientData) : PollServer where
  listenfd := listenfd
  fds i := if i = 0 then ⟨listenfd, POLLIN ||| POLLERR, 0⟩ else ⟨-1, 0, 0⟩
  user_counter := 0
  users := users
  point := .polling
  calls := []
  present := []
  examined := []

/-- The descriptors of the clients. -/
def clients (s : PollServer) : List Int :=
  (List.range s.user_counter).map fun j => (s.fds (j + 1)).fd

def info : List UInt8 := "too many users\n".toList.map fun c => c.toNat.toUInt8

/-- The branch of a new connection. `accept` returns a descriptor that is not open. -/
def newClient (s : PollServer) (connfd : Int) : Option PollServer :=
  if connfd < 0 then some s
  else if connfd < FD_LIMIT ∧ connfd ≠ s.listenfd ∧ isOpen connfd s.calls = false then
    if USER_LIMIT ≤ s.user_counter then
      some { s with calls := .closed connfd :: .sent connfd (some info) :: .accepted connfd ::
        s.calls }
    else
      some { s with
        user_counter := s.user_counter + 1
        fds := Function.update s.fds (s.user_counter + 1)
          ⟨connfd, POLLIN ||| POLLRDHUP ||| POLLERR, 0⟩
        calls := .accepted connfd :: s.calls }
  else none

/-- The client in the slot `i` is closed and overwritten with the last one. -/
def remove (s : PollServer) (i : Nat) : PollServer :=
  { s with
    users := Function.update s.users (s.fds i).fd (s.users (s.fds s.user_counter).fd)
    fds := Function.update s.fds i (s.fds s.user_counter)
    user_counter := s.user_counter - 1
    calls := .closed (s.fds i).fd :: s.calls }

/-- One turn of the loop that tells the other clients of a message. -/
def notify (connfd : Int) (s : PollServer) (j : Nat) : PollServer :=
  let p := s.fds j
  if p.fd = connfd then s
  else { s with
    fds := Function.update s.fds j { p with events := p.events ||| ~~~POLLIN ||| POLLOUT }
    users := Function.update s.users p.fd { s.users p.fd with write_buf := some connfd } }

/-- The loop over the slots `1` to `n`. -/
def notifyUpTo (connfd : Int) (s : PollServer) : Nat → PollServer
  | 0 => s
  | n + 1 => notify connfd (notifyUpTo connfd s n) (n + 1)

/-- The buffer of the entry `fd` is cleared and filled with `message`. -/
def fill (s : PollServer) (fd : Int) (message : List UInt8) : PollServer :=
  { s with users := Function.update s.users fd { s.users fd with
      buf := message ++ List.replicate (BUFFER_SIZE - message.length) 0 } }

/-- The branch of a readable client in the slot `i`, with the next index. -/
def receive (s : PollServer) (i : Nat) (ret : Recv) : Option (PollServer × Nat) :=
  let connfd := (s.fds i).fd
  match ret with
  | .data message =>
      if 0 < message.length ∧ message.length < BUFFER_SIZE then
        let t := (s.fill connfd message).notifyUpTo connfd s.user_counter
        some ({ t with calls := .received connfd message :: s.calls }, i + 1)
      else none
  | .eof => some (s.fill connfd [], i + 1)
  | .again => some (s.fill connfd [], i + 1)
  | .error => some ((s.fill connfd []).remove i, i)

/-- The text at `write_buf` of the client `fd`. -/
def text (s : PollServer) (fd : Int) : Option (List UInt8) := cstring (s.users fd).buf

/-- The branch of a writable client in the slot `i`. `send` transmits the whole text. -/
def flush (s : PollServer) (i : Nat) : PollServer :=
  let p := s.fds i
  match (s.users p.fd).write_buf with
  | none => s
  | some a =>
      { s with
        fds := Function.update s.fds i { p with events := p.events ||| ~~~POLLOUT ||| POLLIN }
        users := Function.update s.users p.fd { s.users p.fd with write_buf := none }
        calls := .sent p.fd (s.text a) :: s.calls }

/-- The branch for what `poll` has reported for the slot `i`. -/
def branch (s : PollServer) (i : Nat) : Branch :=
  let p := s.fds i
  if p.fd = s.listenfd ∧ has p.revents POLLIN then .accept
  else if has p.revents POLLERR then .error
  else if has p.revents POLLRDHUP then .leave
  else if has p.revents POLLIN then .read
  else if has p.revents POLLOUT then .write
  else .idle

/-- One turn of the inner loop, with the next index. -/
def turn (s : PollServer) (i : Nat) (connfd : Int) (ret : Recv) : Option (PollServer × Nat) :=
  match s.branch i with
  | .accept => (s.newClient connfd).map fun t => (t, i + 1)
  | .error => some (s, i + 1)
  | .leave => some (s.remove i, i)
  | .read => s.receive i ret
  | .write => some (s.flush i, i + 1)
  | .idle => some (s, i + 1)

def step (s : PollServer) : PollEvent → Option PollServer
  | .poll revents =>
      if s.point = .polling ∧
          ∀ i, i < s.user_counter + 1 → Reported (s.fds i).events (revents i) then
        some { s with
          fds := fun i =>
            if i < s.user_counter + 1 then { s.fds i with revents := revents i } else s.fds i
          point := .scanning 0
          present := s.clients
          examined := [] }
      else none
  | .turn connfd ret =>
      match s.point with
      | .polling => none
      | .scanning i =>
          (s.turn i connfd ret).map fun (t, next) =>
            { t with
              point := if next < t.user_counter + 1 then .scanning next else .polling
              examined := (s.fds i).fd :: s.examined }

/-! ## What a turn can do -/

/-- `connfd` can be the answer of `accept`. -/
structure Fresh (s : PollServer) (connfd : Int) : Prop where
  nonneg : 0 ≤ connfd
  lt : connfd < FD_LIMIT
  ne : connfd ≠ s.listenfd
  notOpen : isOpen connfd s.calls = false

/-- A new connection is closed at once. -/
def refused (s : PollServer) (connfd : Int) : PollServer :=
  { s with calls := .closed connfd :: .sent connfd (some info) :: .accepted connfd :: s.calls }

/-- A new client gets the next slot. -/
def admitted (s : PollServer) (connfd : Int) : PollServer :=
  { s with
    user_counter := s.user_counter + 1
    fds := Function.update s.fds (s.user_counter + 1)
      ⟨connfd, POLLIN ||| POLLRDHUP ||| POLLERR, 0⟩
    calls := .accepted connfd :: s.calls }

/-- A message in the buffer of its sender, of which all other clients have been told. -/
def announced (s : PollServer) (i : Nat) (message : List UInt8) : PollServer :=
  { (s.fill (s.fds i).fd message).notifyUpTo (s.fds i).fd s.user_counter with
    calls := .received (s.fds i).fd message :: s.calls }

/-- The client in the slot `i` is sent the text of the entry `a`. -/
def written (s : PollServer) (i : Nat) (a : Int) : PollServer :=
  { s with
    fds := Function.update s.fds i
      { s.fds i with events := (s.fds i).events ||| ~~~POLLOUT ||| POLLIN }
    users := Function.update s.users (s.fds i).fd { s.users (s.fds i).fd with write_buf := none }
    calls := .sent (s.fds i).fd (s.text a) :: s.calls }

/-- The state and the next index after the turn `i`. -/
inductive Turned (s : PollServer) (i : Nat) (connfd : Int) (ret : Recv) : PollServer → Nat → Prop
  | idle (hread : s.branch i ≠ .read) (haccept : s.branch i = .accept → connfd < 0) :
      Turned s i connfd ret s (i + 1)
  | refuse (hbranch : s.branch i = .accept) (hfresh : s.Fresh connfd)
      (hfull : USER_LIMIT ≤ s.user_counter) : Turned s i connfd ret (s.refused connfd) (i + 1)
  | enter (hbranch : s.branch i = .accept) (hfresh : s.Fresh connfd)
      (hroom : s.user_counter < USER_LIMIT) : Turned s i connfd ret (s.admitted connfd) (i + 1)
  | leave (hbranch : s.branch i = .leave) : Turned s i connfd ret (s.remove i) i
  | message (m : List UInt8) (hbranch : s.branch i = .read) (hret : ret = .data m)
      (hpos : 0 < m.length) (hlt : m.length < BUFFER_SIZE) :
      Turned s i connfd ret (s.announced i m) (i + 1)
  | empty (hbranch : s.branch i = .read) (hret : ret = .eof ∨ ret = .again) :
      Turned s i connfd ret (s.fill (s.fds i).fd []) (i + 1)
  | fail (hbranch : s.branch i = .read) (hret : ret = .error) :
      Turned s i connfd ret ((s.fill (s.fds i).fd []).remove i) i
  | write (a : Int) (hbranch : s.branch i = .write)
      (hbuf : (s.users (s.fds i).fd).write_buf = some a) :
      Turned s i connfd ret (s.written i a) (i + 1)

section Steps

variable {s t : PollServer} {i j n next : Nat} {connfd fd a : Int} {ret : Recv} {e : PollEvent}
  {m : List UInt8}

theorem turned_of_turn (h : s.turn i connfd ret = some (t, next)) :
    Turned s i connfd ret t next := by
  rw [turn] at h
  split at h
  · next hbranch =>
    rw [Option.map_eq_some_iff] at h
    obtain ⟨u, hu, heq⟩ := h
    cases heq
    rw [newClient] at hu
    split at hu
    · next hneg =>
      cases hu
      exact .idle (by simp [hbranch]) fun _ => hneg
    · next hnonneg =>
      split at hu
      · next hfd =>
        have hfresh : s.Fresh connfd := ⟨not_lt.mp hnonneg, hfd.1, hfd.2.1, hfd.2.2⟩
        split at hu
        · next hfull =>
          cases hu
          exact .refuse hbranch hfresh hfull
        · next hroom =>
          cases hu
          exact .enter hbranch hfresh (not_le.mp hroom)
      · cases hu
  · next hbranch =>
    cases h
    exact .idle (by simp [hbranch]) (by simp [hbranch])
  · next hbranch =>
    cases h
    exact .leave hbranch
  · next hbranch =>
    unfold receive at h
    cases ret with
    | data m =>
        dsimp only at h
        split at h
        · next hlen =>
          cases h
          exact .message m hbranch rfl hlen.1 hlen.2
        · cases h
    | eof =>
        cases h
        exact .empty hbranch (.inl rfl)
    | again =>
        cases h
        exact .empty hbranch (.inr rfl)
    | error =>
        cases h
        exact .fail hbranch rfl
  · next hbranch =>
    cases h
    rw [flush]
    split
    · exact .idle (by simp [hbranch]) (by simp [hbranch])
    · next a hbuf => exact .write a hbranch hbuf
  · next hbranch =>
    cases h
    exact .idle (by simp [hbranch]) (by simp [hbranch])

/-- The state after a turn of the inner loop. -/
def advanced (s : PollServer) (i : Nat) (t : PollServer) (next : Nat) : PollServer :=
  { t with
    point := if next < t.user_counter + 1 then .scanning next else .polling
    examined := (s.fds i).fd :: s.examined }

/-- The state after a call of `poll`. -/
def polled (s : PollServer) (revents : Nat → BitVec 16) : PollServer :=
  { s with
    fds := fun i =>
      if i < s.user_counter + 1 then { s.fds i with revents := revents i } else s.fds i
    point := .scanning 0
    present := s.clients
    examined := [] }

theorem step_cases (h : s.step e = some t) :
    (∃ revents, e = .poll revents ∧ s.point = .polling ∧
      (∀ i, i < s.user_counter + 1 → Reported (s.fds i).events (revents i)) ∧
      t = s.polled revents) ∨
    (∃ connfd ret i u next, e = .turn connfd ret ∧ s.point = .scanning i ∧
      Turned s i connfd ret u next ∧ t = s.advanced i u next) := by
  cases e with
  | poll revents =>
      rw [step, Option.ite_none_right_eq_some] at h
      obtain ⟨⟨hpoint, hrep⟩, heq⟩ := h
      cases heq
      exact .inl ⟨revents, rfl, hpoint, hrep, rfl⟩
  | turn connfd ret =>
      rw [step] at h
      split at h
      · cases h
      · next i hpoint =>
        rw [Option.map_eq_some_iff] at h
        obtain ⟨⟨u, next⟩, hu, heq⟩ := h
        cases heq
        exact .inr ⟨connfd, ret, i, u, next, rfl, hpoint, turned_of_turn hu, rfl⟩

/-! ## The entries after a turn -/

theorem fill_users : (s.fill fd m).users a = if a = fd then
    { s.users fd with buf := m ++ List.replicate (BUFFER_SIZE - m.length) 0 } else s.users a :=
  Function.update_apply ..

theorem fill_write_buf : ((s.fill fd m).users a).write_buf = (s.users a).write_buf := by
  rw [fill_users]
  split
  · next ha => rw [ha]
  · rfl

theorem remove_users_of_ne (ha : a ≠ (s.fds i).fd) : (s.remove i).users a = s.users a :=
  Function.update_of_ne ha ..

theorem written_users {b : Int} : (s.written i a).users b = if b = (s.fds i).fd then
    { s.users (s.fds i).fd with write_buf := none } else s.users b :=
  Function.update_apply ..

theorem written_buf {b : Int} : ((s.written i a).users b).buf = (s.users b).buf := by
  rw [written_users]
  split
  · next hb => rw [hb]
  · rfl

/-! ## The loop over the other clients -/

/-- A slot after the loop: asked to be told when it is writable, if it is that of another client. -/
def notified (connfd : Int) (p : PollFd) : PollFd :=
  if p.fd = connfd then p else { p with events := p.events ||| ~~~POLLIN ||| POLLOUT }

theorem notified_fd (p : PollFd) : (notified connfd p).fd = p.fd := by
  rw [notified]
  split <;> rfl

theorem notify_of_eq (h : (s.fds n).fd = connfd) : notify connfd s n = s :=
  if_pos h

theorem notify_of_ne (h : (s.fds n).fd ≠ connfd) : notify connfd s n = { s with
    fds := Function.update s.fds n
      { s.fds n with events := (s.fds n).events ||| ~~~POLLIN ||| POLLOUT }
    users := Function.update s.users (s.fds n).fd
      { s.users (s.fds n).fd with write_buf := some connfd } } :=
  if_neg h

theorem notify_fds : (notify connfd s n).fds j =
    if j = n then notified connfd (s.fds n) else s.fds j := by
  by_cases hfd : (s.fds n).fd = connfd
  · rw [notify_of_eq hfd, notified, if_pos hfd]
    split
    · next hj => rw [hj]
    · rfl
  · rw [notify_of_ne hfd, notified, if_neg hfd]
    exact Function.update_apply ..

/-- The loop reaches every slot once. -/
theorem notifyUpTo_fds : (notifyUpTo connfd s n).fds j =
    if 0 < j ∧ j < n + 1 then notified connfd (s.fds j) else s.fds j := by
  induction n generalizing j with
  | zero =>
      rw [if_neg (by omega)]
      rfl
  | succ n ih =>
      rw [notifyUpTo, notify_fds]
      by_cases hj : j = n + 1
      · rw [if_pos hj, ih, if_neg (by omega), if_pos (by omega), hj]
      · rw [if_neg hj, ih]
        exact if_congr (by omega) rfl rfl

theorem notifyUpTo_fd : ((notifyUpTo connfd s n).fds j).fd = (s.fds j).fd := by
  rw [notifyUpTo_fds]
  split
  · exact notified_fd _
  · rfl

theorem notify_users : (notify connfd s n).users fd =
    if fd = (s.fds n).fd ∧ fd ≠ connfd then { s.users fd with write_buf := some connfd }
    else s.users fd := by
  by_cases hfd : (s.fds n).fd = connfd
  · rw [notify_of_eq hfd, if_neg fun h => h.2 (h.1.trans hfd)]
  · rw [notify_of_ne hfd]
    by_cases h : fd = (s.fds n).fd
    · rw [if_pos ⟨h, h ▸ hfd⟩, h]
      exact Function.update_self ..
    · rw [if_neg fun hand => h hand.1]
      exact Function.update_of_ne h ..

/-- The buffers are not touched. -/
theorem notifyUpTo_buf : ((notifyUpTo connfd s n).users fd).buf = (s.users fd).buf := by
  induction n with
  | zero => rfl
  | succ n ih =>
      rw [notifyUpTo, notify_users]
      split <;> exact ih

/-- The entry of a client that is told of the message. -/
theorem notifyUpTo_users (hj : 0 < j) (hn : j < n + 1) (hfd : (s.fds j).fd ≠ connfd) :
    ((notifyUpTo connfd s n).users (s.fds j).fd).write_buf = some connfd := by
  induction n with
  | zero => omega
  | succ n ih =>
      rw [notifyUpTo, notify_users, notifyUpTo_fd]
      by_cases hlast : j = n + 1
      · rw [if_pos ⟨hlast ▸ rfl, hfd⟩]
      · split
        · rfl
        · exact ih (by omega)

/-- An entry that is not told of the message. -/
theorem notifyUpTo_users_of_forall (h : ∀ j, 0 < j → j < n + 1 → (s.fds j).fd = fd → fd = connfd) :
    (notifyUpTo connfd s n).users fd = s.users fd := by
  induction n with
  | zero => rfl
  | succ n ih =>
      rw [notifyUpTo, notify_users, notifyUpTo_fd, if_neg, ih fun j hj hn => h j hj (by omega)]
      rintro ⟨hfd, hne⟩
      exact hne (h (n + 1) (by omega) (by omega) hfd.symm)

/-- The loop changes the slots and the entries only. -/
theorem notifyUpTo_rest (connfd : Int) (s : PollServer) (n : Nat) :
    (notifyUpTo connfd s n).listenfd = s.listenfd ∧
    (notifyUpTo connfd s n).user_counter = s.user_counter ∧
    (notifyUpTo connfd s n).present = s.present := by
  induction n with
  | zero => exact ⟨rfl, rfl, rfl⟩
  | succ n ih =>
      rw [notifyUpTo]
      by_cases hfd : ((notifyUpTo connfd s n).fds (n + 1)).fd = connfd
      · rwa [notify_of_eq hfd]
      · rwa [notify_of_ne hfd]

theorem announced_rest : (s.announced i m).listenfd = s.listenfd ∧
    (s.announced i m).user_counter = s.user_counter ∧ (s.announced i m).present = s.present :=
  notifyUpTo_rest _ _ _

/-- The sender of a message is not told of it. -/
theorem announced_self : (s.announced i m).fds i = s.fds i ∧
    (s.announced i m).users (s.fds i).fd = (s.fill (s.fds i).fd m).users (s.fds i).fd := by
  refine ⟨notifyUpTo_fds.trans ?_, notifyUpTo_users_of_forall fun _ _ _ _ => rfl⟩
  split
  · exact if_pos rfl
  · rfl

/-- Another client is told of a message. -/
theorem announced_of_ne (hj : 0 < j) (hlt : j < s.user_counter + 1)
    (hfd : (s.fds j).fd ≠ (s.fds i).fd) :
    (s.announced i m).fds j =
      { s.fds j with events := (s.fds j).events ||| ~~~POLLIN ||| POLLOUT } ∧
    ((s.announced i m).users (s.fds j).fd).write_buf = some (s.fds i).fd := by
  refine ⟨notifyUpTo_fds.trans ?_, notifyUpTo_users (s := s.fill (s.fds i).fd m) hj hlt hfd⟩
  rw [if_pos ⟨hj, hlt⟩]
  exact if_neg hfd

theorem announced_buf : ((s.announced i m).users a).buf =
    ((s.fill (s.fds i).fd m).users a).buf := notifyUpTo_buf

end Steps

end PollServer

end CLanguageLearning.Chat.Poll
