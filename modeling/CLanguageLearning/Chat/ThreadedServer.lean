import CLanguageLearning.Foundation.Exec
import CLanguageLearning.Foundation.Transitions

/-!
# The chat server with a thread for every client

`main` accepts a client, registers its socket in `client_socks` and creates a thread that is given
the address of the variable `client_sock`. The thread reads the socket through that address, hands
every message to all registered sockets, and removes its socket when its client has left. A step
is a system call or a critical section, so between two steps the mutex is free.

The search for the socket that leaves and the loop that closes the gap use the same variable, which
the test of the inner loop advances before the first assignment. The entry after the one that was
found is overwritten, not the found one, unless it is the last (`removeSock_run`). So the table is
right as long as only the socket registered last leaves (`registered_iff`).

Only calls of `accept` that succeed are steps, and `pthread_create` succeeds.
-/

set_option autoImplicit false

namespace CLanguageLearning.Chat

open CLanguageLearning.Foundation

def MAX_CLIENT : Nat := 256

/-- The variables under the mutex. -/
structure ClientTable where
  client_count : Int
  client_socks : Nat → Nat

namespace ClientTable

/-- Reads `client_socks[i]`. -/
def sockAt (i : Int) : Exec ClientTable Nat := do
  if 0 ≤ i ∧ i < MAX_CLIENT then return (← get).client_socks i.toNat else throw .undefined

def withSock (t : ClientTable) (i sock : Nat) : ClientTable :=
  { t with client_socks := Function.update t.client_socks i sock }

/-- Assigns `client_socks[i]`. -/
def setSock (i : Int) (sock : Nat) : Exec ClientTable Unit := do
  if 0 ≤ i ∧ i < MAX_CLIENT then modify fun t => t.withSock i.toNat sock else throw .undefined

/-- The critical section of `main`. -/
def register (client_sock : Nat) : Exec ClientTable Unit := do
  let client_count := (← get).client_count
  setSock client_count client_sock
  modify fun t => { t with client_count := client_count + 1 }

/-- The loop of `send_message` with `left` turns left; the sockets that are written to. -/
def sendLoop : Nat → Nat → Exec ClientTable (List Nat)
  | 0, _ => return []
  | left + 1, i => do
      let sock ← sockAt i
      let rest ← sendLoop left (i + 1)
      return sock :: rest

/-- `send_message`. -/
def sendMessage : Exec ClientTable (List Nat) := do
  sendLoop (← get).client_count.toNat 0

/-- `while (i++ < client_count - 1) client_socks[i] = client_socks[i+1]` with `left` turns left. -/
def shiftLoop : Nat → Nat → Exec ClientTable Unit
  | 0, _ => return ()
  | left + 1, i => do
      let sock ← sockAt (i + 2)
      setSock (i + 1) sock
      shiftLoop left (i + 1)

/-- The loop of `handle_client` that looks for the socket, with `left` turns left. -/
def findLoop (client_sock : Nat) : Nat → Nat → Exec ClientTable Unit
  | 0, _ => return ()
  | left + 1, i => do
      if client_sock = (← sockAt i) then shiftLoop left i
      else findLoop client_sock left (i + 1)

/-- The critical section of `handle_client`. -/
def removeSock (client_sock : Nat) : Exec ClientTable Unit := do
  findLoop client_sock (← get).client_count.toNat 0
  modify fun t => { t with client_count := t.client_count - 1 }

/-- The table holds the sockets `l`. -/
structure Holds (t : ClientTable) (l : List Nat) : Prop where
  count : t.client_count = l.length
  room : l.length ≤ MAX_CLIENT
  entry : ∀ i (h : i < l.length), t.client_socks i = l[i]

variable {t : ClientTable} {l : List Nat} {i left sock : Nat}

theorem sockAt_run (h : i < MAX_CLIENT) : (sockAt i).run t = .ok (t.client_socks i, t) := by
  rw [sockAt, if_pos (by omega)]
  rfl

theorem sockAt_run_of_le (h : MAX_CLIENT ≤ i) : (sockAt i).run t = .error .undefined := by
  rw [sockAt, if_neg (by omega)]
  rfl

theorem setSock_run (h : i < MAX_CLIENT) :
    (setSock i sock).run t = .ok ((), t.withSock i sock) := by
  rw [setSock, if_pos (by omega)]
  rfl

/-! ## Registration and messages -/

/-- A socket is appended to a table with room. -/
theorem register_run (h : t.Holds l) (hroom : l.length < MAX_CLIENT) : (register sock).run t =
    .ok ((), { t.withSock l.length sock with client_count := l.length + 1 }) := by
  rw [register, run_bind_of_ok (run_get t), h.count, run_bind_of_ok (setSock_run hroom)]
  rfl

/-- With a full table the index is outside the array. -/
theorem register_run_full (h : t.Holds l) (hfull : ¬ l.length < MAX_CLIENT) :
    (register sock).run t = .error .undefined := by
  rw [register, run_bind_of_ok (run_get t), h.count]
  apply run_bind_of_error
  rw [setSock, if_neg (by omega)]
  rfl

theorem Holds.register (h : t.Holds l) (hroom : l.length < MAX_CLIENT) :
    Holds { t.withSock l.length sock with client_count := l.length + 1 } (l ++ [sock]) where
  count := by simp
  room := by simpa using hroom
  entry := by
    intro i hi
    rcases Nat.lt_or_ge i l.length with hlt | hge
    · rw [List.getElem_append_left hlt, ← h.entry i hlt]
      exact Function.update_of_ne hlt.ne ..
    · have hlast : i = l.length := by
        rw [List.length_append, List.length_singleton] at hi
        omega
      subst hlast
      rw [List.getElem_concat_length rfl]
      exact Function.update_self ..

theorem sendLoop_run (h : t.Holds l) (hi : i + left = l.length) :
    (sendLoop left i).run t = .ok (l.drop i, t) := by
  induction left generalizing i with
  | zero =>
      rw [List.drop_eq_nil_of_le (by omega)]
      rfl
  | succ left ih =>
      have hlt : i < l.length := by omega
      rw [sendLoop, run_bind_of_ok (sockAt_run (hlt.trans_le h.room)),
        run_bind_of_ok (ih (by omega)), h.entry i hlt, List.drop_eq_getElem_cons hlt]
      rfl

/-- A message goes to every socket of the table. -/
theorem sendMessage_run (h : t.Holds l) : sendMessage.run t = .ok (l, t) := by
  rw [sendMessage, run_bind_of_ok (run_get t), h.count, Int.toNat_natCast,
    sendLoop_run h (Nat.zero_add _), List.drop_zero]

/-! ## The removal -/

/-- The entries after the one with the index `i` move down, the first of them is lost. -/
def shifted (t : ClientTable) (i left : Nat) : ClientTable :=
  { t with client_socks := fun j =>
      if i < j ∧ j ≤ i + left then t.client_socks (j + 1) else t.client_socks j }

theorem shifted_zero : t.shifted i 0 = t := by
  have hsocks : (fun j => if i < j ∧ j ≤ i + 0 then t.client_socks (j + 1) else t.client_socks j) =
      t.client_socks := by
    funext j
    exact if_neg (by omega)
  rw [shifted, hsocks]

/-- One turn moves one entry, and the rest of the loop the others. -/
theorem withSock_shifted :
    (t.withSock (i + 1) (t.client_socks (i + 2))).shifted (i + 1) left = t.shifted i (left + 1) := by
  have hsocks : ∀ j, (if i + 1 < j ∧ j ≤ i + 1 + left then
      Function.update t.client_socks (i + 1) (t.client_socks (i + 2)) (j + 1)
      else Function.update t.client_socks (i + 1) (t.client_socks (i + 2)) j) =
      if i < j ∧ j ≤ i + (left + 1) then t.client_socks (j + 1) else t.client_socks j := by
    intro j
    rcases Nat.lt_trichotomy j (i + 1) with hj | rfl | hj
    · rw [if_neg (by omega), if_neg (by omega), Function.update_of_ne hj.ne]
    · rw [if_neg (by omega), if_pos (by omega), Function.update_self]
    · rw [Function.update_of_ne (by omega), Function.update_of_ne hj.ne']
      congr 1
      exact propext (by omega)
  rw [shifted, shifted, withSock]
  simp only [hsocks]

/-- One turn of the loop. -/
theorem shiftLoop_succ_run (h : i + 2 < MAX_CLIENT) : (shiftLoop (left + 1) i).run t =
    (shiftLoop left (i + 1)).run (t.withSock (i + 1) (t.client_socks (i + 2))) := by
  have hsock : (sockAt (i + 2)).run t = .ok (t.client_socks (i + 2), t) :=
    sockAt_run (i := i + 2) h
  have hset : (setSock (i + 1) (t.client_socks (i + 2))).run t =
      .ok ((), t.withSock (i + 1) (t.client_socks (i + 2))) :=
    setSock_run (i := i + 1) (by omega)
  rw [shiftLoop, run_bind_of_ok hsock, run_bind_of_ok hset]

theorem shiftLoop_run (h : i + left + 1 < MAX_CLIENT) :
    (shiftLoop left i).run t = .ok ((), t.shifted i left) := by
  induction left generalizing i t with
  | zero =>
      rw [shifted_zero]
      rfl
  | succ left ih => rw [shiftLoop_succ_run (by omega), ih (by omega), withSock_shifted]

/-- In a full table the last turn reads behind the array. -/
theorem shiftLoop_run_full (h : i + left + 1 = MAX_CLIENT) (hleft : 0 < left) :
    (shiftLoop left i).run t = .error .undefined := by
  induction left generalizing i t with
  | zero => exact absurd hleft (lt_irrefl 0)
  | succ left ih =>
      rcases Nat.eq_zero_or_pos left with rfl | hpos
      · exact run_bind_of_error (sockAt_run_of_le (i := i + 2) (by omega)) _
      · rw [shiftLoop_succ_run (by omega)]
        exact ih (by omega) hpos

/-- The search stops at the first entry that is the socket. -/
theorem findLoop_run {k : Nat} (h : t.Holds l) (hi : i + left = l.length) (hk : k < l.length)
    (hik : i ≤ k) (hsock : l[k] = sock) (hfirst : ∀ j (hj : j < l.length), i ≤ j → j < k →
      l[j] ≠ sock) :
    (findLoop sock left i).run t = (shiftLoop (l.length - 1 - k) k).run t := by
  induction left generalizing i with
  | zero => omega
  | succ left ih =>
      have hlt : i < l.length := by omega
      rw [findLoop, run_bind_of_ok (sockAt_run (hlt.trans_le h.room)), h.entry i hlt]
      rcases eq_or_lt_of_le hik with rfl | hlt'
      · rw [if_pos hsock.symm]
        congr 2
        omega
      · rw [if_neg (hfirst i hlt le_rfl hlt').symm]
        exact ih (by omega) hlt' fun j hj hij => hfirst j hj (by omega)

/-- A search for a socket that is not in the table changes nothing. -/
theorem findLoop_run_of_notMem (h : t.Holds l) (hi : i + left = l.length) (hsock : sock ∉ l) :
    (findLoop sock left i).run t = .ok ((), t) := by
  induction left generalizing i with
  | zero => rfl
  | succ left ih =>
      have hlt : i < l.length := by omega
      have hne : sock ≠ l[i] := by
        rintro rfl
        exact hsock (List.getElem_mem hlt)
      rw [findLoop, run_bind_of_ok (sockAt_run (hlt.trans_le h.room)), h.entry i hlt, if_neg hne]
      exact ih (by omega)

/-- The code after the search. -/
theorem removeSock_run_of_ok {u : ClientTable} (h : t.Holds l)
    (hfind : (findLoop sock l.length 0).run t = .ok ((), u)) :
    (removeSock sock).run t = .ok ((), { u with client_count := u.client_count - 1 }) := by
  rw [removeSock, run_bind_of_ok (run_get t), h.count, Int.toNat_natCast, run_bind_of_ok hfind]
  rfl

/-- The socket is the last entry of the table. -/
def IsLast (t : ClientTable) (sock : Nat) : Prop :=
  0 < t.client_count ∧ t.client_socks (t.client_count - 1).toNat = sock

instance : Decidable (t.IsLast sock) := by
  unfold IsLast
  infer_instance

theorem Holds.isLast_iff (h : t.Holds l) : t.IsLast sock ↔ l.getLast? = some sock := by
  rw [IsLast, h.count, List.getLast?_eq_getElem?]
  cases l with
  | nil => simp
  | cons a l =>
      have hentry := h.entry l.length (by simp)
      have hindex : (((a :: l).length : Int) - 1).toNat = l.length := by simp
      rw [hindex, hentry, List.length_cons, Nat.add_sub_cancel,
        List.getElem?_eq_getElem (by simp), Option.some.injEq]
      exact and_iff_right (by omega)

/-- The last entry is removed by the counter alone. -/
theorem Holds.removeSock_last {k : List Nat} (h : t.Holds (k ++ [sock]))
    (hnodup : (k ++ [sock]).Nodup) :
    ∃ u, (removeSock sock).run t = .ok ((), u) ∧ u.Holds k := by
  have hlen : (k ++ [sock]).length = k.length + 1 := by simp
  have hfirst : ∀ j (hj : j < (k ++ [sock]).length), 0 ≤ j → j < k.length →
      (k ++ [sock])[j] ≠ sock := by
    intro j hj _ hjk heq
    rw [List.getElem_append_left hjk] at heq
    exact (List.nodup_append.mp hnodup).2.2 _ (List.getElem_mem hjk) sock (by simp) heq
  have hk : k.length < (k ++ [sock]).length := by omega
  have hfind := findLoop_run h (Nat.zero_add _) hk (Nat.zero_le k.length)
    (List.getElem_concat_length rfl hk) hfirst
  have hstop : (k ++ [sock]).length - 1 - k.length = 0 := by omega
  rw [hstop] at hfind
  refine ⟨_, removeSock_run_of_ok h (hfind.trans rfl), ?_⟩
  constructor
  case count =>
    show t.client_count - 1 = _
    rw [h.count, hlen]
    push_cast
    omega
  case room =>
    have hroom := h.room
    omega
  case entry =>
    intro i hi
    exact (h.entry i (by omega)).trans (List.getElem_append_left hi)

/-- An entry before the last one stays in the table. -/
theorem Holds.not_holds_erase_shifted {u : ClientTable} {k : Nat} (h : t.Holds l)
    (hnodup : l.Nodup) (hk : k + 1 < l.length) (hsock : l[k] = sock)
    (hu : u.client_socks = (t.shifted k (l.length - 1 - k)).client_socks) :
    ¬ u.Holds (l.erase sock) := by
  intro hrem
  have hmem : sock ∈ l := hsock ▸ List.getElem_mem _
  have hlen := List.length_erase_of_mem hmem
  have hentry := hrem.entry k (by omega)
  have hkeep : u.client_socks k = sock := by
    rw [hu, shifted]
    dsimp only
    rw [if_neg (by omega), h.entry k (by omega), hsock]
  rw [hkeep] at hentry
  exact hnodup.not_mem_erase (hentry ▸ List.getElem_mem _)

/-- The removal of a socket from a table does what it should exactly for the last entry. -/
theorem Holds.removeSock_iff (h : t.Holds l) (hnodup : l.Nodup) :
    (∃ u, (removeSock sock).run t = .ok ((), u) ∧ u.Holds (l.erase sock)) ↔ t.IsLast sock := by
  rw [h.isLast_iff]
  constructor
  · rintro ⟨u, hrun, hu⟩
    by_cases hmem : sock ∈ l
    · obtain ⟨k, hk, hsock⟩ := List.getElem_of_mem hmem
      have hfirst : ∀ j (hj : j < l.length), 0 ≤ j → j < k → l[j] ≠ sock := by
        intro j hj _ hjk heq
        exact hjk.ne ((List.Nodup.getElem_inj_iff hnodup).mp (heq.trans hsock.symm))
      have hfind := findLoop_run h (Nat.zero_add _) hk (Nat.zero_le k) hsock hfirst
      rcases Nat.lt_or_ge (k + 1) l.length with hlt | hge
      · exfalso
        rcases Nat.lt_or_ge l.length MAX_CLIENT with hroom | hfull
        · rw [shiftLoop_run (by omega)] at hfind
          rw [removeSock_run_of_ok h hfind] at hrun
          cases hrun
          exact h.not_holds_erase_shifted hnodup hlt hsock (by rfl) hu
        · -- the loop reads behind a full table
          have hroom := h.room
          rw [shiftLoop_run_full (by omega) (by omega)] at hfind
          rw [removeSock, run_bind_of_ok (run_get t), h.count, Int.toNat_natCast,
            run_bind_of_error hfind] at hrun
          cases hrun
      · have hlast : k = l.length - 1 := by omega
        rw [List.getLast?_eq_getElem?, ← hlast, List.getElem?_eq_getElem hk, hsock]
    · exfalso
      rw [removeSock_run_of_ok h (findLoop_run_of_notMem h (Nat.zero_add _) hmem)] at hrun
      cases hrun
      have hcount := hu.count
      rw [List.erase_of_not_mem hmem] at hcount
      have hbefore := h.count
      simp only at hcount
      omega
  · intro hlast
    obtain ⟨k, rfl⟩ := List.getLast?_eq_some_iff.mp hlast
    obtain ⟨u, hrun, hu⟩ := h.removeSock_last hnodup
    have hk : sock ∉ k := fun hmem =>
      (List.nodup_append.mp hnodup).2.2 _ hmem sock (by simp) rfl
    refine ⟨u, hrun, ?_⟩
    rwa [List.erase_append_right _ hk, List.erase_cons_head, List.append_nil]

end ClientTable

/-- Where `main` is in its loop. -/
inductive Accepting where
  /-- Before the end of `accept`. -/
  | accepting
  /-- With a new value of `client_sock`, before the critical section. -/
  | registering
  /-- Before the end of `pthread_create`. -/
  | creating
  deriving DecidableEq, Repr

/-- A handler thread with the socket it has read. -/
inductive Handler where
  /-- Not created. -/
  | absent
  /-- Before it reads the socket through its argument. -/
  | starting
  | serving (client_sock : Nat)
  /-- After its critical section, before `close`. -/
  | closing (client_sock : Nat)
  | done (client_sock : Nat)
  deriving DecidableEq, Repr

/-- The server. `handler k` is the thread created in turn `k` of the loop of `main`, and `accepts`
are the answers of `accept` so far. `registered` are the sockets that have been registered and not
been removed. With `fault` an index has left the array, and nothing is said about what follows. -/
structure ThreadedServer where
  table : ClientTable
  client_sock : Nat
  point : Accepting
  handler : Nat → Handler
  opened : Nat → Bool
  accepts : List Nat
  registered : List Nat
  fault : Bool

/-- What can happen next. A handler that has received a message sends it on, and one whose client
has left executes its critical section. -/
inductive ThreadedEvent where
  | accept (sock : Nat)
  | register
  | create
  | start (k : Nat)
  | send (k : Nat)
  | leave (k : Nat)
  | close (k : Nat)
  deriving DecidableEq, Repr

namespace ThreadedServer

/-- The server before its first client. -/
def start : ThreadedServer where
  table := ⟨0, fun _ => 0⟩
  client_sock := 0
  point := .accepting
  handler := fun _ => .absent
  opened := fun _ => false
  accepts := []
  registered := []
  fault := false

/-- Executes a critical section. -/
def critical {α : Type} (s : ThreadedServer) (code : Exec ClientTable α) : ThreadedServer :=
  match code.run s.table with
  | .ok (_, table) => { s with table := table }
  | .error _ => { s with fault := true }

/-- The thread `k` goes on. -/
def move (s : ThreadedServer) (k : Nat) (h : Handler) : ThreadedServer :=
  { s with handler := Function.update s.handler k h }

@[simp] theorem move_self (s : ThreadedServer) (k : Nat) (h : Handler) :
    (s.move k h).handler k = h := Function.update_self ..

theorem move_of_ne (s : ThreadedServer) {j k : Nat} (h : Handler) (hjk : j ≠ k) :
    (s.move k h).handler j = s.handler j := Function.update_of_ne hjk ..

/-- `accept` returns `sock`. -/
def accepted (s : ThreadedServer) (sock : Nat) : ThreadedServer :=
  { s with
    client_sock := sock
    opened := Function.update s.opened sock true
    accepts := s.accepts ++ [sock]
    point := .registering }

/-- The critical section of `main`. -/
def entered (s : ThreadedServer) : ThreadedServer :=
  { s.critical (ClientTable.register s.client_sock) with
    registered := s.registered ++ [s.client_sock]
    point := .creating }

/-- `pthread_create` returns. -/
def created (s : ThreadedServer) : ThreadedServer :=
  { s.move (s.accepts.length - 1) .starting with point := .accepting }

/-- The critical section of the handler `k`. -/
def left (s : ThreadedServer) (k sock : Nat) : ThreadedServer :=
  { (s.critical (ClientTable.removeSock sock)).move k (.closing sock) with
    registered := s.registered.erase sock }

/-- The handler `k` closes its socket and ends. -/
def closed (s : ThreadedServer) (k sock : Nat) : ThreadedServer :=
  { s.move k (.done sock) with opened := Function.update s.opened sock false }

def step (s : ThreadedServer) (e : ThreadedEvent) : Option ThreadedServer :=
  if s.fault then none
  else match e with
    | .accept sock =>
        if s.point = .accepting ∧ s.opened sock = false then some (s.accepted sock) else none
    | .register => if s.point = .registering then some s.entered else none
    | .create => if s.point = .creating then some s.created else none
    | .start k =>
        -- the thread reads the variable of `main`
        if s.handler k = .starting then some (s.move k (.serving s.client_sock)) else none
    | .send k =>
        match s.handler k with
        | .serving _ => some (s.critical ClientTable.sendMessage)
        | _ => none
    | .leave k =>
        match s.handler k with
        | .serving sock => some (s.left k sock)
        | _ => none
    | .close k =>
        match s.handler k with
        | .closing sock => some (s.closed k sock)
        | _ => none

/-- What a step can do. -/
inductive Stepped (s : ThreadedServer) : ThreadedEvent → ThreadedServer → Prop
  | accept {sock : Nat} (hpoint : s.point = .accepting) (hfresh : s.opened sock = false) :
      Stepped s (.accept sock) (s.accepted sock)
  | register (hpoint : s.point = .registering) : Stepped s .register s.entered
  | create (hpoint : s.point = .creating) : Stepped s .create s.created
  | start {k : Nat} (hk : s.handler k = .starting) :
      Stepped s (.start k) (s.move k (.serving s.client_sock))
  | send {k sock : Nat} (hk : s.handler k = .serving sock) :
      Stepped s (.send k) (s.critical ClientTable.sendMessage)
  | leave {k sock : Nat} (hk : s.handler k = .serving sock) : Stepped s (.leave k) (s.left k sock)
  | close {k sock : Nat} (hk : s.handler k = .closing sock) : Stepped s (.close k) (s.closed k sock)

theorem Stepped.of_step {s t : ThreadedServer} {e : ThreadedEvent} (h : s.step e = some t) :
    s.Stepped e t := by
  unfold ThreadedServer.step at h
  split at h
  · cases h
  · cases e with
    | accept sock =>
        simp only [Option.ite_none_right_eq_some, Option.some.injEq] at h
        obtain ⟨⟨hpoint, hfresh⟩, rfl⟩ := h
        exact .accept hpoint hfresh
    | register =>
        simp only [Option.ite_none_right_eq_some, Option.some.injEq] at h
        obtain ⟨hpoint, rfl⟩ := h
        exact .register hpoint
    | create =>
        simp only [Option.ite_none_right_eq_some, Option.some.injEq] at h
        obtain ⟨hpoint, rfl⟩ := h
        exact .create hpoint
    | start k =>
        simp only [Option.ite_none_right_eq_some, Option.some.injEq] at h
        obtain ⟨hk, rfl⟩ := h
        exact .start hk
    | send k =>
        simp only at h
        split at h
        · next sock hk =>
          cases h
          exact .send hk
        · cases h
    | leave k =>
        simp only at h
        split at h
        · next sock hk =>
          cases h
          exact .leave hk
        · cases h
    | close k =>
        simp only at h
        split at h
        · next sock hk =>
          cases h
          exact .close hk
        · cases h

/-! ## The table -/

/-- The table holds the sockets that have been registered and not removed, each once and in the
order of their arrival, and no index has left the array. -/
structure Registered (s : ThreadedServer) : Prop where
  inside : s.fault = false
  holds : s.table.Holds s.registered
  once : s.registered.Nodup

/-- A socket that is registered finds room, and the socket that leaves is the last one. -/
def InOrder (s : ThreadedServer) : ThreadedEvent → Prop
  | .register => s.table.client_count < MAX_CLIENT
  | .leave k =>
      match s.handler k with
      | .serving sock => s.table.IsLast sock
      | _ => True
  | _ => True

instance (s : ThreadedServer) (e : ThreadedEvent) : Decidable (s.InOrder e) := by
  unfold InOrder
  split
  · infer_instance
  · split <;> infer_instance
  · infer_instance

/-- The sockets that are registered, about to be registered or about to be closed are open, and
these are different sockets. -/
structure Apart (s : ThreadedServer) : Prop where
  opened : ∀ sock ∈ s.registered, s.opened sock = true
  pending : s.point = .registering →
    s.opened s.client_sock = true ∧ s.client_sock ∉ s.registered
  closing : ∀ k sock, s.handler k = .closing sock →
    s.opened sock = true ∧ sock ∉ s.registered ∧
      (s.point = .registering → s.client_sock ≠ sock) ∧
      ∀ j, s.handler j = .closing sock → j = k

section Table

variable {s t : ThreadedServer} {e : ThreadedEvent} {k sock : Nat}

theorem registered_start : start.Registered where
  inside := rfl
  holds := ⟨rfl, Nat.zero_le _, fun i h => absurd h (Nat.not_lt_zero i)⟩
  once := List.nodup_nil

theorem apart_start : start.Apart where
  opened := by
    intro sock h
    cases h
  pending := by
    intro h
    cases h
  closing := by
    intro k sock h
    cases h

/-- The result of a critical section that returns. -/
theorem critical_of_ok {α : Type} {code : Exec ClientTable α} {a : α} {u : ClientTable}
    (h : code.run s.table = .ok (a, u)) : s.critical code = { s with table := u } := by
  rw [critical, h]

/-- A critical section does not touch what is not under the mutex. -/
theorem critical_fields {α : Type} (s : ThreadedServer) (code : Exec ClientTable α) :
    (s.critical code).handler = s.handler ∧ (s.critical code).opened = s.opened ∧
      (s.critical code).point = s.point ∧ (s.critical code).registered = s.registered ∧
      (s.critical code).client_sock = s.client_sock ∧
      (s.critical code).accepts = s.accepts := by
  rw [critical]
  split <;> exact ⟨rfl, rfl, rfl, rfl, rfl, rfl⟩

/-- A critical section ends in the table `l` exactly when it returns and leaves that table. -/
theorem critical_registered_iff {code : Exec ClientTable Unit} {l : List Nat} (hl : l.Nodup)
    (hs : s.fault = false) {t : ThreadedServer} (htable : t.table = (s.critical code).table)
    (hfault : t.fault = (s.critical code).fault) (hreg : t.registered = l) :
    t.Registered ↔ ∃ u, code.run s.table = .ok ((), u) ∧ u.Holds l := by
  constructor
  · intro h
    have hin := h.inside
    have hholds := h.holds
    rw [hfault, critical] at hin
    rw [htable, hreg, critical] at hholds
    cases hrun : code.run s.table with
    | ok p =>
        rw [hrun] at hholds
        exact ⟨p.2, rfl, hholds⟩
    | error e =>
        rw [hrun] at hin
        cases hin
  · rintro ⟨u, hrun, hu⟩
    rw [critical_of_ok hrun] at htable hfault
    exact ⟨hfault.trans hs, by rw [htable, hreg]; exact hu, by rw [hreg]; exact hl⟩

/-- The sockets stay apart when only the set of open ones and what `main` does change. -/
theorem Apart.accepted (h : s.Apart) (hfresh : s.opened sock = false) : (s.accepted sock).Apart where
  opened := by
    intro c hc
    show Function.update s.opened sock true c = true
    by_cases hcs : c = sock
    · rw [hcs, Function.update_self]
    · rw [Function.update_of_ne hcs]
      exact h.opened c hc
  pending := by
    intro _
    refine ⟨Function.update_self .., ?_⟩
    intro hmem
    have hopen := h.opened sock hmem
    rw [hfresh] at hopen
    cases hopen
  closing := by
    intro k c hk
    obtain ⟨hopen, hmem, -, hone⟩ := h.closing k c hk
    have hcs : c ≠ sock := by
      rintro rfl
      rw [hfresh] at hopen
      cases hopen
    refine ⟨?_, hmem, fun _ => hcs.symm, hone⟩
    show Function.update s.opened sock true c = true
    rwa [Function.update_of_ne hcs]

theorem Apart.entered (h : s.Apart) (hpoint : s.point = .registering) : s.entered.Apart := by
  obtain ⟨hhandler, hopened, -, -, hsock, -⟩ :=
    critical_fields s (ClientTable.register s.client_sock)
  obtain ⟨hopen, hfresh⟩ := h.pending hpoint
  constructor
  case opened =>
    intro c hc
    show (s.critical _).opened c = true
    rw [hopened]
    rcases List.mem_append.mp hc with hc | hc
    · exact h.opened c hc
    · rwa [List.mem_singleton.mp hc]
  case pending =>
    intro hp
    cases hp
  case closing =>
    intro k c hk
    obtain ⟨hopen, hmem, hne, hone⟩ := h.closing k c (hhandler ▸ hk)
    refine ⟨?_, ?_, fun hp => (by cases hp), fun j hj => hone j (hhandler ▸ hj)⟩
    · show (s.critical _).opened c = true
      rwa [hopened]
    · intro hc
      rcases List.mem_append.mp hc with hc | hc
      · exact hmem hc
      · exact hne hpoint (List.mem_singleton.mp hc).symm

/-- A thread that is not about to close its socket does not count. -/
theorem Apart.move {h' : Handler} (h : s.Apart) (hne : ∀ c, h' ≠ .closing c) :
    (s.move k h').Apart where
  opened := h.opened
  pending := h.pending
  closing := by
    intro j c hj
    have hold : ∀ i, (s.move k h').handler i = .closing c → s.handler i = .closing c := by
      intro i hi
      by_cases hik : i = k
      · rw [hik, move_self] at hi
        exact absurd hi (hne c)
      · rwa [move_of_ne _ _ hik] at hi
    obtain ⟨hopen, hmem, hsock, hone⟩ := h.closing j c (hold j hj)
    exact ⟨hopen, hmem, hsock, fun i hi => hone i (hold i hi)⟩

/-- The socket that is removed is a registered one. -/
theorem Apart.left (h : s.Apart) (hreg : s.Registered) (hsock : sock ∈ s.registered) :
    (s.left k sock).Apart := by
  obtain ⟨hhandler, hopened, hpoint, -, hclient, -⟩ :=
    critical_fields s (ClientTable.removeSock sock)
  constructor
  case opened =>
    intro c hc
    show (s.critical _).opened c = true
    rw [hopened]
    exact h.opened c (List.mem_of_mem_erase hc)
  case pending =>
    intro hp
    show (s.critical _).opened (s.critical _).client_sock = true ∧ (s.critical _).client_sock ∉ _
    rw [hopened, hclient]
    obtain ⟨hopen, hmem⟩ := h.pending (hpoint ▸ hp)
    exact ⟨hopen, fun hc => hmem (List.mem_of_mem_erase hc)⟩
  case closing =>
    intro j c hj
    have hnew : (s.left k sock).handler = Function.update s.handler k (.closing sock) := by
      show Function.update (s.critical _).handler k _ = _
      rw [hhandler]
    have hother : ∀ i, s.handler i ≠ .closing sock := fun i hi => (h.closing i sock hi).2.1 hsock
    rw [hnew] at hj ⊢
    show (s.critical _).opened c = true ∧ c ∉ s.registered.erase sock ∧
      ((s.critical _).point = _ → (s.critical _).client_sock ≠ c) ∧ _
    rw [hopened, hpoint, hclient]
    by_cases hjk : j = k
    · subst hjk
      rw [Function.update_self, Handler.closing.injEq] at hj
      subst hj
      refine ⟨h.opened _ hsock, hreg.once.not_mem_erase, ?_, ?_⟩
      · rintro hp rfl
        exact (h.pending hp).2 hsock
      · intro i hi
        by_contra hij
        rw [Function.update_of_ne hij] at hi
        exact hother i hi
    · rw [Function.update_of_ne hjk] at hj
      obtain ⟨hopen, hmem, hne, hone⟩ := h.closing j c hj
      refine ⟨hopen, fun hc => hmem (List.mem_of_mem_erase hc), hne, ?_⟩
      intro i hi
      by_cases hik : i = k
      · subst hik
        rw [Function.update_self, Handler.closing.injEq] at hi
        exact absurd hj (hi ▸ hother j)
      · rw [Function.update_of_ne hik] at hi
        exact hone i hi

/-- The socket that is closed is no registered one. -/
theorem Apart.closed (h : s.Apart) (hk : s.handler k = .closing sock) : (s.closed k sock).Apart := by
  have hmove : (s.move k (.done sock)).Apart := h.move (by simp)
  obtain ⟨-, hmem, hne, hone⟩ := h.closing k sock hk
  have hopened : ∀ c, c ≠ sock → s.opened c = true →
      Function.update s.opened sock false c = true := by
    intro c hc hopen
    rwa [Function.update_of_ne hc]
  constructor
  case opened =>
    intro c hc
    exact hopened c (fun hcs => hmem (hcs ▸ hc)) (h.opened c hc)
  case pending =>
    intro hp
    obtain ⟨hopen, hfresh⟩ := h.pending hp
    exact ⟨hopened _ (hne hp) hopen, hfresh⟩
  case closing =>
    intro j c hj
    obtain ⟨hopen, hc, hclient, hunique⟩ := hmove.closing j c hj
    refine ⟨hopened c ?_ hopen, hc, hclient, hunique⟩
    rintro rfl
    change (s.move k _).handler j = _ at hj
    by_cases hjk : j = k
    · rw [hjk, move_self] at hj
      cases hj
    · rw [move_of_ne _ _ hjk] at hj
      exact hjk (hone j hj)

/-- A step keeps the table right exactly when the table has room for a new socket, and a socket
that leaves is the last one. -/
theorem Registered.step_iff (hapart : s.Apart) (h : s.Registered) (hstep : s.step e = some t) :
    t.Registered ↔ s.InOrder e := by
  cases Stepped.of_step hstep with
  | accept _ _ => exact iff_of_true ⟨h.inside, h.holds, h.once⟩ trivial
  | register hpoint =>
      have hnodup : (s.registered ++ [s.client_sock]).Nodup :=
        List.nodup_append.mpr ⟨h.once, List.nodup_singleton _, by
          rintro a ha b hb rfl
          rw [List.mem_singleton] at hb
          exact (hapart.pending hpoint).2 (hb ▸ ha)⟩
      have hiff : s.entered.Registered ↔ ∃ u,
          (ClientTable.register s.client_sock).run s.table = .ok ((), u) ∧
            u.Holds (s.registered ++ [s.client_sock]) :=
        critical_registered_iff hnodup h.inside rfl rfl rfl
      rw [hiff, InOrder, h.holds.count, Nat.cast_lt]
      constructor
      · rintro ⟨u, hrun, -⟩
        by_contra hfull
        rw [ClientTable.register_run_full h.holds hfull] at hrun
        cases hrun
      · exact fun hroom => ⟨_, ClientTable.register_run h.holds hroom, h.holds.register hroom⟩
  | create _ => exact iff_of_true ⟨h.inside, h.holds, h.once⟩ trivial
  | start _ => exact iff_of_true ⟨h.inside, h.holds, h.once⟩ trivial
  | send _ =>
      rw [critical_of_ok (ClientTable.sendMessage_run h.holds)]
      exact iff_of_true ⟨h.inside, h.holds, h.once⟩ trivial
  | @leave k sock hk =>
      have hiff : (s.left k sock).Registered ↔ ∃ u,
          (ClientTable.removeSock sock).run s.table = .ok ((), u) ∧
            u.Holds (s.registered.erase sock) :=
        critical_registered_iff (h.once.erase sock) h.inside rfl rfl rfl
      rw [hiff, h.holds.removeSock_iff h.once, InOrder, hk]
  | close _ => exact iff_of_true ⟨h.inside, h.holds, h.once⟩ trivial

/-- The sockets stay apart as long as the table is right. -/
theorem Apart.step (h : s.Apart) (hs : s.Registered) (hstep : s.step e = some t)
    (ht : t.Registered) : t.Apart := by
  have hin := (hs.step_iff h hstep).mp ht
  cases Stepped.of_step hstep with
  | accept _ hfresh => exact h.accepted hfresh
  | register hpoint => exact h.entered hpoint
  | create _ =>
      have hmove : (s.move (s.accepts.length - 1) .starting).Apart := h.move (by simp)
      exact ⟨hmove.opened, fun hp => (by cases hp), fun k c hk =>
        let ⟨hopen, hmem, _, hone⟩ := hmove.closing k c hk
        ⟨hopen, hmem, fun hp => (by cases hp), hone⟩⟩
  | start _ => exact h.move (by simp)
  | send _ =>
      rw [critical_of_ok (ClientTable.sendMessage_run hs.holds)]
      exact ⟨h.opened, h.pending, h.closing⟩
  | leave hk =>
      rw [InOrder, hk] at hin
      exact h.left hs (List.mem_of_getLast? (hs.holds.isLast_iff.mp hin))
  | close hk => exact h.closed hk

/-- For every interleaving of the accepted clients with the handlers: the table is right throughout
a run exactly when every new socket finds room and only the socket registered last leaves. -/
theorem registered_iff {l : List ThreadedEvent} (hrun : runEvents step start l = some t) :
    (Along step (fun s _ => s.Registered) start l ∧ t.Registered) ↔ Along step InOrder start l :=
  always_iff_along_of (fun _ _ _ h hs hstep ht => h.step hs hstep ht)
    (fun _ _ _ h hs hstep => hs.step_iff h hstep) apart_start registered_start hrun

/-- Two clients come, and the second one leaves. -/
theorem registered_iff_second_leaves : ∃ t,
    runEvents step start [.accept 5, .register, .create, .start 0, .accept 6, .register, .create,
      .start 1, .send 0, .leave 1, .close 1] = some t ∧ t.Registered ∧ t.registered = [5] := by
  refine ⟨_, rfl, ?_, rfl⟩
  refine ((registered_iff (l := [.accept 5, .register, .create, .start 0, .accept 6, .register,
    .create, .start 1, .send 0, .leave 1, .close 1]) rfl).mpr ?_).2
  exact ⟨trivial, by decide, trivial, trivial, trivial, by decide, trivial, trivial, trivial,
    by decide, trivial, trivial⟩

/-- Two clients come, and the first one leaves: its socket stays in the table, and the other client,
whose socket is open, is not in it any more. -/
theorem dropped_client : ∃ t,
    runEvents step start [.accept 5, .register, .create, .start 0, .accept 6, .register, .create,
      .start 1, .leave 0, .close 0] = some t ∧ t.registered = [6] ∧ t.opened 5 = false ∧
      t.table.client_count = 1 ∧ t.table.client_socks 0 = 5 ∧ ¬ t.Registered := by
  refine ⟨_, rfl, rfl, rfl, rfl, rfl, ?_⟩
  intro h
  have hentry := h.holds.entry 0 Nat.one_pos
  exact absurd hentry (by decide)

end Table

end ThreadedServer

end CLanguageLearning.Chat
