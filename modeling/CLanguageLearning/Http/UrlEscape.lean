import CLanguageLearning.Foundation.ByteMemory
import CLanguageLearning.Foundation.CString
import CLanguageLearning.Foundation.PercentCoding

/-!
# URL escaping in the epoll web server

`encode_str` and `decode_str` over byte memory. The encoder writes whole escapes as long as its
budget lasts, and the decoder gives back the bytes that were written (`round_trip_iff`).

The test of the budget computes `tolen + 4` in `int`. With a budget next to the largest `int` and a
string that fills it, this overflows (`budget_overflow`).
-/

set_option autoImplicit false

namespace CLanguageLearning.Http

open CLanguageLearning.Foundation

/-! ## The functions -/

/-- `isalnum` in the C locale. A `char` above 127 is negative and no letter. -/
def isalnum (c : UInt8) : Bool := 48 ≤ c ∧ c ≤ 57 ∨ 65 ≤ c ∧ c ≤ 90 ∨ 97 ≤ c ∧ c ≤ 122

def isxdigit (c : UInt8) : Bool := 48 ≤ c ∧ c ≤ 57 ∨ 65 ≤ c ∧ c ≤ 70 ∨ 97 ≤ c ∧ c ≤ 102

def hexit (c : UInt8) : Nat :=
  if 48 ≤ c ∧ c ≤ 57 then c.toNat - 48
  else if 97 ≤ c ∧ c ≤ 102 then c.toNat - 97 + 10
  else if 65 ≤ c ∧ c ≤ 70 then c.toNat - 65 + 10
  else 0

/-- The characters `/_.-~`. -/
def unreserved : List UInt8 := [47, 95, 46, 45, 126]

/-- A byte that `encode_str` copies. -/
def copied (c : UInt8) : Bool := isalnum c || (strchr unreserved c).isSome

/-- `sprintf(to, "%%%02x", c)`. -/
def sprintfEscape (to' : Ptr) (c : UInt8) : Exec Mem Unit :=
  writeAt to' 4 fun k =>
    [percentSign, hexDigit (c.toNat / 16), hexDigit (c.toNat % 16), 0].getD k 0

/-- The loop of `encode_str`, with at most `fuel` tests; the pointer `to` behind it. -/
def encodeLoop (tosize : Int) : Nat → Ptr → Nat → Ptr → Exec Mem Ptr
  | 0, _, _, _ => throw .diverged
  | fuel + 1, to', tolen, from' => do
      let c ← load8 from'
      if c = 0 then return to'
      else
        let budget ← intValue (tolen + 4)
        if (budget : Int) < tosize then
          if copied c then
            store8 to' c
            encodeLoop tosize fuel (to'.add 1) (tolen + 1) (from'.add 1)
          else
            sprintfEscape to' c
            encodeLoop tosize fuel (to'.add 3) (tolen + 3) (from'.add 1)
        else return to'

def encode_str (fuel : Nat) (to' : Ptr) (tosize : Int) (from' : Ptr) : Exec Mem Unit := do
  let to' ← encodeLoop tosize fuel to' 0 from'
  store8 to' 0

/-- `from[0] == '%' && isxdigit(from[1]) && isxdigit(from[2])`. -/
def atEscape (from' : Ptr) : Exec Mem Bool := do
  if (← load8 from') = percentSign then
    if isxdigit (← load8 (from'.add 1)) then return isxdigit (← load8 (from'.add 2))
    else return false
  else return false

/-- The loop of `decode_str`, with at most `fuel` tests; the pointer `to` behind it. -/
def decodeLoop : Nat → Ptr → Ptr → Exec Mem Ptr
  | 0, _, _ => throw .diverged
  | fuel + 1, to', from' => do
      let c ← load8 from'
      if c = 0 then return to'
      else
        if ← atEscape from' then
          let a ← load8 (from'.add 1)
          let b ← load8 (from'.add 2)
          store8 to' (UInt8.ofNat (hexit a * 16 + hexit b))
          decodeLoop fuel (to'.add 1) (from'.add 3)
        else
          store8 to' c
          decodeLoop fuel (to'.add 1) (from'.add 1)

def decode_str (fuel : Nat) (to' from' : Ptr) : Exec Mem Unit := do
  let to' ← decodeLoop fuel to' from'
  store8 to' 0

/-- A string of the block `j` from the offset `p` on, up to its NUL. -/
structure StringAt (m : Mem) (j p : Nat) (s : List UInt8) : Prop where
  noNul : 0 ∉ s
  holds : ∃ d, m.blocks j = some d ∧ p + s.length < d.size ∧
    (∀ k, k < s.length → d.data (p + k) = s.getD k 0) ∧ d.data (p + s.length) = 0

/-- A block with room for `n` bytes at the offset `o`. -/
def Room (m : Mem) (i o n : Nat) : Prop := ∃ b, m.blocks i = some b ∧ o + n ≤ b.size

theorem Room.mono {m : Mem} {i o n n' : Nat} (h : Room m i o n) (hle : n' ≤ n) : Room m i o n' := by
  obtain ⟨b, hb, hroom⟩ := h
  exact ⟨b, hb, by omega⟩

section Bytes

variable {m : Mem} {i j o p : Nat} {c : UInt8} {s l r : List UInt8}

theorem isxdigit_eq (c : UInt8) : isxdigit c = (hexValue c).isSome := by
  rw [isxdigit, hexValue]
  split_ifs <;> simp <;> grind

theorem hexit_eq {n : Nat} (h : hexValue c = some n) : hexit c = n := by
  rw [hexValue] at h
  rw [hexit]
  split_ifs at h ⊢ <;> simp [UInt8.le_iff_toNat_le] at * <;> omega

theorem copied_percentSign : copied percentSign = false := by decide

namespace StringAt

theorem head (h : StringAt m j p (c :: s)) : (load8 ⟨some j, p⟩).run m = .ok (c, m) := by
  obtain ⟨d, hd, hlt, hdata, -⟩ := h.holds
  have hload := load8_run (o := p) hd (by omega)
  have hc := hdata 0 (by simp)
  rw [Nat.add_zero, List.getD_cons_zero] at hc
  rw [hload, hc]

theorem head_ne (h : StringAt m j p (c :: s)) : c ≠ 0 := fun hc =>
  h.noNul (hc ▸ List.mem_cons_self)

theorem nil (h : StringAt m j p []) : (load8 ⟨some j, p⟩).run m = .ok (0, m) := by
  obtain ⟨d, hd, hlt, -, hend⟩ := h.holds
  rw [load8_run (o := p) hd (by simpa using hlt)]
  simp only [List.length_nil, Nat.add_zero] at hend
  rw [hend]

theorem tail (h : StringAt m j p (c :: s)) : StringAt m j (p + 1) s where
  noNul := fun hs => h.noNul (List.mem_cons_of_mem c hs)
  holds := by
    obtain ⟨d, hd, hlt, hdata, hend⟩ := h.holds
    rw [List.length_cons] at hlt hdata hend
    refine ⟨d, hd, by omega, ?_, by rw [← hend]; congr 1; omega⟩
    intro k hk
    have hnext := hdata (k + 1) (by omega)
    rw [List.getD_cons_succ] at hnext
    rw [← hnext]
    congr 1
    omega

/-- Writing to another block does not change a string. -/
theorem put (h : StringAt m j p s) (hij : j ≠ i) :
    StringAt (m.mapBlock i fun b => b.put o l) j p s where
  noNul := h.noNul
  holds := by
    rw [Mem.mapBlock_blocks_of_ne hij]
    exact h.holds

/-- What has been written with its NUL is a string. -/
theorem of_put (hroom : Room m i o (s.length + 1)) (hs : 0 ∉ s) :
    StringAt (m.mapBlock i fun b => b.put o (s ++ [0])) i o s where
  noNul := hs
  holds := by
    obtain ⟨b, hb, hle⟩ := hroom
    refine ⟨_, Mem.mapBlock_blocks_self hb _, by rw [Block.put_size]; omega, ?_, ?_⟩
    · intro k hk
      rw [Block.put_data (by rw [List.length_append]; omega), List.getD_append _ _ _ _ hk]
    · rw [Block.put_data (by simp), List.getD_append_right _ _ _ _ le_rfl, Nat.sub_self]
      rfl

end StringAt

/-! ## Decoding -/

/-- The test reads no byte behind the NUL. -/
theorem atEscape_run (h : StringAt m j p (c :: s)) :
    (atEscape ⟨some j, p⟩).run m = .ok ((escapedByte c s).isSome, m) := by
  rw [atEscape, run_bind_of_ok h.head, run_ite]
  by_cases hc : c = percentSign
  · rw [if_pos hc]
    cases s with
    | nil =>
        have hnul : (load8 (Ptr.add ⟨some j, p⟩ 1)).run m = .ok (0, m) := h.tail.nil
        rw [run_bind_of_ok hnul]
        rfl
    | cons a s =>
        have hload : (load8 (Ptr.add ⟨some j, p⟩ 1)).run m = .ok (a, m) := h.tail.head
        rw [run_bind_of_ok hload, run_ite, isxdigit_eq]
        cases s with
        | nil =>
            have hnul : (load8 (Ptr.add ⟨some j, p⟩ 2)).run m = .ok (0, m) := h.tail.tail.nil
            rw [run_bind_of_ok hnul]
            split <;> rfl
        | cons b s =>
            have hload : (load8 (Ptr.add ⟨some j, p⟩ 2)).run m = .ok (b, m) := h.tail.tail.head
            rw [run_bind_of_ok hload, escapedByte, if_pos hc, isxdigit_eq]
            cases hexValue a with
            | none => rfl
            | some x => cases hexValue b <;> rfl
  · rw [if_neg hc, escapedByte_of_ne hc]
    rfl

/-- Writing one byte behind the text, over what a call of `sprintf` has left there. -/
theorem store8_put (hroom : Room m i o (l.length + 1)) (hr : r.length ≤ 1) (c : UInt8) :
    (store8 ⟨some i, o + l.length⟩ c).run (m.mapBlock i fun b => b.put o (l ++ r)) =
      .ok ((), m.mapBlock i fun b => b.put o (l ++ [c])) := by
  obtain ⟨b, hb, hle⟩ := hroom
  have hblock := Mem.mapBlock_blocks_self hb fun b => b.put o (l ++ r)
  rw [store8_run hblock (by rw [Block.put_size]; omega), Mem.mapBlock_mapBlock]
  have hput : ∀ b : Block, (b.put o (l ++ r)).patch (o + l.length) 1 (fun _ => c) =
      b.put o (l ++ [c]) := by
    intro b
    rw [← Block.put_singleton, Block.put_put b o (by simpa using hr)]
  exact congrArg (fun f => Except.ok ((), m.mapBlock i f)) (funext hput)

/-- One turn of the loop writes the first byte of the decoded text and goes on behind the bytes that
stand for it. -/
theorem decodeLoop_step (fuel : Nat) (hij : j ≠ i) (h : StringAt m j p (c :: s))
    (hroom : Room m i o (l.length + 1)) :
    ∃ (x : UInt8) (k : Nat) (t : List UInt8), unescape (c :: s) = x :: unescape t ∧
      t.length ≤ s.length ∧ StringAt m j (p + k) t ∧
      (decodeLoop (fuel + 1) ⟨some i, o + l.length⟩ ⟨some j, p⟩).run
          (m.mapBlock i fun b => b.put o l) =
        (decodeLoop fuel ⟨some i, o + (l ++ [x]).length⟩ ⟨some j, p + k⟩).run
          (m.mapBlock i fun b => b.put o (l ++ [x])) := by
  have hmem := h.put (l := l) (o := o) hij
  have hstore := store8_put hroom (Nat.zero_le 1) (r := [])
  rw [List.append_nil] at hstore
  rw [decodeLoop, run_bind_of_ok hmem.head, run_ite, if_neg h.head_ne,
    run_bind_of_ok (atEscape_run hmem), run_ite]
  cases hesc : escapedByte c s with
  | none =>
      refine ⟨c, 1, s, ?_, le_rfl, h.tail, ?_⟩
      · rw [unescape, unescapeFrom, hesc]
        rfl
      · rw [if_neg (by simp), run_bind_of_ok (hstore c), List.length_append, ← Nat.add_assoc]
        rfl
  | some x =>
      obtain ⟨-, d, e, t, a, b, rfl, ha, hb, rfl⟩ := escapedByte_eq_some hesc
      have hfirst : (load8 (Ptr.add ⟨some j, p⟩ 1)).run
          (m.mapBlock i fun b => b.put o l) = .ok (d, _) := hmem.tail.head
      have hsecond : (load8 (Ptr.add ⟨some j, p⟩ 2)).run
          (m.mapBlock i fun b => b.put o l) = .ok (e, _) := hmem.tail.tail.head
      refine ⟨UInt8.ofNat (a * 16 + b), 3, t, ?_, ?_, h.tail.tail.tail, ?_⟩
      · rw [unescape, unescapeFrom, hesc]
        rfl
      · simp only [List.length_cons]
        omega
      · rw [if_pos Option.isSome_some, run_bind_of_ok hfirst, run_bind_of_ok hsecond, hexit_eq ha,
          hexit_eq hb, run_bind_of_ok (hstore _), List.length_append, ← Nat.add_assoc]
        rfl

theorem decodeLoop_run {fuel : Nat} (hij : j ≠ i) (h : StringAt m j p s)
    (hroom : Room m i o (l.length + (unescape s).length + 1)) (hfuel : s.length < fuel) :
    (decodeLoop fuel ⟨some i, o + l.length⟩ ⟨some j, p⟩).run (m.mapBlock i fun b => b.put o l) =
      .ok (⟨some i, o + (l ++ unescape s).length⟩,
        m.mapBlock i fun b => b.put o (l ++ unescape s)) := by
  induction fuel generalizing s p l with
  | zero => omega
  | succ fuel ih =>
      cases s with
      | nil =>
          rw [decodeLoop, run_bind_of_ok (h.put hij).nil, run_ite, if_pos rfl]
          simp only [unescape, unescapeFrom, List.append_nil]
          rfl
      | cons c s =>
          obtain ⟨x, k, t, htext, hlen, ht, hstep⟩ :=
            decodeLoop_step (l := l) fuel hij h (hroom.mono (by omega))
          rw [htext, List.length_cons] at hroom
          have hrest : Room m i o ((l ++ [x]).length + (unescape t).length + 1) :=
            hroom.mono (by rw [List.length_append, List.length_singleton]; omega)
          rw [List.length_cons] at hfuel
          rw [hstep, ih ht hrest (by omega), htext, ← List.append_cons]

/-- Decoding a string writes the decoded bytes and a NUL, and reads no byte behind its NUL. -/
theorem decode_str_run {fuel : Nat} (hij : j ≠ i) (h : StringAt m j p s)
    (hroom : Room m i o ((unescape s).length + 1)) (hfuel : s.length < fuel) :
    (decode_str fuel ⟨some i, o⟩ ⟨some j, p⟩).run m =
      .ok ((), m.mapBlock i fun b => b.put o (unescape s ++ [0])) := by
  have hloop := decodeLoop_run (l := []) hij h (by rwa [List.length_nil, Nat.zero_add]) hfuel
  have hstart : (m.mapBlock i fun b => b.put o []) = m := by
    simp only [Block.put_nil, Mem.mapBlock_id]
  have hend := store8_put hroom (Nat.zero_le 1) 0 (r := [])
  rw [List.append_nil] at hend
  rw [hstart] at hloop
  have hrun : (decodeLoop fuel ⟨some i, o⟩ ⟨some j, p⟩).run m = _ := hloop
  rw [decode_str, run_bind_of_ok hrun]
  exact hend

/-! ## Encoding -/

/-- The bytes that the loop of the encoder escapes when `n` bytes are written, or none when the
budget overflows. -/
def taken (tosize : Nat) : Nat → List UInt8 → Option (List UInt8)
  | _, [] => some []
  | n, c :: s =>
      if INT_MAX < n + 4 then none
      else if n + 4 < tosize then (taken tosize (n + (escapeByte copied c).length) s).map (c :: ·)
      else some []

theorem sprintfEscape_run (hroom : Room m i o (l.length + 4)) (hr : r.length ≤ 1) (c : UInt8) :
    (sprintfEscape ⟨some i, o + l.length⟩ c).run (m.mapBlock i fun b => b.put o (l ++ r)) =
      .ok ((), m.mapBlock i fun b => b.put o (l ++
        [percentSign, hexDigit (c.toNat / 16), hexDigit (c.toNat % 16)] ++ [0])) := by
  obtain ⟨b, hb, hle⟩ := hroom
  have hblock := Mem.mapBlock_blocks_self hb fun b => b.put o (l ++ r)
  rw [sprintfEscape, writeAt_run hblock (by rw [Block.put_size]; omega), Mem.mapBlock_mapBlock,
    List.append_assoc]
  have hput : ∀ b : Block, (b.put o (l ++ r)).put (o + l.length)
      [percentSign, hexDigit (c.toNat / 16), hexDigit (c.toNat % 16), 0] = b.put o (l ++
        [percentSign, hexDigit (c.toNat / 16), hexDigit (c.toNat % 16), 0]) := fun b =>
    Block.put_put b o (hr.trans (by simp))
  exact congrArg (fun f => Except.ok ((), m.mapBlock i f)) (funext hput)

/-- One turn of the loop that writes a byte, or an escape and the NUL of `sprintf`. -/
theorem encodeLoop_step {tosize : Nat} (fuel : Nat) (hij : j ≠ i) (h : StringAt m j p (c :: s))
    (hroom : Room m i o tosize) (hr : r.length ≤ 1) (hint : l.length + 4 ≤ INT_MAX)
    (hlt : l.length + 4 < tosize) :
    ∃ r' : List UInt8, r'.length ≤ 1 ∧
      (encodeLoop tosize (fuel + 1) ⟨some i, o + l.length⟩ l.length ⟨some j, p⟩).run
          (m.mapBlock i fun b => b.put o (l ++ r)) =
        (encodeLoop tosize fuel ⟨some i, o + (l ++ escapeByte copied c).length⟩
          (l ++ escapeByte copied c).length ⟨some j, p + 1⟩).run
            (m.mapBlock i fun b => b.put o (l ++ escapeByte copied c ++ r')) := by
  have hmem := h.put (l := l ++ r) (o := o) hij
  have hone : Room m i o (l.length + 1) := hroom.mono (by omega)
  have hfour : Room m i o (l.length + 4) := hroom.mono (by omega)
  have htest : ((l.length + 4 : Nat) : Int) < tosize := by exact_mod_cast hlt
  rw [encodeLoop, run_bind_of_ok hmem.head, run_ite, if_neg h.head_ne,
    run_bind_of_ok (intValue_run hint _), run_ite, if_pos htest, run_ite, escapeByte]
  by_cases hc : copied c = true
  · have hstore := store8_put hone hr c
    refine ⟨[], Nat.zero_le 1, ?_⟩
    rw [if_pos hc, if_pos hc, run_bind_of_ok hstore, List.append_nil, List.length_append,
      ← Nat.add_assoc]
    rfl
  · have hprint := sprintfEscape_run hfour hr c
    refine ⟨[0], le_rfl, ?_⟩
    rw [if_neg hc, if_neg hc, run_bind_of_ok hprint, List.length_append, ← Nat.add_assoc]
    rfl

/-- The loop of the encoder escapes `taken`; behind the text it leaves at most the NUL of
`sprintf`. -/
theorem encodeLoop_run {fuel tosize : Nat} (hij : j ≠ i) (h : StringAt m j p s)
    (hroom : Room m i o tosize) (hr : r.length ≤ 1) (hfuel : s.length < fuel) :
    match taken tosize l.length s with
    | none => (encodeLoop tosize fuel ⟨some i, o + l.length⟩ l.length ⟨some j, p⟩).run
        (m.mapBlock i fun b => b.put o (l ++ r)) = .error .overflow
    | some u => ∃ r' : List UInt8, r'.length ≤ 1 ∧
        (encodeLoop tosize fuel ⟨some i, o + l.length⟩ l.length ⟨some j, p⟩).run
            (m.mapBlock i fun b => b.put o (l ++ r)) =
          .ok (⟨some i, o + (l ++ escape copied u).length⟩,
            m.mapBlock i fun b => b.put o (l ++ escape copied u ++ r')) := by
  induction fuel generalizing s p l r with
  | zero => omega
  | succ fuel ih =>
      have hmem := h.put (l := l ++ r) (o := o) hij
      cases s with
      | nil =>
          refine ⟨r, hr, ?_⟩
          rw [encodeLoop, run_bind_of_ok hmem.nil, run_ite, if_pos rfl]
          simp only [escape, List.flatMap_nil, List.append_nil]
          rfl
      | cons c s =>
          rw [taken]
          by_cases hint : INT_MAX < l.length + 4
          · rw [if_pos hint]
            simp only
            rw [encodeLoop, run_bind_of_ok hmem.head, run_ite, if_neg h.head_ne,
              run_bind_of_error (intValue_run_overflow hint _)]
          · rw [if_neg hint]
            by_cases hlt : l.length + 4 < tosize
            · obtain ⟨r', hr', hstep⟩ :=
                encodeLoop_step fuel hij h hroom hr (not_lt.mp hint) hlt
              have hrest := ih h.tail hr' (l := l ++ escapeByte copied c) (by
                rw [List.length_cons] at hfuel
                omega)
              rw [if_pos hlt, hstep]
              rw [List.length_append] at hrest
              cases hu : taken tosize (l.length + (escapeByte copied c).length) s with
              | none =>
                  rw [hu] at hrest
                  rw [List.length_append]
                  exact hrest
              | some u =>
                  rw [hu] at hrest
                  obtain ⟨r'', hr'', hrun⟩ := hrest
                  refine ⟨r'', hr'', ?_⟩
                  rw [escape_cons, ← List.append_assoc, List.length_append]
                  exact hrun
            · have htest : ¬ ((l.length + 4 : Nat) : Int) < tosize := by exact_mod_cast hlt
              rw [if_neg hlt]
              refine ⟨r, hr, ?_⟩
              rw [encodeLoop, run_bind_of_ok hmem.head, run_ite, if_neg h.head_ne,
                run_bind_of_ok (intValue_run (not_lt.mp hint) _), run_ite, if_neg htest]
              simp only [escape, List.flatMap_nil, List.append_nil]
              rfl

/-! ## The bytes that are taken -/

section Taken

variable {tosize n : Nat} {b : UInt8} {u : List UInt8}

/-- Behind `n` bytes, the text of a start of `s` is still below the budget, the next byte brings it
next to the largest `int`, and that byte is not the last of `s`. -/
def Overruns (tosize n : Nat) (s : List UInt8) : Prop :=
  ∃ u b c v, s = u ++ b :: c :: v ∧ n + (escape copied u).length + 4 < tosize ∧
    INT_MAX < n + (escape copied (u ++ [b])).length + 4

theorem escapeByte_le (b : UInt8) : (escapeByte copied b).length ≤ 3 := by
  rw [escapeByte_length]
  split <;> decide

/-- Only the two largest budgets can be overrun. -/
theorem not_overruns (h : tosize + 2 ≤ INT_MAX) : ¬ Overruns tosize n s := by
  rintro ⟨u, b, c, v, -, hlt, hint⟩
  have hb := escapeByte_le b
  rw [escape_append, List.length_append, escape_cons, List.length_append] at hint
  have hnil : (escape copied []).length = 0 := rfl
  omega

theorem overruns_cons (h : n + (escapeByte copied b).length + 4 ≤ INT_MAX) :
    Overruns tosize n (b :: s) ↔ Overruns tosize (n + (escapeByte copied b).length) s := by
  constructor
  · rintro ⟨u, b', c, v, hs, hlt, hint⟩
    cases u with
    | nil =>
        obtain ⟨rfl, -⟩ := List.cons.inj hs
        rw [List.nil_append, escape_cons, List.length_append] at hint
        have hnil : (escape copied []).length = 0 := rfl
        omega
    | cons a u =>
        obtain ⟨rfl, rfl⟩ := List.cons.inj hs
        rw [escape_cons, List.length_append, ← Nat.add_assoc] at hlt
        rw [List.cons_append, escape_cons, List.length_append, ← Nat.add_assoc] at hint
        exact ⟨u, b', c, v, rfl, hlt, hint⟩
  · rintro ⟨u, b', c, v, rfl, hlt, hint⟩
    refine ⟨b :: u, b', c, v, rfl, ?_, ?_⟩
    · rwa [escape_cons, List.length_append, ← Nat.add_assoc]
    · rwa [List.cons_append, escape_cons, List.length_append, ← Nat.add_assoc]

theorem taken_eq_none_iff (h : n + 4 ≤ INT_MAX) :
    taken tosize n s = none ↔ Overruns tosize n s := by
  induction s generalizing n with
  | nil =>
      constructor
      · intro hnone
        cases hnone
      · rintro ⟨u, b, c, v, hs, -⟩
        cases u <;> cases hs
  | cons b s ih =>
      rw [taken, if_neg (by omega)]
      by_cases hlt : n + 4 < tosize
      · rw [if_pos hlt, Option.map_eq_none_iff]
        by_cases hint : n + (escapeByte copied b).length + 4 ≤ INT_MAX
        · rw [ih hint, overruns_cons hint]
        · cases s with
          | nil =>
              constructor
              · intro hnone
                cases hnone
              · rintro ⟨_ | ⟨a, u⟩, b', c, v, hs, -⟩
                · cases hs
                · cases u <;> cases hs
          | cons c s =>
              rw [taken, if_pos (by omega)]
              refine iff_of_true rfl ⟨[], b, c, s, rfl, hlt, ?_⟩
              rw [List.nil_append, escape_cons, List.length_append]
              omega
      · rw [if_neg hlt]
        refine iff_of_false (by simp) ?_
        rintro ⟨u, b', c, v, -, hstill, -⟩
        omega

/-- The escaped bytes start the string, and their text is shorter than the budget. -/
theorem taken_eq_some (h : taken tosize n s = some u) (hn : n < tosize) :
    u <+: s ∧ n + (escape copied u).length < tosize := by
  induction s generalizing n u with
  | nil =>
      cases h
      exact ⟨List.nil_prefix, hn⟩
  | cons b s ih =>
      rw [taken] at h
      split_ifs at h with hint hlt
      · rw [Option.map_eq_some_iff] at h
        obtain ⟨u, hu, rfl⟩ := h
        have hb := escapeByte_le b
        obtain ⟨hstart, hlen⟩ := ih hu (by omega)
        rw [escape_cons, List.length_append]
        exact ⟨List.cons_prefix_cons.mpr ⟨rfl, hstart⟩, by omega⟩
      · cases h
        exact ⟨List.nil_prefix, hn⟩

/-- With room for three bytes for each, all bytes are escaped. -/
theorem taken_eq_self (h : n + 3 * s.length + 4 ≤ tosize) (hmax : tosize ≤ INT_MAX) :
    taken tosize n s = some s := by
  induction s generalizing n with
  | nil => rfl
  | cons b s ih =>
      have hb := escapeByte_le b
      rw [List.length_cons] at h
      rw [taken, if_neg (by omega), if_pos (by omega), ih (by omega)]
      rfl

end Taken

/-! ## The round trip -/

section RoundTrip

variable {tosize : Nat}

/-- What the two functions promise for a string and a budget: the encoder writes a string below the
budget without a cut escape, and the decoder gives back a prefix of what was encoded. -/
def RoundTrip (m : Mem) (i o tosize j p : Nat) (s : List UInt8) : Prop :=
  ∃ u v text m', s = u ++ v ∧
    Returns (fun fuel => encode_str fuel ⟨some i, o⟩ tosize ⟨some j, p⟩) m ((), m') ∧
    StringAt m' i o text ∧ text.length < tosize ∧
    (∀ w t, text = w ++ percentSign :: t → (escapedByte percentSign t).isSome) ∧
    (3 * s.length + 4 ≤ tosize → v = []) ∧
    ∀ k q, k ≠ i → Room m' k q (u.length + 1) →
      ∃ m'', Returns (fun fuel => decode_str fuel ⟨some k, q⟩ ⟨some i, o⟩) m' ((), m'') ∧
        StringAt m'' k q u

/-- The encoder returns exactly when it does not compute a budget outside `int`. -/
theorem encode_str_run {fuel : Nat} (hij : j ≠ i) (h : StringAt m j p s) (hroom : Room m i o tosize)
    (hpos : 1 ≤ tosize) (hfuel : s.length < fuel) :
    (encode_str fuel ⟨some i, o⟩ tosize ⟨some j, p⟩).run m =
      match taken tosize 0 s with
      | none => .error .overflow
      | some u => .ok ((), m.mapBlock i fun b => b.put o (escape copied u ++ [0])) := by
  have hloop := encodeLoop_run (l := []) (r := []) hij h hroom (Nat.zero_le 1) hfuel
  have hstart : (m.mapBlock i fun b => b.put o ([] ++ [])) = m := by
    simp only [List.append_nil, Block.put_nil, Mem.mapBlock_id]
  rw [hstart] at hloop
  rw [encode_str]
  cases hu : taken tosize 0 s with
  | none =>
      simp only [List.length_nil, hu] at hloop
      exact run_bind_of_error hloop _
  | some u =>
      simp only [List.length_nil, hu] at hloop
      obtain ⟨r, hr, hrun⟩ := hloop
      have hlen := (taken_eq_some hu hpos).2
      have hone : Room m i o ((escape copied u).length + 1) := hroom.mono (by omega)
      exact (run_bind_of_ok hrun _).trans (store8_put hone hr 0)

theorem round_trip_of_taken {u : List UInt8} (hij : j ≠ i) (h : StringAt m j p s)
    (hroom : Room m i o tosize) (hpos : 1 ≤ tosize) (hmax : tosize ≤ INT_MAX)
    (hu : taken tosize 0 s = some u) : RoundTrip m i o tosize j p s := by
  obtain ⟨⟨v, rfl⟩, hlen⟩ := taken_eq_some hu hpos
  rw [Nat.zero_add] at hlen
  have hnul : 0 ∉ u := fun hmem => h.noNul (List.mem_append_left v hmem)
  have hone : Room m i o ((escape copied u).length + 1) := hroom.mono hlen
  have htext := StringAt.of_put hone (zero_notMem_escape hnul)
  have hdecoded : unescape (escape copied u) = u := by
    have hall := unescape_escape (s := u) (t := []) copied_percentSign
    simpa [unescape, unescapeFrom] using hall
  refine ⟨u, v, escape copied u, _, rfl, ⟨(u ++ v).length + 1, ?_⟩, htext, hlen, ?_, ?_, ?_⟩
  · intro fuel hfuel
    rw [encode_str_run hij h hroom hpos hfuel, hu]
  · exact fun w t => escape_whole copied_percentSign
  · intro hall
    have hself := taken_eq_self (n := 0) (by omega) hmax (s := u ++ v)
    rw [hu, Option.some.injEq] at hself
    exact List.append_cancel_left (hself.symm.trans (List.append_nil u).symm)
  · intro k q hki hroom'
    have hfits : Room (m.mapBlock i fun b => b.put o (escape copied u ++ [0])) k q
        ((unescape (escape copied u)).length + 1) := by rwa [hdecoded]
    refine ⟨_, ⟨(escape copied u).length + 1, fun fuel hfuel =>
      decode_str_run (Ne.symm hki) htext hfits hfuel⟩, ?_⟩
    rw [hdecoded]
    exact StringAt.of_put hroom' hnul

theorem not_overruns_of_round_trip (hij : j ≠ i) (h : StringAt m j p s)
    (hroom : Room m i o tosize) (hpos : 1 ≤ tosize) (hrt : RoundTrip m i o tosize j p s) :
    ¬ Overruns tosize 0 s := by
  rw [← taken_eq_none_iff (by decide)]
  intro hnone
  obtain ⟨u, v, text, m', -, ⟨N, hN⟩, -⟩ := hrt
  have hfuel : s.length < N + s.length + 1 := by omega
  have hrun := encode_str_run hij h hroom hpos hfuel
  rw [hN _ (by omega), hnone] at hrun
  cases hrun

/-- The promise is kept for all strings but those that overrun the budget. Decoding any string gives
no more bytes than it reads, and it reads none behind the NUL. -/
theorem round_trip_iff (hij : j ≠ i) (h : StringAt m j p s) (hroom : Room m i o tosize)
    (hpos : 1 ≤ tosize) (hmax : tosize ≤ INT_MAX) :
    (RoundTrip m i o tosize j p s ↔ ¬ Overruns tosize 0 s) ∧
    ∀ m' i' o' j' p' t, j' ≠ i' → StringAt m' j' p' t →
      Room m' i' o' ((unescape t).length + 1) → (unescape t).length ≤ t.length ∧
        Returns (fun fuel => decode_str fuel ⟨some i', o'⟩ ⟨some j', p'⟩) m'
          ((), m'.mapBlock i' fun b => b.put o' (unescape t ++ [0])) := by
  refine ⟨⟨not_overruns_of_round_trip hij h hroom hpos, fun hover => ?_⟩, ?_⟩
  · rw [← taken_eq_none_iff (by decide)] at hover
    obtain ⟨u, hu⟩ := Option.ne_none_iff_exists'.mp hover
    exact round_trip_of_taken hij h hroom hpos hmax hu
  · intro m' i' o' j' p' t hij' ht hroom'
    exact ⟨unescape_length_le, t.length + 1, fun fuel hfuel => decode_str_run hij' ht hroom' hfuel⟩

/-- A buffer of `tosize` bytes, and the string `s` in a block of its own. -/
def bufferAndString (tosize : Nat) (s : List UInt8) : Mem :=
  (Mem.empty.grant ⟨tosize, fun _ => 0⟩).grant ⟨s.length + 1, fun k => s.getD k 0⟩

theorem bufferAndString_room (tosize : Nat) (s : List UInt8) :
    Room (bufferAndString tosize s) 0 0 tosize :=
  ⟨⟨tosize, fun _ => 0⟩, rfl, by simp⟩

theorem bufferAndString_string (tosize : Nat) (hs : 0 ∉ s) :
    StringAt (bufferAndString tosize s) 1 0 s where
  noNul := hs
  holds := by
    refine ⟨⟨s.length + 1, fun k => s.getD k 0⟩, rfl, by simp, ?_, ?_⟩
    · intro k hk
      rw [Nat.zero_add]
    · rw [Nat.zero_add]
      exact List.getD_eq_default _ _ le_rfl

/-- `a b` in a buffer of ten bytes. -/
theorem round_trip_ten : RoundTrip (bufferAndString 10 [97, 32, 98]) 0 0 10 1 0 [97, 32, 98] :=
  (round_trip_iff (by decide) (bufferAndString_string 10 (by decide))
    (bufferAndString_room 10 [97, 32, 98]) (by decide) (by decide)).1.mpr
      (not_overruns (by decide))

/-- A letter and spaces that fill the largest buffer. -/
def manySpaces : List UInt8 := 97 :: List.replicate 715827882 32

theorem escape_spaces (n : Nat) : (escape copied (List.replicate n 32)).length = 3 * n := by
  induction n with
  | zero => rfl
  | succ n ih =>
      have hspace : (escapeByte copied 32).length = 3 := by decide
      rw [List.replicate_succ, escape_cons, List.length_append, hspace, ih]
      omega

theorem manySpaces_overruns : Overruns INT_MAX 0 manySpaces := by
  have hletter : (escapeByte copied 97).length = 1 := by decide
  refine ⟨97 :: List.replicate 715827880 32, 32, 32, [], ?_, ?_, ?_⟩
  · rw [manySpaces, List.cons_append]
    exact congrArg (97 :: ·) (List.replicate_append_replicate (n := 715827880) (m := 2)).symm
  · rw [escape_cons, List.length_append, escape_spaces, hletter]
    decide
  · have hlast : List.replicate 715827880 (32 : UInt8) ++ [32] = List.replicate 715827881 32 :=
      (List.replicate_append_replicate (n := 715827880) (m := 1))
    rw [List.cons_append, hlast, escape_cons, List.length_append, escape_spaces, hletter]
    decide

/-- With the largest budget, a string of spaces makes `tolen + 4` overflow. -/
theorem budget_overflow :
    StringAt (bufferAndString INT_MAX manySpaces) 1 0 manySpaces ∧
    Room (bufferAndString INT_MAX manySpaces) 0 0 INT_MAX ∧
    ¬ RoundTrip (bufferAndString INT_MAX manySpaces) 0 0 INT_MAX 1 0 manySpaces := by
  have hnul : 0 ∉ manySpaces := by
    rw [manySpaces, List.mem_cons, List.mem_replicate]
    rintro (h | ⟨-, h⟩) <;> cases h
  have hstring := bufferAndString_string INT_MAX hnul
  have hroom := bufferAndString_room INT_MAX manySpaces
  refine ⟨hstring, hroom, fun hrt => ?_⟩
  exact not_overruns_of_round_trip (by decide) hstring hroom (by decide) hrt manySpaces_overruns

end RoundTrip

end Bytes

end CLanguageLearning.Http
