import CLanguageLearning.Http.OneAnswer
import Mathlib.Data.List.DropRight

/-!
# What `cat` sends

The loop of `cat` asks for the end of the file before it sends what the last read has put into the
buffer, and the read that hits the end may have read something. These bytes are not sent: they are
what is left of the last line, the one without a line feed, when it is cut into buffers.
-/

set_option autoImplicit false

namespace CLanguageLearning.Tinyhttpd

open CLanguageLearning.Foundation

/-- The bytes behind the last line feed. -/
def lastLine (content : List UInt8) : List UInt8 := content.rtakeWhile (· ≠ LF)

/-- The strings that `cat` passes to `send` are the file, one after the other. -/
def SendsWhole (vars : Locals) (content : List UInt8) (s : Conn) : Prop :=
  ∃ pieces : List (List UInt8), (cat vars content).run s =
    .ok ((), { s with sent := s.sent ++ pieces.map .content }) ∧ pieces.flatten = content

section Reads

variable {l a b : List UInt8} {n : Nat}

/-- A read that hits the end has read all there is, and found no line feed. -/
theorem fgetsBytes_of_eof (h : (fgetsBytes n l).2.2 = true) :
    (fgetsBytes n l).1 = l ∧ LF ∉ l ∧ l.length < n := by
  induction n generalizing l with
  | zero => cases h
  | succ n ih =>
      cases l with
      | nil => exact ⟨rfl, List.not_mem_nil, Nat.zero_lt_succ n⟩
      | cons c l =>
          rw [fgetsBytes] at h ⊢
          by_cases hlf : c = LF
          · rw [if_pos hlf] at h
            cases h
          · rw [if_neg hlf] at h ⊢
            obtain ⟨hall, hno, hlt⟩ := ih h
            refine ⟨congrArg (c :: ·) hall, ?_, Nat.succ_lt_succ hlt⟩
            rw [List.mem_cons, not_or]
            exact ⟨fun heq => hlf heq.symm, hno⟩

/-- Any other read has filled the buffer or come to the end of a line. -/
theorem fgetsBytes_of_not_eof (h : (fgetsBytes n l).2.2 = false) :
    (∃ p, (fgetsBytes n l).1 = p ++ [LF]) ∨
      LF ∉ (fgetsBytes n l).1 ∧ (fgetsBytes n l).1.length = n := by
  induction n generalizing l with
  | zero => exact Or.inr ⟨List.not_mem_nil, rfl⟩
  | succ n ih =>
      cases l with
      | nil => cases h
      | cons c l =>
          rw [fgetsBytes] at h ⊢
          by_cases hlf : c = LF
          · rw [if_pos hlf]
            exact Or.inl ⟨[], by rw [hlf]; rfl⟩
          · rw [if_neg hlf] at h ⊢
            rcases ih h with ⟨p, hp⟩ | ⟨hno, hlen⟩
            · exact Or.inl ⟨c :: p, congrArg (c :: ·) hp⟩
            · refine Or.inr ⟨?_, congrArg Nat.succ hlen⟩
              rw [List.mem_cons, not_or]
              exact ⟨fun heq => hlf heq.symm, hno⟩

theorem lastLine_of_notMem (h : LF ∉ l) : lastLine l = l := by
  refine List.rtakeWhile_eq_self_iff.mpr fun c hc => decide_eq_true ?_
  rintro rfl
  exact h hc

theorem lastLine_append_of_mem (h : LF ∈ b) (a : List UInt8) : lastLine (a ++ b) = lastLine b := by
  have hshort : (b.reverse.takeWhile (· ≠ LF)).length ≠ b.reverse.length := by
    intro hlen
    have hall := (List.takeWhile_prefix (p := (· ≠ LF)) (l := b.reverse)).eq_of_length hlen
    have hlf := List.takeWhile_eq_self_iff.mp hall LF (List.mem_reverse.mpr h)
    exact of_decide_eq_true hlf rfl
  rw [lastLine, lastLine, List.rtakeWhile, List.rtakeWhile, List.reverse_append,
    List.takeWhile_append, if_neg hshort]

/-- What is in front of a line feed is in another line. -/
theorem lastLine_append_lf (a b : List UInt8) : lastLine (a ++ [LF] ++ b) = lastLine b := by
  by_cases hb : LF ∈ b
  · exact lastLine_append_of_mem hb _
  · have hall : ∀ c ∈ b.reverse, decide (c ≠ LF) = true := by
      intro c hc
      apply decide_eq_true
      rintro rfl
      exact hb (List.mem_reverse.mp hc)
    have hcut : lastLine ([LF] ++ b) = b := by
      rw [lastLine, List.rtakeWhile, List.reverse_append, List.takeWhile_append_of_pos hall]
      simp
    rw [List.append_assoc, lastLine_append_of_mem (by simp), hcut, lastLine_of_notMem hb]

/-- A full buffer without a line feed is taken off the last line, or off another one. -/
theorem length_lastLine_append (hno : LF ∉ a) (hlen : a.length = n) (b : List UInt8) :
    (lastLine (a ++ b)).length % n = (lastLine b).length % n := by
  by_cases hb : LF ∈ b
  · rw [lastLine_append_of_mem hb]
  · have hboth : LF ∉ a ++ b := by
      rw [List.mem_append, not_or]
      exact ⟨hno, hb⟩
    rw [lastLine_of_notMem hboth, lastLine_of_notMem hb, List.length_append, hlen,
      Nat.add_mod_left]

/-- A read that does not hit the end leaves as much of the last line, up to full buffers. -/
theorem length_lastLine_rest (h : (fgetsBytes n l).2.2 = false) :
    (lastLine l).length % n = (lastLine (fgetsBytes n l).2.1).length % n := by
  have hcut := fgetsBytes_append n l
  rcases fgetsBytes_of_not_eof h with ⟨p, hp⟩ | ⟨hno, hlen⟩
  · rw [hp] at hcut
    conv_lhs => rw [← hcut]
    rw [lastLine_append_lf]
  · conv_lhs => rw [← hcut]
    exact length_lastLine_append hno hlen _

end Reads

section Sends

variable {buf content : List UInt8}

/-- The file is sent, except for the bytes of the read that hits its end. -/
theorem catLoop_sends (fuel : Nat) :
    ∀ {content buf : List UInt8} (s : Conn), buf.length = BUF_SIZE → 0 ∉ content →
      content.length < fuel →
      ∃ (pieces : List (List UInt8)) (unsent : List UInt8),
        (fgets buf ⟨content, false⟩ >>= fun r => catLoop fuel r.1 r.2).run s =
          .ok ((), { s with sent := s.sent ++ pieces.map .content }) ∧
        pieces.flatten ++ unsent = content ∧
        unsent.length = (lastLine content).length % (BUF_SIZE - 1) := by
  induction fuel with
  | zero =>
      intro content buf s _ _ hfuel
      exact absurd hfuel (Nat.not_lt_zero _)
  | succ fuel ih =>
      intro content buf s hbuf hnul hfuel
      rw [run_bind_of_ok (fgets_run hbuf ⟨content, false⟩ s), catLoop]
      dsimp only
      cases heof : (fgetsBytes (BUF_SIZE - 1) content).2.2 with
      | true =>
          -- the loop ends before what has been read is sent
          obtain ⟨-, hno, hlt⟩ := fgetsBytes_of_eof heof
          refine ⟨[], content, ?_, rfl, ?_⟩
          · have hend : (false || true) = true := rfl
            rw [if_pos hend]
            simp
          · rw [lastLine_of_notMem hno, Nat.mod_eq_of_lt hlt]
      | false =>
          have hcut := fgetsBytes_append (BUF_SIZE - 1) content
          have hne : (fgetsBytes (BUF_SIZE - 1) content).1 ≠ [] := by
            intro hnil
            rw [fgetsBytes_eq_nil (by decide) hnil] at heof
            cases heof
          have hfit := length_fgetsBytes_lt hbuf content
          have hline := length_lastLine_rest heof
          generalize hread : fgetsBytes (BUF_SIZE - 1) content = read at *
          obtain ⟨piece, rest, eof⟩ := read
          dsimp only at *
          subst heof
          have hpos := List.length_pos_iff.mpr hne
          -- without a NUL the string in the buffer is the whole piece
          have hnul' : 0 ∉ piece ∧ 0 ∉ rest := by
            rw [← hcut, List.mem_append, not_or] at hnul
            exact hnul
          have hlt : rest.length < fuel := by
            rw [← hcut, List.length_append] at hfuel
            omega
          have htext : cstring (afterLine buf piece) = some piece := by
            rw [cstring_afterLine, upToNul_eq_self hnul'.1]
          obtain ⟨pieces, unsent, hrun, hflat, hunsent⟩ :=
            ih { s with sent := s.sent ++ [.content piece] } ((length_afterLine hfit).trans hbuf)
              hnul'.2 hlt
          refine ⟨piece :: pieces, unsent, ?_, ?_, hunsent.trans hline.symm⟩
          · rw [if_neg (by simp), if_neg hne, run_bind_of_ok (stringAt_run htext s)]
            refine (run_bind_of_ok rfl _).trans (hrun.trans ?_)
            simp
          · rw [List.flatten_cons, List.append_assoc, hflat, hcut]

theorem cat_sends (vars : Locals) (s : Conn) (h : 0 ∉ content) :
    ∃ (pieces : List (List UInt8)) (unsent : List UInt8), (cat vars content).run s =
        .ok ((), { s with sent := s.sent ++ pieces.map .content }) ∧
      pieces.flatten ++ unsent = content ∧
      unsent.length = (lastLine content).length % (BUF_SIZE - 1) :=
  catLoop_sends (content.length + 2) s vars.cat_buf.length_toList h (by omega)

theorem sendsWhole_iff_of_run {vars : Locals} {s : Conn} {pieces : List (List UInt8)}
    {unsent : List UInt8} (hrun : (cat vars content).run s =
      .ok ((), { s with sent := s.sent ++ pieces.map .content }))
    (hflat : pieces.flatten ++ unsent = content) : SendsWhole vars content s ↔ unsent = [] := by
  constructor
  · rintro ⟨pieces', hrun', hflat'⟩
    rw [hrun, Except.ok.injEq, Prod.mk.injEq, Conn.mk.injEq] at hrun'
    have hpieces : pieces = pieces' :=
      List.map_injective_iff.mpr (fun _ _ heq => Sent.content.inj heq)
        (List.append_cancel_left hrun'.2.2.1)
    rw [hpieces, hflat'] at hflat
    exact List.append_right_eq_self.mp hflat
  · rintro rfl
    exact ⟨pieces, hrun, by rwa [List.append_nil] at hflat⟩

/-- A file without a NUL is sent whole exactly when its last line, cut into buffers, leaves nothing:
when it ends in a line feed, or with a full buffer. -/
theorem cat_sends_whole_iff (vars : Locals) (s : Conn) (h : 0 ∉ content) :
    SendsWhole vars content s ↔ (lastLine content).length % (BUF_SIZE - 1) = 0 := by
  obtain ⟨pieces, unsent, hrun, hflat, hunsent⟩ := cat_sends vars s h
  rw [← hunsent, List.length_eq_zero_iff]
  exact sendsWhole_iff_of_run hrun hflat

/-- A short line is sent, and then a line without its line feed that fills the buffer twice. -/
theorem cat_sends_whole_iff_pieces :
    SendsWhole .zeroed ([97] ++ [LF] ++ List.replicate (2 * (BUF_SIZE - 1)) 98)
      ⟨[], [], [], false⟩ := by
  have hno : LF ∉ List.replicate (2 * (BUF_SIZE - 1)) (98 : UInt8) := by
    simp [List.mem_replicate, LF]
  have hnul : (0 : UInt8) ∉ [97] ++ [LF] ++ List.replicate (2 * (BUF_SIZE - 1)) 98 := by
    simp [List.mem_replicate, LF]
  refine (cat_sends_whole_iff .zeroed ⟨[], [], [], false⟩ hnul).mpr ?_
  rw [lastLine_append_lf, lastLine_of_notMem hno, List.length_replicate, Nat.mul_mod_left]

/-- A file of one byte is not sent. -/
theorem byte_not_sent :
    (0 : UInt8) ∉ [(97 : UInt8)] ∧ ¬ SendsWhole .zeroed [97] ⟨[], [], [], false⟩ := by
  have hnul : (0 : UInt8) ∉ [(97 : UInt8)] := by decide
  refine ⟨hnul, ?_⟩
  obtain ⟨pieces, unsent, hrun, hflat, hunsent⟩ := cat_sends .zeroed ⟨[], [], [], false⟩ hnul
  rw [sendsWhole_iff_of_run hrun hflat]
  rintro rfl
  cases hunsent

end Sends

end CLanguageLearning.Tinyhttpd
