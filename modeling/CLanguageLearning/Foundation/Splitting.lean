import Mathlib.Data.List.Basic
import Mathlib.Data.List.Infix

/-!
# Splitting at a separator

`Split sep c ts` says that `ts` are the pieces of `c` between the occurrences of `sep` that one
finds from left to right, each search going on behind the last occurrence. The pieces are
determined by `c` (`Split.unique`), and joined by `sep` they give `c` back (`Split.join`). For a
separator of one element every list of pieces without it is what its join is split into
(`Split.of_join`).
-/

set_option autoImplicit false

namespace CLanguageLearning.Foundation

variable {α : Type} {sep c t r : List α} {ts us : List (List α)} {x : α}

/-- The pieces between the leftmost occurrences of `sep` without overlap. -/
inductive Split (sep : List α) : List α → List (List α) → Prop where
  | last {t : List α} (hnone : ¬ sep <:+: t) : Split sep t [t]
  | next {t r : List α} {ts : List (List α)}
      (hfirst : ∀ n, n < t.length → ¬ sep <+: (t ++ sep ++ r).drop n) (h : Split sep r ts) :
      Split sep (t ++ sep ++ r) (t :: ts)

/-- The pieces of a text whose first piece starts with `tok`; the next `k` elements belong to a
separator that has been found. -/
def piecesFrom [DecidableEq α] (sep : List α) : List α → Nat → List α → List (List α)
  | tok, _, [] => [tok]
  | tok, k + 1, _ :: r => piecesFrom sep tok k r
  | tok, 0, x :: r =>
      if sep <+: x :: r then tok :: piecesFrom sep [] (sep.length - 1) r
      else piecesFrom sep (tok ++ [x]) 0 r

/-- The pieces of `c`. -/
def pieces [DecidableEq α] (sep c : List α) : List (List α) := piecesFrom sep [] 0 c

/-- What is in front of the first separator is determined by the text. -/
theorem append_cons_cancel {t' r' : List α} (ht : x ∉ t) (ht' : x ∉ t')
    (h : t ++ x :: r = t' ++ x :: r') : t = t' ∧ r = r' := by
  induction t generalizing t' with
  | nil =>
      cases t' with
      | nil =>
          cases h
          exact ⟨rfl, rfl⟩
      | cons y t' =>
          cases h
          exact absurd List.mem_cons_self ht'
  | cons y t ih =>
      cases t' with
      | nil =>
          cases h
          exact absurd List.mem_cons_self ht
      | cons y' t' =>
          rw [List.cons_append, List.cons_append, List.cons.injEq] at h
          obtain ⟨rfl, h⟩ := h
          rw [List.mem_cons, not_or] at ht ht'
          obtain ⟨rfl, rfl⟩ := ih ht.2 ht'.2 h
          exact ⟨rfl, rfl⟩

/-- Where an occurrence starts if there is one. -/
theorem prefix_drop_of_infix (h : sep <:+: c) : ∃ n, n + sep.length ≤ c.length ∧
    sep <+: c.drop n := by
  obtain ⟨u, v, rfl⟩ := h
  refine ⟨u.length, by simp only [List.length_append]; omega, v, ?_⟩
  rw [List.append_assoc, List.drop_left]

/-- The elements of a separator that has been found are skipped. -/
theorem piecesFrom_drop [DecidableEq α] (tok : List α) (k : Nat) (c : List α) :
    piecesFrom sep tok k c = piecesFrom sep tok 0 (c.drop k) := by
  induction k generalizing c with
  | zero => rfl
  | succ k ih =>
      cases c with
      | nil => simp [piecesFrom]
      | cons x r => exact ih r

namespace Split

theorem ne_nil (h : Split sep c ts) : ts ≠ [] := by
  cases h with
  | last => simp
  | next => simp

/-- The pieces joined by the separator. -/
theorem join (h : Split sep c ts) : sep.intercalate ts = c := by
  induction h with
  | last => simp
  | next _ h ih => rw [List.intercalate_cons_of_ne_nil h.ne_nil, ih]

/-- No piece contains the separator. -/
theorem not_infix (hsep : sep ≠ []) (h : Split sep c ts) : ∀ t ∈ ts, ¬ sep <:+: t := by
  induction h with
  | last hnone => simpa using hnone
  | @next t r ts hfirst _ ih =>
      simp only [List.mem_cons, forall_eq_or_imp]
      refine ⟨?_, ih⟩
      -- an occurrence in the first piece would be an earlier one
      rintro ⟨u, v, rfl⟩
      have hpos := List.length_pos_iff.mpr hsep
      refine hfirst u.length (by simp only [List.length_append]; omega) ⟨v ++ sep ++ r, ?_⟩
      simp

/-- The first occurrence is where the first piece ends. -/
theorem first_le (hr : sep <+: (t ++ r).drop t.length)
    {t' r' : List α} (hfirst : ∀ n, n < t'.length → ¬ sep <+: (t' ++ sep ++ r').drop n)
    (heq : t ++ r = t' ++ sep ++ r') : t'.length ≤ t.length := by
  by_contra hlt
  exact hfirst t.length (by omega) (heq ▸ hr)

theorem unique (h : Split sep c ts) (h' : Split sep c us) : ts = us := by
  induction h generalizing us with
  | last hnone =>
      cases h' with
      | last => rfl
      | @next t r => exact absurd ⟨t, r, rfl⟩ hnone
  | @next t r ts hfirst _ ih =>
      generalize hc : t ++ sep ++ r = c at h'
      cases h' with
      | last hnone => exact absurd ⟨t, r, hc⟩ hnone
      | @next t' r' us hfirst' h' =>
          have hocc : ∀ u v : List α, sep <+: (u ++ (sep ++ v)).drop u.length := fun u v => by
            rw [List.drop_left]
            exact List.prefix_append ..
          have hle := first_le (hocc t r) hfirst' (by rw [← List.append_assoc, hc])
          have hge := first_le (hocc t' r') hfirst (by rw [← List.append_assoc, ← hc])
          rw [List.append_assoc, List.append_assoc] at hc
          obtain ⟨rfl, hrest⟩ := List.append_inj hc (by omega)
          rw [ih (List.append_cancel_left hrest ▸ h')]

/-- Pieces without the element `x` are what their join is split into. -/
theorem of_join (hts : ts ≠ []) (hx : ∀ t ∈ ts, x ∉ t) : Split [x] ([x].intercalate ts) ts := by
  induction ts with
  | nil => exact absurd rfl hts
  | cons t ts ih =>
      have ht : x ∉ t := hx t List.mem_cons_self
      rcases eq_or_ne ts [] with rfl | hne
      · rw [List.intercalate_singleton]
        refine .last fun hin => ht (hin.subset List.mem_cons_self)
      · rw [List.intercalate_cons_of_ne_nil hne]
        refine .next (fun n hn hpre => ht ?_) (ih hne fun u hu => hx u (List.mem_cons_of_mem t hu))
        -- the element at `n` is one of `t`
        rw [List.append_assoc, List.drop_append_of_le_length (by omega),
          List.drop_eq_getElem_cons hn] at hpre
        obtain ⟨v, hv⟩ := hpre
        have hhead : x = t[n] := (List.cons.inj hv).1
        exact hhead ▸ List.getElem_mem hn

/-- Every text has its pieces: `tok` is the part of the first piece that has been seen. -/
theorem of_piecesFrom [DecidableEq α] (hsep : sep ≠ []) (tok c : List α)
    (htok : ∀ n, n < tok.length → ¬ sep <+: (tok ++ c).drop n) :
    Split sep (tok ++ c) (piecesFrom sep tok 0 c) := by
  have hpos := List.length_pos_iff.mpr hsep
  induction hlen : c.length using Nat.strong_induction_on generalizing tok c with
  | _ len ih =>
      cases c with
      | nil =>
          rw [List.append_nil] at htok ⊢
          refine .last fun hin => ?_
          obtain ⟨n, hn, hpre⟩ := prefix_drop_of_infix hin
          exact htok n (by omega) hpre
      | cons x r =>
          rw [piecesFrom]
          split
          next hpre =>
            obtain ⟨v, hv⟩ := hpre
            have hr : r.drop (sep.length - 1) = v := by
              have hdrop := congrArg (List.drop sep.length) hv
              obtain ⟨k, hk⟩ := Nat.exists_eq_add_one.mpr hpos
              rw [List.drop_left, hk, List.drop_succ_cons] at hdrop
              rw [hdrop, hk, Nat.add_sub_cancel]
            have hshort : v.length < len := by
              rw [← hlen, ← hv, List.length_append]
              omega
            rw [piecesFrom_drop, hr, ← hv, ← List.append_assoc]
            rw [← hv, ← List.append_assoc] at htok
            exact .next htok (ih v.length hshort [] v (fun n hn => by simp at hn) rfl)
          next hpre =>
            have hshort : r.length < len := by
              rw [← hlen, List.length_cons]
              omega
            have hmore : ∀ n, n < (tok ++ [x]).length → ¬ sep <+: (tok ++ [x] ++ r).drop n := by
              intro n hn
              rw [List.append_assoc]
              rw [List.length_append, List.length_singleton] at hn
              rcases Nat.lt_succ_iff_lt_or_eq.mp hn with hn | rfl
              · exact htok n hn
              · rwa [List.drop_left]
            have hrest := ih r.length hshort (tok ++ [x]) r hmore rfl
            rwa [List.append_assoc] at hrest

theorem of_pieces [DecidableEq α] (hsep : sep ≠ []) (c : List α) : Split sep c (pieces sep c) :=
  of_piecesFrom hsep [] c fun n hn => by simp at hn

end Split

end CLanguageLearning.Foundation
