import CLanguageLearning.Sds.Quoting

/-!
# Which blanks end a word

`sdssplitargs` decides in three places what a blank is: in front of a token and behind a closing
quote it asks `isspace`, in an unquoted token it compares with a list that has neither the vertical
tab nor the form feed. A line of words is split at its blanks exactly when none of these two stands
directly behind a word.
-/

set_option autoImplicit false

namespace CLanguageLearning.Sds

open CLanguageLearning.Foundation

/-! ## Lines of words -/

/-- A word: no blank, no NUL and no quote. -/
structure IsWord (w : List UInt8) : Prop where
  ne_nil : w ≠ []
  plain : ∀ c ∈ w, isspace c = false ∧ c ≠ 0 ∧ c ≠ dquote ∧ c ≠ squote

/-- A run of blanks, possibly empty. -/
def IsBlanks (sep : List UInt8) : Prop := ∀ c, c ∈ sep → isspace c = true

/-- Words, each with the blanks behind it: only behind the last there may be none. -/
inductive Spaced : List (List UInt8 × List UInt8) → Prop where
  | last {w sep : List UInt8} (hw : IsWord w) (hsep : IsBlanks sep) : Spaced [(w, sep)]
  | cons {w sep : List UInt8} {items : List (List UInt8 × List UInt8)} (hw : IsWord w)
      (hsep : IsBlanks sep) (hne : sep ≠ []) (h : Spaced items) : Spaced ((w, sep) :: items)

/-- The text of words and blanks. -/
def spacedText (items : List (List UInt8 × List UInt8)) : List UInt8 :=
  (items.map fun x => x.1 ++ x.2).flatten

/-- The blanks behind a word begin with one that the loop for unquoted tokens knows. -/
def EndsWord (sep : List UInt8) : Prop :=
  sep.head? ≠ some verticalTab ∧ sep.head? ≠ some formFeed

instance (sep : List UInt8) : Decidable (EndsWord sep) :=
  inferInstanceAs (Decidable (_ ∧ _))

/-! ## One word -/

/-- The characters at which an unquoted token ends. -/
def StopsToken (c : UInt8) : Prop :=
  c = space ∨ c = newline ∨ c = carriageReturn ∨ c = tabulator ∨ c = 0

/-- A blank that ends no token is one of the two missing in the list. -/
theorem isspace_cases {c : UInt8} (h : isspace c = true) :
    StopsToken c ∨ c = verticalTab ∨ c = formFeed := by
  simp only [isspace, Bool.or_eq_true, beq_iff_eq] at h
  unfold StopsToken
  tauto

/-- A character that is kept as it is. -/
theorem plainStep_keeps {acc p : List UInt8} {c : UInt8} (hstop : ¬ StopsToken c)
    (hd : c ≠ dquote) (hs : c ≠ squote) :
    plainStep acc (c :: p) = .next ⟨false, false, acc ++ [c], p⟩ := by
  have h0 : c ≠ 0 := fun h => hstop (Or.inr (Or.inr (Or.inr (Or.inr h))))
  unfold StopsToken at hstop
  rw [plainStep, charAt_cons_zero, if_neg hstop, if_neg hd, if_neg hs, advance_cons h0]

theorem not_stopsToken_of_plain {c : UInt8} (hs : isspace c = false) (h0 : c ≠ 0) :
    ¬ StopsToken c := by
  rintro (rfl | rfl | rfl | rfl | rfl)
  · cases hs
  · cases hs
  · cases hs
  · cases hs
  · exact h0 rfl

/-- The loop takes in a word byte by byte. -/
theorem readToken_word {rest : List UInt8} (w : List UInt8) :
    ∀ (fuel : Nat) (acc : List UInt8),
      (∀ c ∈ w, isspace c = false ∧ c ≠ 0 ∧ c ≠ dquote ∧ c ≠ squote) →
      readToken (fuel + w.length) ⟨false, false, acc, w ++ rest⟩ =
        readToken fuel ⟨false, false, acc ++ w, rest⟩ := by
  induction w with
  | nil =>
      intro fuel acc _
      rw [List.append_nil]
      rfl
  | cons c w ih =>
      intro fuel acc hw
      obtain ⟨hs, h0, hd, hq⟩ := hw c List.mem_cons_self
      have hstep : tokenStep ⟨false, false, acc, c :: (w ++ rest)⟩ =
          .next ⟨false, false, acc ++ [c], w ++ rest⟩ :=
        plainStep_keeps (not_stopsToken_of_plain hs h0) hd hq
      have hrest := ih fuel (acc ++ [c]) fun d hd => hw d (List.mem_cons_of_mem _ hd)
      rw [List.cons_append, List.length_cons, ← Nat.add_assoc, readToken, hstep]
      rw [List.append_assoc] at hrest
      exact hrest

/-- Behind a word comes nothing, or a character at which the token ends. -/
def StopsAt (rest : List UInt8) : Prop := rest = [] ∨ ∃ c p, rest = c :: p ∧ StopsToken c ∧ c ≠ 0

theorem plainStep_stops {acc rest : List UInt8} (h : StopsAt rest) :
    plainStep acc rest = .done acc (rest.drop 1) := by
  rcases h with rfl | ⟨c, p, rfl, hstop, h0⟩
  · rfl
  · unfold StopsToken at hstop
    rw [plainStep, charAt_cons_zero, if_pos hstop, advance_cons h0]
    rfl

section Turn

variable {lead w rest : List UInt8}

theorem skipBlanks_lead (hlead : IsBlanks lead) (hw : IsWord w) :
    skipBlanks (lead ++ (w ++ rest)) = w ++ rest ∧ charAt (w ++ rest) 0 ≠ 0 := by
  obtain ⟨c, t, rfl⟩ := List.exists_cons_of_ne_nil hw.ne_nil
  obtain ⟨hs, h0, -, -⟩ := hw.plain c List.mem_cons_self
  refine ⟨?_, h0⟩
  rw [skipBlanks_append hlead, List.cons_append, skipBlanks, if_neg]
  rintro ⟨-, h⟩
  rw [hs] at h
  cases h

/-- A turn of the outer loop on blanks and a word that ends where the loop sees it. -/
theorem splitLoop_word (hlead : IsBlanks lead) (hw : IsWord w) (hrest : StopsAt rest)
    (fuel argc : Nat) (vector : List (List UInt8)) :
    splitLoop (fuel + 1) (lead ++ (w ++ rest)) argc vector =
      if vectorSize argc ≤ PTRDIFF_MAX then splitLoop fuel (rest.drop 1) (argc + 1) (vector ++ [w])
      else .error .outOfMemory := by
  obtain ⟨hskip, hchar⟩ := @skipBlanks_lead lead w rest hlead hw
  have hread : readToken ((w ++ rest).length + 1) ⟨false, false, [], w ++ rest⟩ =
      .ok (some (w, rest.drop 1)) := by
    have hstep : tokenStep ⟨false, false, w, rest⟩ = .done w (rest.drop 1) := plainStep_stops hrest
    rw [List.length_append, Nat.add_comm w.length, Nat.add_right_comm,
      readToken_word w (rest.length + 1) [] hw.plain, List.nil_append, readToken, hstep]
    rfl
  rw [splitLoop, hskip, if_pos hchar, hread, ok_bind]
  by_cases hsize : vectorSize argc ≤ PTRDIFF_MAX
  · rw [if_pos hsize]
    exact if_pos hsize
  · rw [if_neg hsize]
    exact if_neg hsize

end Turn

/-! ## What has been read stays -/

theorem tokenStep_grows {t t' : Token} (h : tokenStep t = .next t') : t.current <+: t'.current := by
  unfold tokenStep quotedStep singleQuotedStep plainStep closeQuote at h
  split_ifs at h <;> cases h <;> first | exact List.prefix_append .. | exact List.prefix_rfl

theorem tokenStep_current {t : Token} {cur p : List UInt8} (h : tokenStep t = .done cur p) :
    cur = t.current := by
  unfold tokenStep quotedStep singleQuotedStep plainStep closeQuote at h
  split_ifs at h <;> cases h <;> rfl

/-- A token begins with what has been read of it. -/
theorem readToken_grows {cur p : List UInt8} :
    ∀ (fuel : Nat) (t : Token), readToken fuel t = .ok (some (cur, p)) → t.current <+: cur := by
  intro fuel
  induction fuel with
  | zero =>
      intro t h
      cases h
  | succ fuel ih =>
      intro t h
      rw [readToken] at h
      cases hstep : tokenStep t with
      | next t' =>
          rw [hstep] at h
          exact (tokenStep_grows hstep).trans (ih t' h)
      | done cur' p' =>
          rw [hstep] at h
          cases h
          rw [tokenStep_current hstep]
      | err =>
          rw [hstep] at h
          cases h

/-- The vector begins with the tokens read so far. -/
theorem splitLoop_grows {n : Nat} {vec : List (List UInt8)} :
    ∀ (fuel : Nat) (p : List UInt8) (argc : Nat) (vector : List (List UInt8)),
      splitLoop fuel p argc vector = .ok (some (n, vec)) → vector <+: vec := by
  intro fuel
  induction fuel with
  | zero =>
      intro p argc vector h
      cases h
  | succ fuel ih =>
      intro p argc vector h
      rw [splitLoop] at h
      by_cases h0 : charAt (skipBlanks p) 0 ≠ 0
      · rw [if_pos h0] at h
        cases hread : readToken ((skipBlanks p).length + 1) ⟨false, false, [], skipBlanks p⟩ with
        | error e =>
            rw [hread] at h
            cases h
        | ok r =>
            rw [hread, ok_bind] at h
            cases r with
            | none => cases h
            | some r =>
                by_cases hsize : vectorSize argc ≤ PTRDIFF_MAX
                · have hrest := (if_pos hsize).symm.trans h
                  exact (List.prefix_append vector [r.1]).trans (ih _ _ _ hrest)
                · have hrest := (if_neg hsize).symm.trans h
                  cases hrest
      · rw [if_neg h0] at h
        cases h
        exact List.prefix_rfl

/-! ## Lines -/

section Line

variable {lead w sep more : List UInt8}

theorem IsBlanks.drop (h : IsBlanks sep) (n : Nat) : IsBlanks (sep.drop n) :=
  fun c hc => h c (List.mem_of_mem_drop hc)

/-- A turn on a word whose blanks begin with one of the list. -/
theorem splitLoop_ended (hlead : IsBlanks lead) (hw : IsWord w) (hsep : IsBlanks sep)
    (hmore : sep = [] → more = []) (hends : EndsWord sep) (fuel argc : Nat)
    (vector : List (List UInt8)) :
    splitLoop (fuel + 1) (lead ++ (w ++ sep ++ more)) argc vector =
      if vectorSize argc ≤ PTRDIFF_MAX then
        splitLoop fuel (sep.drop 1 ++ more) (argc + 1) (vector ++ [w])
      else .error .outOfMemory := by
  rw [List.append_assoc w]
  cases sep with
  | nil =>
      rw [hmore rfl]
      exact splitLoop_word hlead hw (Or.inl rfl) fuel argc vector
  | cons c sep =>
      have hstop : StopsToken c := by
        rcases isspace_cases (hsep c List.mem_cons_self) with h | rfl | rfl
        · exact h
        · exact absurd rfl hends.1
        · exact absurd rfl hends.2
      have h0 := ne_zero_of_isspace (hsep c List.mem_cons_self)
      exact splitLoop_word hlead hw (Or.inr ⟨c, sep ++ more, rfl, hstop, h0⟩) fuel argc vector

/-- A turn on a word with a vertical tab or a form feed behind it: the token that is added, if any,
goes on behind the word. -/
theorem splitLoop_overrun {c : UInt8} {n : Nat} {vec : List (List UInt8)} (hlead : IsBlanks lead)
    (hw : IsWord w) (hc : c = verticalTab ∨ c = formFeed) {fuel argc : Nat}
    {vector : List (List UInt8)}
    (h : splitLoop (fuel + 1) (lead ++ (w ++ c :: more)) argc vector = .ok (some (n, vec))) :
    ∃ cur, w ++ [c] <+: cur ∧ vector ++ [cur] <+: vec := by
  obtain ⟨hskip, hchar⟩ := @skipBlanks_lead lead w (c :: more) hlead hw
  -- the character is taken into the token
  have hstep : tokenStep ⟨false, false, w, c :: more⟩ = .next ⟨false, false, w ++ [c], more⟩ := by
    apply plainStep_keeps
    · rcases hc with rfl | rfl <;> unfold StopsToken <;> decide
    · rcases hc with rfl | rfl <;> decide
    · rcases hc with rfl | rfl <;> decide
  have hread : readToken ((w ++ c :: more).length + 1) ⟨false, false, [], w ++ c :: more⟩ =
      readToken (more.length + 1) ⟨false, false, w ++ [c], more⟩ := by
    have hlen : (w ++ c :: more).length + 1 = more.length + 1 + 1 + w.length := by
      rw [List.length_append, List.length_cons]
      omega
    rw [hlen, readToken_word w (more.length + 1 + 1) [] hw.plain, List.nil_append, readToken, hstep]
  rw [splitLoop, hskip, if_pos hchar, hread] at h
  cases hr : readToken (more.length + 1) ⟨false, false, w ++ [c], more⟩ with
  | error e =>
      rw [hr] at h
      cases h
  | ok r =>
      rw [hr, ok_bind] at h
      cases r with
      | none => cases h
      | some r =>
          by_cases hsize : vectorSize argc ≤ PTRDIFF_MAX
          · have hrest := (if_pos hsize).symm.trans h
            exact ⟨r.1, readToken_grows _ _ hr, splitLoop_grows _ _ _ _ hrest⟩
          · have hrest := (if_neg hsize).symm.trans h
            cases hrest

/-- With such a blank behind its first word a line is not split into its words. -/
theorem splitLoop_ne_of_not_endsWord {n : Nat} {words : List (List UInt8)} (hlead : IsBlanks lead)
    (hw : IsWord w) (hends : ¬ EndsWord sep) (fuel argc : Nat) (vector : List (List UInt8)) :
    splitLoop (fuel + 1) (lead ++ (w ++ sep ++ more)) argc vector ≠
      .ok (some (n, vector ++ w :: words)) := by
  intro h
  cases sep with
  | nil => exact hends ⟨nofun, nofun⟩
  | cons c sep =>
      have hc : c = verticalTab ∨ c = formFeed := by
        by_contra hc
        rw [not_or] at hc
        exact hends ⟨fun h => hc.1 (Option.some.inj h), fun h => hc.2 (Option.some.inj h)⟩
      rw [List.append_assoc w] at h
      obtain ⟨cur, hcur, hvec⟩ := splitLoop_overrun hlead hw hc h
      -- the token at the word's place is longer than the word
      obtain ⟨u, hu⟩ := hvec
      rw [List.append_assoc, List.append_cancel_left_eq, List.singleton_append,
        List.cons.injEq] at hu
      rw [hu.1] at hcur
      have hlen := hcur.length_le
      rw [List.length_append, List.length_singleton] at hlen
      omega

theorem splitLoop_spaced_iff {items : List (List UInt8 × List UInt8)} (h : Spaced items) :
    ∀ (lead : List UInt8) (fuel argc : Nat) (vector : List (List UInt8)), IsBlanks lead →
      items.length < fuel → argc ≤ INT_MAX →
      (splitLoop fuel (lead ++ spacedText items) argc vector =
          .ok (some (argc + items.length, vector ++ items.map Prod.fst)) ↔
        (∀ x ∈ items, EndsWord x.2) ∧ argc + items.length ≤ INT_MAX) := by
  induction h with
  | @last w sep hw hsep =>
      intro lead fuel argc vector hlead hfuel hargc
      obtain ⟨n, rfl⟩ := Nat.exists_eq_add_of_lt hfuel
      have htext : spacedText [(w, sep)] = w ++ sep ++ [] := rfl
      rw [htext, List.forall_mem_singleton, List.length_singleton]
      by_cases hends : EndsWord sep
      · rw [splitLoop_ended hlead hw hsep (fun _ => rfl) hends, Nat.add_comm 1 n, List.append_nil]
        by_cases hlt : argc < INT_MAX
        · rw [if_pos (vectorSize_le hlt), splitLoop_nil n (argc + 1) _ (hsep.drop 1)]
          exact iff_of_true rfl ⟨hends, hlt⟩
        · have hmax : argc = INT_MAX := by omega
          rw [hmax, if_neg vectorSize_gt]
          exact iff_of_false nofun fun hcov => Nat.not_succ_le_self INT_MAX hcov.2
      · exact iff_of_false (splitLoop_ne_of_not_endsWord hlead hw hends _ argc vector)
          fun hcov => hends hcov.1
  | @cons w sep items hw hsep hne h ih =>
      intro lead fuel argc vector hlead hfuel hargc
      obtain ⟨n, rfl⟩ := Nat.exists_eq_add_of_lt hfuel
      have htext : spacedText ((w, sep) :: items) = w ++ sep ++ spacedText items := rfl
      have hsum : argc + ((w, sep) :: items).length = argc + 1 + items.length := by
        rw [List.length_cons]
        omega
      rw [htext, List.forall_mem_cons, hsum]
      by_cases hends : EndsWord sep
      · rw [splitLoop_ended hlead hw hsep (fun he => absurd he hne) hends]
        by_cases hlt : argc < INT_MAX
        · have hrest := ih (sep.drop 1) (items.length + 1 + n) (argc + 1) (vector ++ [w])
            (hsep.drop 1) (by omega) hlt
          rw [List.append_assoc vector, List.singleton_append] at hrest
          rw [if_pos (vectorSize_le hlt)]
          exact hrest.trans (and_congr_left' (and_iff_right hends).symm)
        · have hmax : argc = INT_MAX := by omega
          rw [hmax, if_neg vectorSize_gt]
          exact iff_of_false nofun fun hcov => by omega
      · exact iff_of_false (splitLoop_ne_of_not_endsWord hlead hw hends _ argc vector)
          fun hcov => hends hcov.1.1

theorem Spaced.length_le {items : List (List UInt8 × List UInt8)} (h : Spaced items) :
    items.length ≤ (spacedText items).length := by
  induction h with
  | @last w sep hw _ =>
      have hpos := List.length_pos_of_ne_nil hw.ne_nil
      have htext : spacedText [(w, sep)] = w ++ sep ++ [] := rfl
      rw [htext, List.length_append, List.length_append, List.length_singleton]
      omega
  | @cons w sep items hw _ _ _ ih =>
      have hpos := List.length_pos_of_ne_nil hw.ne_nil
      have htext : spacedText ((w, sep) :: items) = w ++ sep ++ spacedText items := rfl
      rw [htext, List.length_append, List.length_append, List.length_cons]
      omega

end Line

/-- A line of words is split into the words exactly when no blanks directly behind a word begin with
a vertical tab or a form feed and the number of words is an `int`. -/
theorem sdssplitargs_words_iff {lead : List UInt8} {items : List (List UInt8 × List UInt8)}
    (hlead : IsBlanks lead) (h : Spaced items) :
    sdssplitargs (lead ++ spacedText items) = .ok (some (items.length, items.map Prod.fst)) ↔
      (∀ x ∈ items, EndsWord x.2) ∧ items.length ≤ INT_MAX := by
  have hle := h.length_le
  have hloop := splitLoop_spaced_iff h lead ((lead ++ spacedText items).length + 1) 0 [] hlead
    (by rw [List.length_append]; omega) (Nat.zero_le _)
  rw [Nat.zero_add] at hloop
  exact hloop

theorem isWord_singleton {c : UInt8}
    (hc : isspace c = false ∧ c ≠ 0 ∧ c ≠ dquote ∧ c ≠ squote) : IsWord [c] :=
  ⟨List.cons_ne_nil c [], List.forall_mem_singleton.mpr hc⟩

/-- A vertical tab behind a space ends no token and does no harm. -/
theorem sdssplitargs_words_iff_two :
    (IsBlanks [] ∧ Spaced [([97], [32, 11]), ([98], [])]) ∧
      (sdssplitargs ([] ++ spacedText [([97], [32, 11]), ([98], [])]) =
          .ok (some (2, [[97], [98]])) ↔
        (∀ x ∈ [(([97] : List UInt8), ([32, 11] : List UInt8)), ([98], [])], EndsWord x.2) ∧
          2 ≤ INT_MAX) := by
  have hlead : IsBlanks [] := nofun
  have hsep : IsBlanks [32, 11] := List.forall_mem_cons.mpr ⟨rfl, List.forall_mem_singleton.mpr rfl⟩
  have h : Spaced [([97], [32, 11]), ([98], [])] :=
    .cons (isWord_singleton (by decide)) hsep (by decide)
      (.last (isWord_singleton (by decide)) nofun)
  exact ⟨⟨hlead, h⟩, sdssplitargs_words_iff hlead h⟩

/-- Two words with a vertical tab between them are read as one. -/
theorem vertical_tab_joins :
    (IsBlanks [] ∧ Spaced [([97], [11]), ([98], [])]) ∧
      sdssplitargs ([] ++ spacedText [([97], [11]), ([98], [])]) = .ok (some (1, [[97, 11, 98]])) ∧
      sdssplitargs ([] ++ spacedText [([97], [11]), ([98], [])]) ≠
        .ok (some (2, [[97], [98]])) := by
  refine ⟨⟨nofun, ?_⟩, by rfl, by decide⟩
  exact .cons (isWord_singleton (by decide)) (List.forall_mem_singleton.mpr rfl) (by decide)
    (.last (isWord_singleton (by decide)) nofun)

end CLanguageLearning.Sds
