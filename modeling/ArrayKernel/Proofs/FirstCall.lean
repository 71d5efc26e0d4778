import ArrayKernel.Proofs.CallNames

/-!
# The first call of a name

The search for calls of a name finds the first one: the text in front of it does not
call the name, and a text in which nothing is found does not call the name at all.

The calls of two texts that are put together are the calls of the first and the calls
of the second, if the first ends outside words, or if neither a word goes on nor a
parenthesis opens behind it.  Otherwise they need NOT be: the end of the first text and
the start of the second can be a call together.
-/

namespace ArrayKernel

namespace Text

/-- Neither a word goes on nor a call begins at the start of the text. -/
def Detached (t : Text) : Prop := ∀ c, t.head? = some c → isWordChar c = false ∧ c ≠ '('

/-- No word and no call extends from the first text into the second. -/
def Parted (s t : Text) : Prop := endsInWord s = false ∨ Detached t

theorem detached_nil : Detached [] := by
  intro c hc
  cases hc

theorem detached_cons {c : Char} (hc : isWordChar c = false) (hOpen : c ≠ '(') (t : Text) :
    Detached (c :: t) := by
  intro d hd
  obtain rfl := Option.some.inj hd
  exact ⟨hc, hOpen⟩

theorem Detached.append {s t : Text} (hs : Detached s) (ht : Detached t) : Detached (s ++ t) := by
  cases s with
  | nil => exact ht
  | cons c s => exact hs

/-! ## Texts by their words -/

/-- A text is a word, or a word, a character outside words and a text. -/
@[elab_as_elim]
theorem word_induction {motive : Text → Prop}
    (word : ∀ w : Text, w.all isWordChar = true → motive w)
    (step : ∀ (w : Text) (c : Char) (t : Text), w.all isWordChar = true → isWordChar c = false →
      motive t → motive (w ++ c :: t)) (t : Text) : motive t := by
  induction hn : t.length using Nat.strongRecOn generalizing t with
  | ind n ih =>
      have hWord : (t.takeWhile isWordChar).all isWordChar = true := List.all_takeWhile
      have hText := List.takeWhile_append_dropWhile (p := isWordChar) (l := t)
      cases hRest : t.dropWhile isWordChar with
      | nil =>
          rw [hRest, List.append_nil] at hText
          rw [← hText]
          exact word _ hWord
      | cons c rest =>
          have hc : isWordChar c = false := by
            have hHead := List.head?_dropWhile_not isWordChar t
            rw [hRest] at hHead
            simpa using hHead
          rw [hRest] at hText
          have hLength := congrArg List.length hText
          simp only [List.length_append, List.length_cons] at hLength
          rw [← hText]
          exact step _ c rest hWord hc (ih rest.length (by omega) rest rfl)

theorem eq_nil_of_endsInWord {w : Text} (hw : w.all isWordChar = true)
    (h : endsInWord w = false) : w = [] := by
  cases hLast : w.getLast? with
  | none => exact List.getLast?_eq_none_iff.mp hLast
  | some c =>
      have hc := List.all_eq_true.mp hw c (List.mem_of_getLast? hLast)
      simp [endsInWord, hLast, hc] at h

theorem endsInWord_append {s t : Text} (ht : t ≠ []) : endsInWord (s ++ t) = endsInWord t := by
  unfold endsInWord
  rw [List.getLast?_append, List.getLast?_eq_some_getLast ht]
  rfl

theorem endsInWord_append_cons {c : Char} (hc : isWordChar c = false) (s t : Text) :
    endsInWord (s ++ c :: t) = endsInWord t := by
  cases t with
  | nil => simp [endsInWord, hc]
  | cons d t =>
      rw [endsInWord_append (List.cons_ne_nil c (d :: t)),
        ← List.singleton_append, endsInWord_append (List.cons_ne_nil d t)]

theorem callNames_pieces_word {w : Text} (h : w.all isWordChar = true) :
    callNames (pieces w) = [] := by
  by_cases hNil : w = []
  · rw [hNil]
    rfl
  · rw [pieces_word hNil h]
    rfl

/-- The word at the start of a text is called if a parenthesis follows it. -/
theorem callNames_word_append {w : Text} (hw : w.all isWordChar = true) {c : Char}
    (hc : isWordChar c = false) (t : Text) :
    callNames (pieces (w ++ c :: t)) =
      (if w ≠ [] ∧ c = '(' then [w] else []) ++ callNames (pieces t) := by
  rw [pieces_append (by simpa using hc), pieces_cons_other hc]
  by_cases hOpen : c = '('
  · subst hOpen
    by_cases hNil : w = []
    · simp [hNil, pieces]
    · rw [pieces_word hNil hw, if_pos ⟨hNil, rfl⟩]
      rfl
  · rw [callNames_append_other hOpen, callNames_pieces_word hw, if_neg fun h => hOpen h.2]

theorem callNames_append {s t : Text} (h : Parted s t) :
    callNames (pieces (s ++ t)) = callNames (pieces s) ++ callNames (pieces t) := by
  rcases h with hEnds | hDetached
  · induction s using word_induction with
    | word w hw =>
        rw [eq_nil_of_endsInWord hw hEnds]
        rfl
    | step w c s hw hc ih =>
        rw [endsInWord_append_cons hc] at hEnds
        rw [List.append_assoc, List.cons_append, callNames_word_append hw hc, ih hEnds,
          callNames_word_append hw hc, List.append_assoc]
  · cases t with
    | nil => simp [pieces]
    | cons c t =>
        obtain ⟨hc, hOpen⟩ := hDetached c rfl
        rw [pieces_append (by simpa using hc), pieces_cons_other hc, callNames_append_other hOpen,
          callNames_cons_other]

/-- Where a name is called there is a first call of it. -/
theorem exists_first_call {name t : Text} (h : name ∈ callNames (pieces t)) :
    ∃ before after, t = before ++ name ++ '(' :: after ∧ endsInWord before = false ∧
      name ∉ callNames (pieces before) := by
  induction t using word_induction with
  | word w hw =>
      rw [callNames_pieces_word hw] at h
      exact absurd h List.not_mem_nil
  | step w c t hw hc ih =>
      rw [callNames_word_append hw hc] at h
      by_cases hHere : w ≠ [] ∧ c = '(' ∧ w = name
      · obtain ⟨-, rfl, rfl⟩ := hHere
        exact ⟨[], t, rfl, rfl, List.not_mem_nil⟩
      · have hNot : name ∉ (if w ≠ [] ∧ c = '(' then [w] else []) := by
          intro hMem
          split at hMem
          · next hCall => exact hHere ⟨hCall.1, hCall.2, (List.mem_singleton.mp hMem).symm⟩
          · exact absurd hMem List.not_mem_nil
        obtain ⟨before, after, rfl, hEnds, hFirst⟩ := ih ((List.mem_append.mp h).resolve_left hNot)
        refine ⟨w ++ c :: before, after, by simp, ?_, ?_⟩
        · rw [endsInWord_append_cons hc, hEnds]
        · rw [callNames_word_append hw hc]
          exact fun hMem => (List.mem_append.mp hMem).elim hNot hFirst

/-! ## Occurrences of a word -/

/-- A name that occurs is found, no later than it occurs. -/
theorem exists_cut? {name : Text} (hne : name ≠ []) (gap rest : Text) :
    ∃ early after, cut? name (gap ++ (name ++ rest)) = some (early, after) ∧
      early.length ≤ gap.length := by
  induction gap with
  | nil =>
      obtain ⟨c, name, rfl⟩ := List.exists_cons_of_ne_nil hne
      have hPrefix : (c :: name).isPrefixOf (c :: (name ++ rest)) = true :=
        List.isPrefixOf_iff_prefix.mpr (List.prefix_append (c :: name) rest)
      refine ⟨[], rest, ?_, Nat.le_refl 0⟩
      show cut? (c :: name) (c :: (name ++ rest)) = _
      rw [cut?, if_pos hPrefix]
      simp
  | cons c gap ih =>
      obtain ⟨early, after, hCut, hLength⟩ := ih
      rw [List.cons_append, cut?]
      split
      · exact ⟨_, _, rfl, Nat.zero_le _⟩
      · rw [hCut]
        exact ⟨_, _, rfl, Nat.succ_le_succ hLength⟩

/-- Two occurrences of a word, one of them behind a text that ends outside words, are the
same or lie apart. -/
theorem occurrences_apart {name early after gap rest : Text} (hall : name.all isWordChar = true)
    (hEq : early ++ (name ++ after) = gap ++ (name ++ rest)) (hLength : early.length ≤ gap.length)
    (hEnds : gap ≠ [] → endsInWord gap = false) :
    (early = gap ∧ after = rest) ∨
      ∃ further, gap = early ++ (name ++ further) ∧ after = further ++ (name ++ rest) := by
  rcases List.append_eq_append_iff.mp hEq with ⟨middle, hGap, hBehind⟩ | ⟨middle, hEarly, hBehind⟩
  · by_cases hNil : middle = []
    · subst hNil
      rw [List.append_nil] at hGap
      exact .inl ⟨hGap.symm, List.append_cancel_left hBehind⟩
    · -- what is left of the gap ends outside words, so the word has to end within it
      have hMiddle : endsInWord middle = false := by
        have hne : gap ≠ [] := by simp [hGap, hNil]
        rw [← endsInWord_append (s := early) hNil, ← hGap]
        exact hEnds hne
      rcases List.append_eq_append_iff.mp hBehind with
        ⟨further, hFurther, hAfter⟩ | ⟨overlap, hName, -⟩
      · exact .inr ⟨further, by rw [hGap, hFurther], hAfter⟩
      · rw [hName, List.all_append, Bool.and_eq_true] at hall
        exact absurd (eq_nil_of_endsInWord hall.1 hMiddle) hNil
  · have hNil : middle = [] := by
      rw [hEarly, List.length_append] at hLength
      exact List.eq_nil_of_length_eq_zero (by omega)
    subst hNil
    rw [List.append_nil] at hEarly
    exact .inl ⟨hEarly, (List.append_cancel_left hBehind).symm⟩

end Text

namespace CallSearch

variable {name : Text}

/-- An occurrence is a call if it is a whole word before a parenthesis. -/
theorem step_of_cut? {s : CallSearch} {gap after : Text}
    (hCut : Text.cut? name s.ahead = some (gap, after)) :
    (∃ inside, after = '(' :: inside ∧ Text.endsInWord (s.passed ++ gap) = false ∧
        step name s = .call (s.passed ++ gap) inside) ∨
      ((∀ inside, after = '(' :: inside → Text.endsInWord (s.passed ++ gap) = true) ∧
        step name s = .onward ⟨s.passed ++ gap ++ name, after⟩) := by
  unfold step
  rw [hCut]
  dsimp only
  split
  · next inside hEnds => exact .inl ⟨inside, rfl, hEnds, rfl⟩
  · next hNot =>
    refine .inr ⟨fun inside hAfter => ?_, rfl⟩
    cases hEnds : Text.endsInWord (s.passed ++ gap) with
    | true => rfl
    | false => exact absurd hAfter (hNot inside hEnds)

/-- A search reaches the first call that is ahead. -/
theorem run_eq_first_call (hne : name ≠ []) (hall : name.all Text.isWordChar = true)
    {passed gap after : Text} (hEnds : Text.endsInWord (passed ++ gap) = false)
    (hFirst : name ∉ Text.callNames (Text.pieces (passed ++ gap))) :
    run name ⟨passed, gap ++ (name ++ '(' :: after)⟩ = .call (passed ++ gap) after := by
  induction hn : gap.length using Nat.strongRecOn generalizing passed gap with
  | ind n ih =>
      obtain ⟨early, behind, hCut, hLength⟩ := Text.exists_cut? hne gap ('(' :: after)
      have hText := Text.cut?_eq_some hCut
      rw [List.append_assoc] at hText
      have hGap : gap ≠ [] → Text.endsInWord gap = false := by
        intro hNil
        rwa [Text.endsInWord_append hNil] at hEnds
      rw [run]
      rcases Text.occurrences_apart hall hText.symm hLength hGap with
        ⟨rfl, rfl⟩ | ⟨further, rfl, rfl⟩
      · rcases step_of_cut? (s := ⟨passed, _⟩) hCut with ⟨inside, hInside, -, hStep⟩ | ⟨hNot, -⟩
        · obtain rfl := (List.cons.inj hInside).2
          rw [hStep]
        · rw [hNot after rfl] at hEnds
          cases hEnds
      · rcases step_of_cut? (s := ⟨passed, _⟩) hCut with ⟨inside, hInside, hCall, -⟩ | ⟨-, hStep⟩
        · -- an earlier call would be a call in the text that has none
          refine absurd ?_ hFirst
          cases further with
          | nil =>
              rw [List.append_nil, ← List.append_assoc, Text.endsInWord_append hne] at hEnds
              exact absurd (Text.eq_nil_of_endsInWord hall hEnds) hne
          | cons c rest =>
              obtain rfl := (List.cons.inj hInside).1
              have hCalled : passed ++ (early ++ (name ++ '(' :: rest)) =
                  passed ++ early ++ name ++ '(' :: rest := by
                simp
              exact Text.mem_callNames_of_eq hCalled hCall hne hall
        · have hShorter := length_ahead_lt_of_step_eq_onward hne hStep
          rw [hStep]
          dsimp only
          rw [if_pos hShorter]
          have hSame : passed ++ (early ++ (name ++ further)) =
              passed ++ early ++ name ++ further := by
            simp
          have hPos := List.length_pos_iff.mpr hne
          rw [hSame] at hEnds hFirst ⊢
          refine ih further.length ?_ hEnds hFirst rfl
          simp only [List.length_append] at hn
          omega

/-- What is found is the first call. -/
theorem find_eq_call_iff (hName : Text.isIdentifier name = true) {text before after : Text} :
    find name text = .call before after ↔
      text = before ++ name ++ '(' :: after ∧ Text.endsInWord before = false ∧
        name ∉ Text.callNames (Text.pieces before) := by
  have hne := Text.ne_nil_of_isIdentifier hName
  have hall := Text.all_isWordChar_of_isIdentifier hName
  have hFound {before after : Text} (hEnds : Text.endsInWord before = false)
      (hFirst : name ∉ Text.callNames (Text.pieces before)) :
      find name (before ++ name ++ '(' :: after) = .call before after := by
    rw [List.append_assoc]
    exact @run_eq_first_call name hne hall [] before after hEnds hFirst
  constructor
  · intro hFind
    have hText := find_eq_call hFind
    have hEnds := run_eq_call_endsInWord hFind
    obtain ⟨early, late, hFirstText, hEarly, hFirst⟩ :=
      Text.exists_first_call (Text.mem_callNames_of_eq hText hEnds hne hall)
    rw [hFirstText, hFound hEarly hFirst] at hFind
    obtain ⟨rfl, rfl⟩ := Outcome.call.inj hFind
    exact ⟨hText, hEnds, hFirst⟩
  · rintro ⟨rfl, hEnds, hFirst⟩
    exact hFound hEnds hFirst

end CallSearch
end ArrayKernel
