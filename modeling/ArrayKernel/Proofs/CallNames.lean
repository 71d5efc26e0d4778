import ArrayKernel.Helper.Call
import ArrayKernel.Proofs.Identifier

/-!
# The names that a text calls

A text calls a name where the name is a whole word before an opening parenthesis.
The search for calls of a name finds one only if the text calls the name, and it
ends for every name that is not empty.
-/

namespace ArrayKernel

namespace Text

/-- The calls in a text, in order: a word before an opening parenthesis, and the text
behind the parenthesis. -/
def callSites : List Piece → List (Text × Text)
  | .word w :: .other '(' :: ps => (w, ps.flatMap Piece.text) :: callSites ps
  | _ :: ps => callSites ps
  | [] => []

/-- The names that are called, in order. -/
def callNames (ps : List Piece) : List Text := (callSites ps).map Prod.fst

@[simp] theorem callSites_cons_other (c : Char) (ps : List Piece) :
    callSites (.other c :: ps) = callSites ps := rfl

@[simp] theorem callNames_cons_other (c : Char) (ps : List Piece) :
    callNames (.other c :: ps) = callNames ps := rfl

@[simp] theorem callNames_nil : callNames [] = [] := rfl

@[simp] theorem callNames_word (w : Text) : callNames [.word w] = [] := rfl

theorem pieces_ne_nil {t : Text} (h : t ≠ []) : pieces t ≠ [] := by
  intro hNil
  have hText := flatMap_text_pieces t
  rw [hNil] at hText
  exact h hText.symm

/-- A text is cut where no word has begun. -/
theorem pieces_append_of_endsInWord {s : Text} (h : endsInWord s = false) (t : Text) :
    pieces (s ++ t) = pieces s ++ pieces t := by
  induction s with
  | nil => rfl
  | cons c s ih =>
      cases s with
      | nil =>
          have hc : isWordChar c = false := by simpa [endsInWord] using h
          rw [List.cons_append, pieces_cons_other hc, pieces_cons_other hc]
          rfl
      | cons d s =>
          have hRest : endsInWord (d :: s) = false := by simpa [endsInWord] using h
          rw [List.cons_append, pieces, pieces, ih hRest]
          split
          · cases hPieces : pieces (d :: s) with
            | nil => exact absurd hPieces (pieces_ne_nil (List.cons_ne_nil d s))
            | cons p ps => cases p <;> rfl
          · rfl

theorem mem_callSites_append {w : Text} {ps qs : List Piece} :
    (w, qs.flatMap Piece.text) ∈ callSites (ps ++ .word w :: .other '(' :: qs) := by
  fun_induction callSites ps with
  | case1 v ps ih =>
      simp only [List.cons_append, callSites]
      exact .tail _ ih
  | case2 p ps hNot ih =>
      cases ps with
      | nil =>
          cases p with
          | other c => simp [callSites]
          | word v => simp [callSites]
      | cons q ps =>
          rw [List.cons_append, callSites]
          · exact ih
          · intro v rest hp hRest
            rw [List.cons_append] at hRest
            injection hRest with hq _
            exact hNot v ps hp (by rw [hq])
  | case3 => exact .head _

/-- A whole word before an opening parenthesis is called. -/
theorem mem_callNames_of_eq {t before name after : Text} (ht : t = before ++ name ++ '(' :: after)
    (hBefore : endsInWord before = false) (hne : name ≠ []) (hall : name.all isWordChar = true) :
    name ∈ callNames (pieces t) := by
  have hPieces : pieces t = pieces before ++ .word name :: .other '(' :: pieces after := by
    rw [ht, List.append_assoc, pieces_append_of_endsInWord hBefore,
      pieces_append (by exact rfl), pieces_word hne hall, pieces_cons_other (by decide)]
    rfl
  rw [hPieces]
  exact List.mem_map.mpr ⟨_, mem_callSites_append, rfl⟩

/-- What follows a character that opens no call is the end of the text behind every call
before it. -/
theorem callSites_append_other {c : Char} (hc : c ≠ '(') (ps qs : List Piece) :
    callSites (ps ++ .other c :: qs) =
      (callSites ps).map (fun call => (call.1, call.2 ++ c :: qs.flatMap Piece.text)) ++
        callSites qs := by
  fun_induction callSites ps with
  | case1 v ps ih =>
      have hBehind : (ps ++ .other c :: qs).flatMap Piece.text =
          ps.flatMap Piece.text ++ c :: qs.flatMap Piece.text := by
        rw [List.flatMap_append]
        rfl
      simp only [List.cons_append, callSites, ih, hBehind, List.map_cons]
  | case2 p ps hNot ih =>
      cases ps with
      | nil =>
          cases p with
          | other d => simp [callSites]
          | word v =>
              rw [List.cons_append, List.nil_append, callSites]
              · simp [callSites]
              · intro w rest _ hRest
                injection hRest with hOther _
                injection hOther with hChar
                exact hc hChar
      | cons q ps =>
          rw [List.cons_append, callSites]
          · exact ih
          · intro v rest hp hRest
            rw [List.cons_append] at hRest
            injection hRest with hq _
            exact hNot v ps hp (by rw [hq])
  | case3 => simp

theorem callNames_append_other {c : Char} (hc : c ≠ '(') (ps qs : List Piece) :
    callNames (ps ++ .other c :: qs) = callNames ps ++ callNames qs := by
  simp [callNames, callSites_append_other hc]

end Text

namespace CallSearch

theorem step_eq_call_endsInWord {name : Text} {s : CallSearch} {before after : Text}
    (h : step name s = .call before after) : Text.endsInWord before = false := by
  unfold step at h
  split at h
  · exact nomatch h
  · dsimp only at h
    split at h
    · next hEnds _ =>
      cases h
      exact hEnds
    · exact nomatch h

/-- What a search finds is no part of a longer word. -/
theorem run_eq_call_endsInWord {name : Text} {s : CallSearch} {before after : Text}
    (h : run name s = .call before after) : Text.endsInWord before = false := by
  fun_induction run name s with
  | case1 s before' after' hs =>
      cases h
      exact step_eq_call_endsInWord hs
  | case2 => cases h
  | case3 s next hs _ ih => exact ih h
  | case4 => cases h

/-- A step over a name that is not empty leaves less text ahead. -/
theorem length_ahead_lt_of_step_eq_onward {name : Text} (hne : name ≠ []) {s next : CallSearch}
    (h : step name s = .onward next) : next.ahead.length < s.ahead.length := by
  unfold step at h
  split at h
  · exact nomatch h
  · next gap after hCut =>
    dsimp only at h
    split at h
    · exact nomatch h
    · cases h
      have hLength := congrArg List.length (Text.cut?_eq_some hCut)
      have hPos := List.length_pos_iff.mpr hne
      simp only [List.length_append] at hLength ⊢
      omega

theorem run_ne_endless {name : Text} (hne : name ≠ []) (s : CallSearch) :
    run name s ≠ .endless := by
  fun_induction run name s with
  | case1 =>
      intro hEndless
      cases hEndless
  | case2 =>
      intro hEndless
      cases hEndless
  | case3 s next hs _ ih => exact ih
  | case4 s next hs hNot => exact absurd (length_ahead_lt_of_step_eq_onward hne hs) hNot

/-- There is nothing to find in a text that does not call the name. -/
theorem find_eq_absent {name text : Text} (hne : name ≠ [])
    (hall : name.all Text.isWordChar = true)
    (hNot : name ∉ Text.callNames (Text.pieces text)) : find name text = .absent := by
  cases hFind : find name text with
  | absent => rfl
  | endless => exact absurd hFind (run_ne_endless hne _)
  | call before after =>
      exact absurd (Text.mem_callNames_of_eq (find_eq_call hFind) (run_eq_call_endsInWord hFind)
        hne hall) hNot

/-- A name at the start of a text, before an opening parenthesis, is found there. -/
theorem find_append {name : Text} (hne : name ≠ []) (after : Text) :
    find name (name ++ '(' :: after) = .call [] after := by
  have hCut : Text.cut? name (name ++ '(' :: after) = some ([], '(' :: after) := by
    cases name with
    | nil => exact absurd rfl hne
    | cons c name =>
        have hPrefix : (c :: name).isPrefixOf (c :: name ++ '(' :: after) = true :=
          List.isPrefixOf_iff_prefix.mpr (List.prefix_append _ _)
        rw [List.cons_append] at hPrefix ⊢
        simp [Text.cut?, hPrefix]
  have hStep : step name ⟨[], name ++ '(' :: after⟩ = .call [] after := by
    simp [step, hCut, Text.endsInWord]
  unfold find run
  rw [hStep]

end CallSearch
end ArrayKernel
