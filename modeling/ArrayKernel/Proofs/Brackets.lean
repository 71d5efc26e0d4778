import ArrayKernel.Proofs.Identifier
import ArrayKernel.Proofs.Splitting

/-!
# Matching brackets

A text is bracketed when every bracket in it is closed by one of its kind, in the
right order.  It is sealed when, besides, no comma stands outside its brackets.  A
bracketed text closes its brackets of each kind, so that it does not disturb the search
for a closing parenthesis.  A sealed text without blanks at its ends is one argument of
a call.
-/

namespace ArrayKernel
namespace Text

/-- The brackets that have to be closed after a character, the latest first.  There are
none where a bracket is closed by one that does not match it. -/
def bracketStep (stack : List Char) (c : Char) : Option (List Char) :=
  if c = '(' then some (')' :: stack)
  else if c = '[' then some (']' :: stack)
  else if c = ')' ∨ c = ']' then
    match stack with
    | [] => none
    | d :: rest => if d = c then some rest else none
  else some stack

/-- As `bracketStep`, but a comma has to stand inside brackets. -/
def sealStep (stack : List Char) (c : Char) : Option (List Char) :=
  if c = ',' ∧ stack = [] then none else bracketStep stack c

/-- Every bracket is closed by one of its kind. -/
def Bracketed (t : Text) : Prop := t.foldlM bracketStep [] = some []

/-- Every bracket is closed by one of its kind, and commas stand inside brackets. -/
def Sealed (t : Text) : Prop := t.foldlM sealStep [] = some []

instance (t : Text) : Decidable (Bracketed t) := inferInstanceAs (Decidable (_ = _))

instance (t : Text) : Decidable (Sealed t) := inferInstanceAs (Decidable (_ = _))

/-- What is open below the brackets of a step does not matter to it. -/
theorem bracketStep_append {stack next : List Char} {c : Char}
    (h : bracketStep stack c = some next) (below : List Char) :
    bracketStep (stack ++ below) c = some (next ++ below) := by
  unfold bracketStep at h ⊢
  split
  · next hc =>
    rw [if_pos hc] at h
    cases h
    rfl
  · next hOpenRound =>
    rw [if_neg hOpenRound] at h
    split
    · next hc =>
      rw [if_pos hc] at h
      cases h
      rfl
    · next hOpenSquare =>
      rw [if_neg hOpenSquare] at h
      split
      · next hc =>
        rw [if_pos hc] at h
        cases stack with
        | nil => exact nomatch h
        | cons d rest =>
            by_cases hd : d = c
            · simp only [if_pos hd, Option.some.injEq] at h
              simp [hd, h]
            · simp [hd] at h
      · next hc =>
        rw [if_neg hc] at h
        cases h
        rfl

theorem sealStep_append {stack next : List Char} {c : Char}
    (h : sealStep stack c = some next) (below : List Char) :
    sealStep (stack ++ below) c = some (next ++ below) := by
  unfold sealStep at h ⊢
  split at h
  · exact nomatch h
  · next hInside =>
    have hStill : ¬ (c = ',' ∧ stack ++ below = []) := fun hc =>
      hInside ⟨hc.1, (List.append_eq_nil_iff.mp hc.2).1⟩
    rw [if_neg hStill]
    exact bracketStep_append h below

/-- If a step of one scan is followed by a step of another, then so is a run. -/
theorem foldlM_simulates {σ τ : Type} {step : σ → Char → Option σ}
    {step' : τ → Char → Option τ} {f : σ → τ}
    (hStep : ∀ {state next : σ} {c : Char}, step state c = some next →
      step' (f state) c = some (f next))
    {state last : σ} {t : Text} (h : t.foldlM step state = some last) :
    t.foldlM step' (f state) = some (f last) := by
  induction t generalizing state with
  | nil =>
      cases h
      rfl
  | cons c t ih =>
      rw [List.foldlM_cons] at h ⊢
      obtain ⟨next, hNext, hRest⟩ := Option.bind_eq_some_iff.mp h
      rw [hStep hNext]
      exact ih hRest

theorem Bracketed.foldlM {t : Text} (h : Bracketed t) (stack : List Char) :
    t.foldlM bracketStep stack = some stack :=
  foldlM_simulates (f := (· ++ stack)) (fun hNext => bracketStep_append hNext stack) h

theorem Sealed.foldlM {t : Text} (h : Sealed t) (stack : List Char) :
    t.foldlM sealStep stack = some stack :=
  foldlM_simulates (f := (· ++ stack)) (fun hNext => sealStep_append hNext stack) h

theorem bracketStep_of_sealStep {stack next : List Char} {c : Char}
    (h : sealStep stack c = some next) : bracketStep stack c = some next := by
  unfold sealStep at h
  split at h
  · exact nomatch h
  · exact h

theorem foldlM_bracketStep_of_sealStep {t : Text} {stack last : List Char}
    (h : t.foldlM sealStep stack = some last) : t.foldlM bracketStep stack = some last :=
  foldlM_simulates (f := id) bracketStep_of_sealStep h

theorem Sealed.bracketed {t : Text} (h : Sealed t) : Bracketed t :=
  foldlM_bracketStep_of_sealStep h

/-! ## Building bracketed and sealed texts -/

/-- A character that is no bracket and no comma. -/
def isPlainChar (c : Char) : Bool :=
  c != '(' && c != ')' && c != '[' && c != ']' && c != ','

theorem sealStep_of_isPlainChar {c : Char} (h : isPlainChar c = true) (stack : List Char) :
    sealStep stack c = some stack := by
  simp only [isPlainChar, Bool.and_eq_true, bne_iff_ne, ne_eq] at h
  obtain ⟨⟨⟨⟨h1, h2⟩, h3⟩, h4⟩, h5⟩ := h
  simp [sealStep, bracketStep, h1, h2, h3, h4, h5]

theorem sealed_of_all_isPlainChar {t : Text} (h : t.all isPlainChar = true) : Sealed t := by
  unfold Sealed
  induction t with
  | nil => rfl
  | cons c t ih =>
      simp only [List.all_cons, Bool.and_eq_true] at h
      rw [List.foldlM_cons, sealStep_of_isPlainChar h.1]
      exact ih h.2

theorem Sealed.append {s t : Text} (hs : Sealed s) (ht : Sealed t) : Sealed (s ++ t) := by
  unfold Sealed
  rw [List.foldlM_append, hs.foldlM]
  exact ht

theorem Bracketed.append {s t : Text} (hs : Bracketed s) (ht : Bracketed t) :
    Bracketed (s ++ t) := by
  unfold Bracketed
  rw [List.foldlM_append, hs.foldlM]
  exact ht

/-- Inside brackets, commas do no harm. -/
theorem sealStep_inside {stack next : List Char} {c below : Char}
    (h : bracketStep stack c = some next) (rest : List Char) :
    sealStep (stack ++ below :: rest) c = some (next ++ below :: rest) := by
  have hInside : ¬ (c = ',' ∧ stack ++ below :: rest = []) := by simp
  rw [sealStep, if_neg hInside]
  exact bracketStep_append h (below :: rest)

theorem foldlM_sealStep_inside {t : Text} {stack last : List Char} {below : Char}
    (h : t.foldlM bracketStep stack = some last) (rest : List Char) :
    t.foldlM sealStep (stack ++ below :: rest) = some (last ++ below :: rest) :=
  foldlM_simulates (f := (· ++ below :: rest)) (fun hNext => sealStep_inside hNext rest) h

/-- A bracketed text in parentheses is sealed. -/
theorem Bracketed.parenthesized {t : Text} (h : Bracketed t) : Sealed ('(' :: (t ++ [')'])) := by
  have hRun : t.foldlM sealStep [')'] = some [')'] := foldlM_sealStep_inside h []
  show (t ++ [')']).foldlM sealStep [')'] = some []
  rw [List.foldlM_append, hRun]
  rfl

theorem bracketed_join {ts : List Text} (h : ∀ t ∈ ts, Bracketed t) :
    Bracketed (join ", " ts) := by
  induction ts with
  | nil => exact rfl
  | cons t ts ih =>
      cases ts with
      | nil => exact h t (.head _)
      | cons u ts =>
          have hComma : Bracketed ", " := by decide
          rw [join_cons_cons]
          exact ((h t (.head _)).append hComma).append (ih fun v hv => h v (.tail _ hv))

/-! ## Brackets of one kind -/

/-- A bracket and the one that closes it. -/
inductive Matches : Char → Char → Prop
  | round : Matches '(' ')'
  | square : Matches '[' ']'

/-- How a step changes the number of open brackets of one kind.  A closing one has something to
close. -/
theorem count_bracketStep {opening closing : Char} (hKind : Matches opening closing)
    {stack next : List Char} {c : Char} (h : bracketStep stack c = some next) :
    ¬ (c = closing ∧ stack.count closing = 0) ∧
      next.count closing = level opening closing (stack.count closing) c := by
  unfold bracketStep at h
  split at h
  · next hc =>
    cases h
    subst hc
    cases hKind <;> simp [level]
  · next hOpenRound =>
    split at h
    · next hc =>
      cases h
      subst hc
      cases hKind <;> simp [level]
    · next hOpenSquare =>
      split at h
      · next hc =>
        cases stack with
        | nil => cases h
        | cons d stack =>
            by_cases hd : d = c
            · simp only [hd, if_true, Option.some.injEq] at h
              subst h hd
              cases hKind <;> rcases hc with rfl | rfl <;> simp [level]
            · simp [hd] at h
      · next hClose =>
        cases h
        simp only [not_or] at hClose
        cases hKind <;> simp [level, hOpenRound, hOpenSquare, hClose]

/-- A run of matching brackets, as the brackets of one kind alone see it. -/
theorem levels_of_foldlM {opening closing : Char} (hKind : Matches opening closing) {t : Text}
    {stack last : List Char} (h : t.foldlM bracketStep stack = some last) :
    Levels opening closing (stack.count closing) t (last.count closing) := by
  induction t generalizing stack with
  | nil =>
      cases h
      exact ⟨fun s hs => by simp [List.prefix_nil.mp hs], by simp⟩
  | cons c t ih =>
      rw [List.foldlM_cons] at h
      obtain ⟨next, hNext, hRest⟩ := Option.bind_eq_some_iff.mp h
      obtain ⟨hGoesOn, hCount⟩ := count_bracketStep hKind hNext
      refine .cons (by cases hKind <;> decide) hGoesOn ?_
      rw [← hCount]
      exact ih hRest

theorem Bracketed.closes {t : Text} (h : Bracketed t) {opening closing : Char}
    (hKind : Matches opening closing) : Closes opening closing t := levels_of_foldlM hKind h

/-- A bracketed text before a closing parenthesis is all that the parenthesis closes. -/
theorem Bracketed.closing?_eq_some {inside : Text} (h : Bracketed inside) (after : Text) :
    closing? 0 (inside ++ ')' :: after) = some (inside, after) := by
  have hRun := (h.closes .round).closing?_append (')' :: after)
  simpa [closing?] using hRun

/-! ## Sealed texts as arguments -/

/-- Only closing brackets are waited for. -/
theorem mem_of_bracketStep {stack next : List Char} {c : Char}
    (h : bracketStep stack c = some next) (hStack : ∀ d ∈ stack, d = ')' ∨ d = ']') :
    ∀ d ∈ next, d = ')' ∨ d = ']' := by
  unfold bracketStep at h
  split at h
  · cases h
    exact List.forall_mem_cons.mpr ⟨.inl rfl, hStack⟩
  · split at h
    · cases h
      exact List.forall_mem_cons.mpr ⟨.inr rfl, hStack⟩
    · split at h
      · cases stack with
        | nil => cases h
        | cons e stack =>
            obtain ⟨-, rfl⟩ := Option.ite_some_none_eq_some.mp h
            exact fun d hd => hStack d (.tail _ hd)
      · cases h
        exact hStack

theorem mem_of_foldlM_bracketStep {t : Text} {stack last : List Char}
    (h : t.foldlM bracketStep stack = some last) (hStack : ∀ d ∈ stack, d = ')' ∨ d = ']') :
    ∀ d ∈ last, d = ')' ∨ d = ']' := by
  induction t generalizing stack with
  | nil =>
      cases h
      exact hStack
  | cons c t ih =>
      rw [List.foldlM_cons] at h
      obtain ⟨next, hNext, hRest⟩ := Option.bind_eq_some_iff.mp h
      exact ih hRest (mem_of_bracketStep hNext hStack)

/-- What is waited for in front of a comma is open there. -/
theorem Sealed.commasInside {t : Text} (h : Sealed t) : CommasInside 0 0 t := by
  rintro s ⟨rest, rfl⟩
  unfold Sealed at h
  rw [List.append_assoc, List.foldlM_append] at h
  obtain ⟨stack, hFront, hBehind⟩ := Option.bind_eq_some_iff.mp h
  have hOpen : stack ≠ [] := by
    rintro rfl
    cases hBehind
  have hBrackets := foldlM_bracketStep_of_sealStep hFront
  have hRound := (levels_of_foldlM .round hBrackets).eq
  have hSquare := (levels_of_foldlM .square hBrackets).eq
  simp only [List.count_nil] at hRound hSquare
  obtain ⟨d, hd⟩ := List.exists_mem_of_ne_nil stack hOpen
  have hPos := List.count_pos_iff.mpr hd
  rcases mem_of_foldlM_bracketStep hBrackets (List.forall_mem_nil _) d hd with rfl | rfl
  · left
    omega
  · right
    omega

theorem Sealed.isSegment {t : Text} (h : Sealed t) : IsSegment t :=
  isSegment_iff.mpr (uncut_of_levels (h.bracketed.closes .round) (h.bracketed.closes .square)
    h.commasInside)

/-- A sealed text without blanks at its ends is one argument. -/
theorem Sealed.isArgument {t : Text} (h : Sealed t) (hSolid : HasSolidEnds t) : IsArgument t where
  round := h.bracketed.closes .round
  square := h.bracketed.closes .square
  commas := h.commasInside
  trimmed := trim_of_solid hSolid

/-! ## Blanks and words -/

theorem isBlank_of_isWordChar {c : Char} (h : isWordChar c = true) : isBlank c = false := by
  have hCode : 48 ≤ c.toNat ∧ c.toNat ≤ 122 := by
    unfold isWordChar Char.isAlphanum Char.isAlpha Char.isUpper Char.isLower Char.isDigit at h
    simp only [Bool.or_eq_true, Bool.and_eq_true, decide_eq_true_eq, beq_iff_eq,
      UInt32.le_iff_toNat_le, ge_iff_le] at h
    change (((65 ≤ c.toNat ∧ c.toNat ≤ 90) ∨ (97 ≤ c.toNat ∧ c.toNat ≤ 122)) ∨
      (48 ≤ c.toNat ∧ c.toNat ≤ 57)) ∨ c = '_' at h
    rcases h with ((h | h) | h) | h
    · omega
    · omega
    · omega
    · subst h
      decide
  simp only [isBlank, blankRanges, List.any_cons, List.any_nil, Bool.or_false,
    Bool.or_eq_false_iff, Bool.and_eq_false_iff, decide_eq_false_iff_not]
  omega

end Text
end ArrayKernel
