import ArrayKernel.Helper.Expansion
import ArrayKernel.Proofs.FirstCall

/-!
# Where expansion ends

The search for a call and the pass of a helper are loops.  A step of the pass always leaves
less text ahead.  A step of the search passes over some text if the name is not empty, so a
helper with a name can be expanded in every text, and any number of such helpers too.

The empty name occurs wherever the search stands.  A step over it does NOT move, and the search
ends only if a parenthesis opens where it starts.  A pass for the empty name goes from group
to group and ends only at a parenthesis that is not closed.
-/

namespace ArrayKernel

namespace CallSearch

/-- Some text that was ahead has been passed over. -/
def Advances (s next : CallSearch) : Prop :=
  ∃ skipped, skipped ≠ [] ∧ next.passed = s.passed ++ skipped ∧ s.ahead = skipped ++ next.ahead

/-- A number of steps leads to one that finds a call, or that the name does not occur. -/
inductive Ends (name : Text) : CallSearch → Prop
  | call {s : CallSearch} {before after : Text} (h : step name s = .call before after) :
      Ends name s
  | absent {s : CallSearch} (h : step name s = .absent) : Ends name s
  | onward {s next : CallSearch} (h : step name s = .onward next) (hNext : Ends name next) :
      Ends name s

variable {name : Text} {s next : CallSearch}

theorem advances_of_step (hne : name ≠ []) (h : step name s = .onward next) :
    s.Advances next := by
  unfold step at h
  split at h
  · cases h
  · next gap after hCut =>
    dsimp only at h
    split at h
    · cases h
    · cases h
      have hText := Text.cut?_eq_some hCut
      exact ⟨gap ++ name, by simp [hne], by simp, hText⟩

/-! ## The empty name -/

theorem cut?_nil (t : Text) : Text.cut? [] t = some ([], t) := by
  cases t <;> rfl

/-- A step over the empty name finds a call where the search stands, or stays there. -/
theorem step_nil (s : CallSearch) :
    (∃ inside, s.ahead = '(' :: inside ∧ step [] s = .call s.passed inside) ∨
      step [] s = .onward s := by
  rcases step_of_cut? (cut?_nil s.ahead) with ⟨inside, hAhead, -, hStep⟩ | ⟨-, hStep⟩
  · exact .inl ⟨inside, hAhead, by simpa using hStep⟩
  · exact .inr (by simpa using hStep)

theorem not_ends_of_step_self (h : step name s = .onward s) : ¬ Ends name s := by
  intro hEnds
  induction hEnds with
  | call hCall => cases h.symm.trans hCall
  | absent hAbsent => cases h.symm.trans hAbsent
  | onward hOnward _ ih =>
      obtain rfl := Step.onward.inj (h.symm.trans hOnward)
      exact ih h

/-- The outcome without an end is that of the searches that do not end. -/
theorem run_eq_endless_iff : run name s = .endless ↔ ¬ Ends name s := by
  by_cases hne : name = []
  · subst hne
    rw [run]
    rcases step_nil s with ⟨inside, -, hStep⟩ | hStep
    · rw [hStep]
      refine iff_of_false (fun hEndless => ?_) fun hNot => hNot (.call hStep)
      cases hEndless
    · rw [hStep]
      exact iff_of_true (if_neg (Nat.lt_irrefl _)) (not_ends_of_step_self hStep)
  · -- where every step moves on, the recursion of the run is a run of steps
    refine iff_of_false (run_ne_endless hne s) (not_not_intro ?_)
    fun_induction run name s with
    | case1 s before after hStep => exact .call hStep
    | case2 s hStep => exact .absent hStep
    | case3 s next hStep _ ih => exact .onward hStep ih
    | case4 s next hStep hNot => exact absurd (length_ahead_lt_of_step_eq_onward hne hStep) hNot

/-- The empty name is called where a parenthesis opens at once, or the search does not end. -/
theorem find_nil_cases (t : Text) :
    (∃ inside, t = '(' :: inside ∧ find [] t = .call [] inside) ∨
      t.head? ≠ some '(' ∧ find [] t = .endless := by
  rcases step_nil ⟨[], t⟩ with ⟨inside, hAhead, hStep⟩ | hStep
  · refine .inl ⟨inside, hAhead, ?_⟩
    unfold find
    rw [run, hStep]
  · refine .inr ⟨fun hOpen => ?_, run_eq_endless_iff.mpr (not_ends_of_step_self hStep)⟩
    obtain ⟨inside, rfl⟩ := List.head?_eq_some_iff.mp hOpen
    cases hStep

theorem find_nil_open (inside : Text) : find [] ('(' :: inside) = .call [] inside := by
  rcases find_nil_cases ('(' :: inside) with ⟨inside', hInside, hCall⟩ | ⟨hNot, -⟩
  · obtain rfl := (List.cons.inj hInside).2
    exact hCall
  · exact absurd rfl hNot

theorem ends_find_iff (name t : Text) : Ends name ⟨[], t⟩ ↔ name ≠ [] ∨ t.head? = some '(' := by
  have hEndless : find name t ≠ .endless ↔ Ends name ⟨[], t⟩ :=
    (not_congr run_eq_endless_iff).trans Classical.not_not
  rw [← hEndless]
  by_cases hne : name = []
  · subst hne
    rcases find_nil_cases t with ⟨inside, rfl, hCall⟩ | ⟨hNot, hFind⟩
    · simp [hCall]
    · simp [hNot, hFind]
  · exact iff_of_true (run_ne_endless hne _) (.inl hne)

end CallSearch

/-- Groups in parentheses, one behind the other, and then a parenthesis that is not closed. -/
inductive Text.EndsOpen : Text → Prop
  | unclosed {after : Text} (h : Text.closing? 0 after = none) : EndsOpen ('(' :: after)
  | group {after inside rest : Text} (h : Text.closing? 0 after = some (inside, rest))
      (hRest : EndsOpen rest) : EndsOpen ('(' :: after)

/-- The pass of a helper has written some text and looks at the text ahead. -/
structure Pass where
  written : Text
  ahead : Text
  deriving DecidableEq, Repr

namespace Pass

/-- A pass puts what the next call stands for behind what it has written, and goes on behind
the call. -/
inductive Step (h : Helper) : Pass → Pass → Prop
  | call {p : Pass} {before after inside rest : Text}
      (hFind : CallSearch.find h.name p.ahead = .call before after)
      (hClosing : Text.closing? 0 after = some (inside, rest)) :
      Step h p ⟨p.written ++ (before ++ h.callText inside), rest⟩

/-- A pass stops where no call is ahead, and where the next call is not closed. -/
inductive Stops (h : Helper) : Pass → Prop
  | absent {p : Pass} (hFind : CallSearch.find h.name p.ahead = .absent) : Stops h p
  | unclosed {p : Pass} {before after : Text}
      (hFind : CallSearch.find h.name p.ahead = .call before after)
      (hClosing : Text.closing? 0 after = none) : Stops h p

/-- A number of steps leads to a stop, and to a text. -/
inductive Yields (h : Helper) : Pass → Text → Prop
  | stop {p : Pass} (hStops : Stops h p) : Yields h p (p.written ++ p.ahead)
  | next {p q : Pass} {result : Text} (hStep : Step h p q) (hRest : Yields h q result) :
      Yields h p result

variable {h : Helper} {p q : Pass}

/-- What is ahead gets shorter, whatever the name. -/
theorem Step.length_ahead_lt (hStep : Step h p q) : q.ahead.length < p.ahead.length := by
  cases hStep with
  | call hFind hClosing =>
      rw [CallSearch.find_eq_call hFind, Text.closing?_eq_some hClosing]
      simp only [List.length_append, List.length_cons]
      omega

end Pass

namespace Helper

variable {h : Helper}

/-- The pass of a helper, step by step, writes the expanded text. -/
theorem yields_iff {p : Pass} {result : Text} :
    p.Yields h result ↔ ∃ more, h.expand p.ahead = some more ∧ p.written ++ more = result := by
  constructor
  · intro hYields
    induction hYields with
    | stop hStops =>
        refine ⟨_, ?_, rfl⟩
        cases hStops with
        | absent hFind => exact expand_of_find_absent hFind
        | unclosed hFind hClosing => exact expand_of_find_unclosed hFind hClosing
    | next hStep _ ih =>
        obtain ⟨more, hMore, rfl⟩ := ih
        cases hStep with
        | call hFind hClosing =>
            rw [expand_of_find_closed hFind hClosing, hMore]
            exact ⟨_, rfl, by simp⟩
  · obtain ⟨written, t⟩ := p
    rintro ⟨more, hMore, rfl⟩
    dsimp only at hMore
    fun_induction expand h t generalizing written more with
    | case1 t hFind => cases hMore
    | case2 t hFind =>
        cases hMore
        exact .stop (.absent hFind)
    | case3 t before after hFind hClosing =>
        cases hMore
        exact .stop (.unclosed hFind hClosing)
    | case4 t before after hFind inside rest hClosing _ ih =>
        obtain ⟨rest', hRest, rfl⟩ := Option.map_eq_some_iff.mp hMore
        have hYields := ih (written ++ (before ++ h.callText inside)) rest' hRest
        rw [List.append_assoc] at hYields
        exact .next (.call hFind hClosing) hYields

/-- A helper with a name can be expanded in every text. -/
theorem exists_expand (hne : h.name ≠ []) (t : Text) : ∃ result, h.expand t = some result := by
  fun_induction expand h t with
  | case1 t hFind => exact absurd hFind (CallSearch.run_ne_endless hne _)
  | case2 t => exact ⟨t, rfl⟩
  | case3 t => exact ⟨t, rfl⟩
  | case4 t before after _ inside rest _ _ ih =>
      obtain ⟨more, hMore⟩ := ih
      rw [hMore]
      exact ⟨_, rfl⟩

/-- Without a name, the pass goes from group to group. -/
theorem exists_expand_iff_endsOpen (hName : h.name = []) (t : Text) :
    (∃ result, h.expand t = some result) ↔ t.EndsOpen := by
  have hOpen (inside : Text) : CallSearch.find h.name ('(' :: inside) = .call [] inside := by
    rw [hName, CallSearch.find_nil_open]
  have hStarts {t before after : Text} (hFind : CallSearch.find h.name t = .call before after) :
      t = '(' :: after := by
    rw [hName] at hFind
    rcases CallSearch.find_nil_cases t with ⟨inside, hText, hCall⟩ | ⟨-, hEndless⟩
    · obtain ⟨-, rfl⟩ := CallSearch.Outcome.call.inj (hCall.symm.trans hFind)
      exact hText
    · cases hEndless.symm.trans hFind
  constructor
  · rintro ⟨result, hResult⟩
    fun_induction expand h t generalizing result with
    | case1 t => cases hResult
    | case2 t hFind =>
        rw [hName] at hFind
        rcases CallSearch.find_nil_cases t with ⟨inside, -, hCall⟩ | ⟨-, hEndless⟩
        · cases hCall.symm.trans hFind
        · cases hEndless.symm.trans hFind
    | case3 t before after hFind hClosing =>
        obtain rfl := hStarts hFind
        exact .unclosed hClosing
    | case4 t before after hFind inside rest hClosing _ ih =>
        obtain ⟨more, hMore, -⟩ := Option.map_eq_some_iff.mp hResult
        obtain rfl := hStarts hFind
        exact .group hClosing (ih more hMore)
  · intro hEnds
    induction hEnds with
    | unclosed hClosing => exact ⟨_, expand_of_find_unclosed (hOpen _) hClosing⟩
    | group hClosing _ ih =>
        obtain ⟨rest, hRest⟩ := ih
        rw [expand_of_find_closed (hOpen _) hClosing, hRest]
        exact ⟨_, rfl⟩

theorem exists_expand_iff (h : Helper) (t : Text) :
    (∃ result, h.expand t = some result) ↔ h.name ≠ [] ∨ t.EndsOpen := by
  by_cases hName : h.name = []
  · rw [exists_expand_iff_endsOpen hName]
    simp [hName]
  · exact iff_of_true (exists_expand hName t) (.inl hName)

theorem expand_nil (hne : h.name ≠ []) : h.expand [] = some [] := by
  refine expand_of_find_absent ?_
  have hStep : CallSearch.step h.name ⟨[], []⟩ = .absent := by
    simp [CallSearch.step, Text.cut?, hne]
  unfold CallSearch.find
  rw [CallSearch.run, hStep]

end Helper

/-! ## Several helpers -/

variable {helpers : List Helper}

theorem exists_expandRound (hNames : ∀ h ∈ helpers, h.name ≠ []) (t : Text) :
    ∃ result, expandRound helpers t = some result := by
  induction helpers generalizing t with
  | nil => exact ⟨t, rfl⟩
  | cons h helpers ih =>
      obtain ⟨next, hNext⟩ := Helper.exists_expand (hNames h (.head _)) t
      obtain ⟨result, hResult⟩ := ih (fun g hg => hNames g (.tail _ hg)) next
      refine ⟨result, ?_⟩
      show (h.expand t).bind (expandRound helpers) = some result
      rw [hNext]
      exact hResult

theorem exists_expandRounds (hNames : ∀ h ∈ helpers, h.name ≠ []) (rounds : Nat) (t : Text) :
    ∃ result, expandRounds helpers rounds t = some result := by
  induction rounds generalizing t with
  | zero => exact ⟨t, rfl⟩
  | succ rounds ih =>
      obtain ⟨next, hNext⟩ := exists_expandRound hNames t
      rw [expandRounds, hNext, Option.bind_some]
      split
      · exact ⟨t, rfl⟩
      · exact ih next

/-- The first helper without a name does not come to an end in the empty text. -/
theorem expandRound_nil_of_unnamed {h : Helper} (hMem : h ∈ helpers) (hName : h.name = []) :
    expandRound helpers [] = none := by
  -- the helpers in front of it have names and leave the empty text as it is
  induction helpers with
  | nil => cases hMem
  | cons g helpers ih =>
      show (g.expand []).bind (expandRound helpers) = none
      by_cases hg : g.name = []
      · have hEndless : CallSearch.find g.name [] = .endless := by
          rw [hg]
          exact CallSearch.run_eq_endless_iff.mpr (CallSearch.not_ends_of_step_self rfl)
        rw [Helper.expand_of_find_endless hEndless]
        rfl
      · rcases List.mem_cons.mp hMem with rfl | hMem
        · exact absurd hName hg
        · rw [Helper.expand_nil hg]
          exact ih hMem

/-- **Where expansion ends.**  Every step of the search for a call that does not find one passes
over some text exactly if the name is not empty, and then the search ends; for the empty name
it ends only where a parenthesis opens at once.  Every step of a pass leaves less text ahead.
The steps of a pass lead to an expanded text, unless the name is empty and the text is not made
of groups and a parenthesis that is not closed.  Several helpers can be expanded in every text
exactly if they all have names. -/
theorem expansion_ends_iff (h : Helper) (helpers : List Helper) :
    ((∀ s next, CallSearch.step h.name s = .onward next → s.Advances next) ↔ h.name ≠ []) ∧
    (∀ t, CallSearch.Ends h.name ⟨[], t⟩ ↔ h.name ≠ [] ∨ t.head? = some '(') ∧
    (∀ p q, Pass.Step h p q → q.ahead.length < p.ahead.length) ∧
    (∀ t result, h.expand t = some result ↔ Pass.Yields h ⟨[], t⟩ result) ∧
    (∀ t, (∃ result, Pass.Yields h ⟨[], t⟩ result) ↔ h.name ≠ [] ∨ t.EndsOpen) ∧
    ((∀ t, ∃ result, expandAll helpers t = some result) ↔ ∀ g ∈ helpers, g.name ≠ []) := by
  have hYields (t result : Text) :
      h.expand t = some result ↔ Pass.Yields h ⟨[], t⟩ result := by
    rw [Helper.yields_iff]
    simp
  refine ⟨⟨fun hAdvances hName => ?_, fun hne _ _ => CallSearch.advances_of_step hne⟩,
    CallSearch.ends_find_iff h.name, fun _ _ => Pass.Step.length_ahead_lt, hYields, fun t => ?_,
    ⟨fun hAll g hg hName => ?_, fun hNames => exists_expandRounds hNames maxRounds⟩⟩
  · rw [hName] at hAdvances
    have hStep : CallSearch.step [] ⟨[], []⟩ = .onward ⟨[], []⟩ := rfl
    obtain ⟨skipped, hne, hPassed, -⟩ := hAdvances _ _ hStep
    exact hne (by simpa using hPassed)
  · rw [← Helper.exists_expand_iff]
    exact exists_congr fun result => (hYields t result).symm
  · obtain ⟨result, hResult⟩ := hAll []
    rw [expandAll, maxRounds, expandRounds, expandRound_nil_of_unnamed hg hName] at hResult
    cases hResult

/-- A helper with two parameters ends its pass at a call that is not closed.  A helper without a
name does so too, behind a group. -/
theorem expansion_ends_unclosed :
    ∃ sum unnamed : Helper, sum.name ≠ [] ∧ unnamed.name = [] ∧
      (∃ result, Pass.Yields sum ⟨[], "f(x, g(y)) + f(z"⟩ result) ∧
      (∃ result, expandAll [sum, sum] "f(x, g(y)) + f(z" = some result) ∧
      Text.EndsOpen "(x)(y" ∧ CallSearch.Ends unnamed.name ⟨[], "(x)(y"⟩ ∧
      ∃ result, Pass.Yields unnamed ⟨[], "(x)(y"⟩ result := by
  have hNames : ∀ g ∈ [Helper.mk "f" ["a", "b"] "((a) + (b))", ⟨"f", ["a", "b"], "((a) + (b))"⟩],
      g.name ≠ [] := by
    decide
  have hClosing : Text.closing? 0 "x)(y" = some ("x".toList, "(y".toList) := by decide
  have hOpen : Text.EndsOpen "(x)(y" := .group hClosing (.unclosed (by decide))
  obtain ⟨-, -, -, -, hYields, hAll⟩ :=
    expansion_ends_iff ⟨"f", ["a", "b"], "((a) + (b))"⟩ [_, _]
  obtain ⟨-, hEnds, -, -, hUnnamed, -⟩ := expansion_ends_iff ⟨[], [], "1"⟩ []
  exact ⟨⟨"f", ["a", "b"], "((a) + (b))"⟩, ⟨[], [], "1"⟩, by decide, rfl,
    (hYields _).mpr (.inl (by decide)), hAll.mpr hNames _, hOpen, (hEnds _).mpr (.inr rfl),
    (hUnnamed _).mpr (.inr hOpen)⟩

/-- The search for the empty name does not get away from a letter. -/
theorem unnamed_search_stays :
    ∃ h : Helper, h.name = [] ∧ CallSearch.step h.name ⟨[], "a"⟩ = .onward ⟨[], "a"⟩ ∧
      ¬ CallSearch.Advances ⟨[], "a"⟩ ⟨[], "a"⟩ ∧ ¬ CallSearch.Ends h.name ⟨[], "a"⟩ ∧
      (¬ ∃ result, Pass.Yields h ⟨[], "a"⟩ result) ∧ expandAll [h] "a" = none := by
  have hStays : ¬ CallSearch.Advances ⟨[], "a"⟩ ⟨[], "a"⟩ := by
    rintro ⟨skipped, hne, hPassed, -⟩
    exact hne (by simpa using hPassed)
  have hEnds : ¬ CallSearch.Ends [] ⟨[], "a"⟩ := CallSearch.not_ends_of_step_self rfl
  have hExpand : Helper.expand ⟨[], [], "1"⟩ "a" = none :=
    Helper.expand_of_find_endless (CallSearch.run_eq_endless_iff.mpr hEnds)
  refine ⟨⟨[], [], "1"⟩, rfl, rfl, hStays, hEnds, ?_, ?_⟩
  · rintro ⟨result, hYields⟩
    obtain ⟨more, hMore, -⟩ := Helper.yields_iff.mp hYields
    cases hExpand.symm.trans hMore
  · show ((Helper.expand ⟨[], [], "1"⟩ "a").bind _).bind _ = none
    rw [hExpand]
    rfl

end ArrayKernel
