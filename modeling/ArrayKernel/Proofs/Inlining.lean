import ArrayKernel.Proofs.Endings
import ArrayKernel.Proofs.Passes

/-!
# Inlining of calls one by one

A pass goes from one call of its helper to the next.  A text that does not call the
helper stays as it is.  A text with a call behind such a text is rewritten part by
part: the front stays, a call with all its arguments gives way to the filled body, a
call with another number of arguments stays, and what follows is a pass of its own.

The arguments may be any texts that close their brackets, of each kind for itself, with
commas inside brackets only and without blanks at their ends.  A list of one empty
argument is NOT told from the empty list.
-/

namespace ArrayKernel

namespace Text

/-! ## Texts that call a name -/

/-- The name stands in the text as a whole word before an opening parenthesis. -/
def Calls (name t : Text) : Prop :=
  ∃ before after, t = before ++ name ++ '(' :: after ∧ endsInWord before = false

theorem calls_iff {name : Text} (hName : isIdentifier name = true) (t : Text) :
    Calls name t ↔ name ∈ callNames (pieces t) := by
  constructor
  · rintro ⟨before, after, ht, hBefore⟩
    exact mem_callNames_of_eq ht hBefore (ne_nil_of_isIdentifier hName)
      (all_isWordChar_of_isIdentifier hName)
  · intro hMem
    obtain ⟨before, after, ht, hBefore, -⟩ := exists_first_call hMem
    exact ⟨before, after, ht, hBefore⟩

/-! ## Arguments -/

namespace IsArgument

variable {args : List Text}

/-- The search passes over a whole list of arguments. -/
theorem closing?_join (hArgs : ∀ arg ∈ args, IsArgument arg) (rest : Text) :
    closing? 0 (join ", " args ++ rest) =
      (closing? 0 rest).map fun split => (join ", " args ++ split.1, split.2) := by
  induction args with
  | nil => simp [join]
  | cons arg args ih =>
      have hArg := (hArgs arg (.head _)).round
      cases args with
      | nil => exact hArg.closing?_append rest
      | cons next args =>
          have hComma : Closes '(' ')' ", " := by decide
          have hRest := ih fun other hOther => hArgs other (.tail _ hOther)
          rw [join_cons_cons, List.append_assoc, List.append_assoc, hArg.closing?_append,
            hComma.closing?_append, hRest]
          simp [Function.comp_def]

end IsArgument

end Text

namespace Helper

variable {h : Helper}

/-! ## A call behind a text without calls -/

theorem expand_of_not_calls (hName : Text.isIdentifier h.name = true) {t : Text}
    (hNot : ¬ Text.Calls h.name t) : h.expand t = some t :=
  expand_of_not_called hName fun hMem => hNot ((Text.calls_iff hName t).mpr hMem)

/-- What a call with the given arguments stands for. -/
theorem callText_join {args : List Text} (hArgs : ∀ arg ∈ args, Text.IsArgument arg)
    (hNot : args ≠ [[]]) : h.callText (Text.join ", " args) =
      if args.length = h.arity then h.fill args
      else h.name ++ "(" ++ Text.join ", " args ++ ")" := by
  rw [callText, Text.IsArgument.splitArguments_join hArgs hNot]

theorem expand_call (hName : Text.isIdentifier h.name = true) {before : Text} {args : List Text}
    (hBefore : ¬ Text.Calls h.name before) (hEnds : Text.endsInWord before = false)
    (hArgs : ∀ arg ∈ args, Text.IsArgument arg) (after : Text) :
    h.expand (before ++ h.name ++ "(" ++ Text.join ", " args ++ ")" ++ after) =
      (h.expand after).map fun more => before ++ h.callText (Text.join ", " args) ++ more := by
  have hClosing : Text.closing? 0 (Text.join ", " args ++ ')' :: after) =
      some (Text.join ", " args, after) := by
    rw [Text.IsArgument.closing?_join hArgs]
    simp [Text.closing?]
  have hText : before ++ h.name ++ "(" ++ Text.join ", " args ++ ")" ++ after =
      before ++ h.name ++ '(' :: (Text.join ", " args ++ ')' :: after) := by
    simp
  rw [hText]
  exact expand_of_closed hName hEnds
    (fun hMem => hBefore ((Text.calls_iff hName before).mpr hMem)) hClosing

/-! ## All calls of a text -/

/-- A call in a text: what stands in front of it, and its arguments. -/
structure Site where
  before : Text
  args : List Text

namespace Site

/-- A proper call of the helper, with no other call of it in front. -/
structure IsNext (h : Helper) (s : Site) : Prop where
  not_calls : ¬ Text.Calls h.name s.before
  ends : Text.endsInWord s.before = false
  isArgument : ∀ arg ∈ s.args, Text.IsArgument arg
  not_blank : s.args ≠ [[]]

def text (h : Helper) (s : Site) : Text :=
  s.before ++ h.name ++ "(" ++ Text.join ", " s.args ++ ")"

/-- What a pass makes of the call. -/
def inlined (h : Helper) (s : Site) : Text :=
  if s.args.length = h.arity then s.before ++ h.fill s.args else s.text h

theorem inlined_eq {s : Site} (hs : s.IsNext h) :
    s.inlined h = s.before ++ h.callText (Text.join ", " s.args) := by
  rw [callText_join hs.isArgument hs.not_blank, inlined, text]
  split
  · rfl
  · simp

end Site

/-- A pass over a text that is cut at its calls inlines every one of them. -/
theorem expand_sites (hName : Text.isIdentifier h.name = true) {sites : List Site} {last : Text}
    (hSites : ∀ s ∈ sites, s.IsNext h) (hLast : ¬ Text.Calls h.name last) :
    h.expand (sites.flatMap (Site.text h) ++ last) =
      some (sites.flatMap (Site.inlined h) ++ last) := by
  induction sites with
  | nil => exact expand_of_not_calls hName hLast
  | cons s sites ih =>
      have hs := hSites s (.head _)
      have hRest := ih fun other hOther => hSites other (.tail _ hOther)
      rw [List.flatMap_cons, List.append_assoc, List.flatMap_cons, List.append_assoc, Site.text,
        expand_call hName hs.not_calls hs.ends hs.isArgument, hRest, Site.inlined_eq hs]
      rfl

end Helper

/-- **Calls are inlined one by one.**  A pass leaves a text alone that does not call its helper.
Behind such a text that ends outside words, a call gives way to the filled body if it has as
many arguments as the helper has parameters, and stays otherwise; the pass goes on behind the
call.  So a text that is cut at its calls is rewritten call by call. -/
theorem calls_inlined_one_by_one {h : Helper} (hName : Text.isIdentifier h.name = true) :
    (∀ t, ¬ Text.Calls h.name t → h.expand t = some t) ∧
    (∀ before args after, ¬ Text.Calls h.name before → Text.endsInWord before = false →
      (∀ arg ∈ args, Text.IsArgument arg) → args ≠ [[]] →
        ∃ inlined rest, h.expand after = some rest ∧
          (args.length = h.arity → h.apply args = .ok inlined) ∧
          (args.length ≠ h.arity → inlined = h.name ++ "(" ++ Text.join ", " args ++ ")") ∧
          h.expand (before ++ h.name ++ "(" ++ Text.join ", " args ++ ")" ++ after) =
            some (before ++ inlined ++ rest)) ∧
    ∀ (sites : List Helper.Site) (last : Text), (∀ s ∈ sites, s.IsNext h) →
      ¬ Text.Calls h.name last →
        h.expand (sites.flatMap (Helper.Site.text h) ++ last) =
          some (sites.flatMap (Helper.Site.inlined h) ++ last) := by
  refine ⟨fun t hNot => Helper.expand_of_not_calls hName hNot, ?_,
    fun _ _ => Helper.expand_sites hName⟩
  intro before args after hBefore hEnds hArgs hBlank
  obtain ⟨rest, hRest⟩ := Helper.exists_expand (Text.ne_nil_of_isIdentifier hName) after
  have hCall := Helper.callText_join (h := h) hArgs hBlank
  refine ⟨h.callText (Text.join ", " args), rest, hRest, fun hArity => ?_, fun hArity => ?_, ?_⟩
  · rw [hCall, if_pos hArity]
    exact Helper.apply_of_length_eq hArity
  · rw [hCall, if_neg hArity]
  · rw [Helper.expand_call hName hBefore hEnds hArgs, hRest]
    rfl

/-- A name inside a longer word is no call; a call with an index and a comma inside its
arguments is inlined; a call with one argument stays. -/
theorem calls_inlined_sum :
    let h : Helper := ⟨"f", ["a", "b"], "(a + b)"⟩
    h.expand "xf(1) + 2" = some "xf(1) + 2" ∧
      (∃ inlined rest, h.expand " - f(2)" = some rest ∧
        h.apply ["g(u, v)[i]", "w"] = .ok inlined ∧
        h.expand "xf(1) + f(g(u, v)[i], w) - f(2)" = some ("xf(1) + " ++ inlined ++ rest)) ∧
      h.expand "xf(1) + f(g(u, v)[i], w) - f(2)" = some "xf(1) + (g(u, v)[i] + w) - f(2)" := by
  intro h
  have hName : Text.isIdentifier h.name = true := by decide
  have hNot (t : Text) (ht : h.name ∉ Text.callNames (Text.pieces t)) : ¬ Text.Calls h.name t :=
    fun hCalls => ht ((Text.calls_iff hName t).mp hCalls)
  obtain ⟨hNone, hOne, hAll⟩ := calls_inlined_one_by_one hName
  refine ⟨hNone _ (hNot _ (by decide)), ?_, ?_⟩
  · obtain ⟨inlined, rest, hRest, hApply, -, hWhole⟩ := hOne "xf(1) + " ["g(u, v)[i]", "w"]
      " - f(2)" (hNot _ (by decide)) (by decide) (by decide) (by decide)
    exact ⟨inlined, rest, hRest, hApply (by decide), hWhole⟩
  · have hFirst : Helper.Site.IsNext h ⟨"xf(1) + ", ["g(u, v)[i]", "w"]⟩ :=
      ⟨hNot _ (by decide), by decide, by decide, by decide⟩
    have hSecond : Helper.Site.IsNext h ⟨" - ", ["2"]⟩ :=
      ⟨hNot _ (by decide), by decide, by decide, by decide⟩
    exact hAll [_, _] "" (List.forall_mem_cons.mpr ⟨hFirst, by simpa using hSecond⟩)
      (hNot _ (by decide))

end ArrayKernel
