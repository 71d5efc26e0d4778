import ArrayKernel.Helper.Basic
import ArrayKernel.Helper.Call
import ArrayKernel.Text.Argument

/-!
# Expansion of helper calls

A call with as many arguments as the helper has parameters gives way to the
filled body; a call with another number stays as it is.  What a call leaves
behind is not scanned again in the same pass.  A call whose parenthesis is not
closed ends the pass.

Several helpers are expanded in rounds, each round one pass per helper in the
given order, until a round changes nothing or the rounds are used up.  The
result is `none` where the search for calls never ends.
-/

namespace ArrayKernel

namespace Helper

/-- What a call with the given argument list stands for. -/
def callText (h : Helper) (inside : Text) : Text :=
  let args := Text.splitArguments inside
  if args.length = h.arity then h.fill args else h.name ++ "(" ++ inside ++ ")"

/-- The text with the calls of one helper expanded. -/
def expand (h : Helper) (text : Text) : Option Text :=
  match hs : CallSearch.find h.name text with
  | .endless => none
  | .absent => some text
  | .call before after =>
    match hc : Text.closing? 0 after with
    | none => some text
    | some (inside, rest) =>
      have : rest.length < text.length := by
        rw [CallSearch.find_eq_call hs, Text.closing?_eq_some hc]
        simp
        omega
      (h.expand rest).map fun more => before ++ h.callText inside ++ more
termination_by text.length

variable {h : Helper} {text before after : Text}

theorem expand_of_find_endless (hFind : CallSearch.find h.name text = .endless) :
    h.expand text = none := by
  rw [expand]
  split
  · rfl
  · next hs => cases hFind.symm.trans hs
  · next hs => cases hFind.symm.trans hs

theorem expand_of_find_absent (hFind : CallSearch.find h.name text = .absent) :
    h.expand text = some text := by
  rw [expand]
  split
  · next hs => cases hFind.symm.trans hs
  · rfl
  · next hs => cases hFind.symm.trans hs

theorem expand_of_find_unclosed (hFind : CallSearch.find h.name text = .call before after)
    (hClosing : Text.closing? 0 after = none) : h.expand text = some text := by
  rw [expand]
  split
  · next hs => cases hFind.symm.trans hs
  · rfl
  · next hs =>
    obtain ⟨rfl, rfl⟩ := CallSearch.Outcome.call.inj (hFind.symm.trans hs)
    split
    · rfl
    · next hc => cases hClosing.symm.trans hc

theorem expand_of_find_closed {inside rest : Text}
    (hFind : CallSearch.find h.name text = .call before after)
    (hClosing : Text.closing? 0 after = some (inside, rest)) :
    h.expand text = (h.expand rest).map fun more => before ++ h.callText inside ++ more := by
  rw [expand]
  split
  · next hs => cases hFind.symm.trans hs
  · next hs => cases hFind.symm.trans hs
  · next hs =>
    obtain ⟨rfl, rfl⟩ := CallSearch.Outcome.call.inj (hFind.symm.trans hs)
    split
    · next hc => cases hClosing.symm.trans hc
    · next hc =>
      obtain ⟨rfl, rfl⟩ := Prod.mk.inj (Option.some.inj (hClosing.symm.trans hc))
      rfl

end Helper

/-- One pass per helper, in the given order. -/
def expandRound (helpers : List Helper) (text : Text) : Option Text :=
  helpers.foldlM (fun current h => h.expand current) text

/-- Rounds until one changes nothing, at most the given number. -/
def expandRounds (helpers : List Helper) : Nat → Text → Option Text
  | 0, text => some text
  | n + 1, text =>
    (expandRound helpers text).bind fun next =>
      if next = text then some text else expandRounds helpers n next

/-- The greatest number of rounds. -/
def maxRounds : Nat := 64

/-- The text with the calls of several helpers expanded. -/
def expandAll (helpers : List Helper) (text : Text) : Option Text :=
  expandRounds helpers maxRounds text

end ArrayKernel
