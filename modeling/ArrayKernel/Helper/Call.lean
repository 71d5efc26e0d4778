import ArrayKernel.Text.Word

/-!
# Calls in a text

A call is a name that no word character precedes and an opening parenthesis
follows.  The search for a call goes from one occurrence of the name to the
next and passes over the whole name when the occurrence is no call.

An empty name occurs wherever the search stands.  If it is no call there, the
search stays where it is, and so never ends; this outcome has a name of its own.
-/

namespace ArrayKernel

namespace Text

/-- Splits a text at the first occurrence of a name: what precedes it and what follows. -/
def cut? (name : Text) : Text → Option (Text × Text)
  | [] => if name = [] then some ([], []) else none
  | c :: cs =>
    if name.isPrefixOf (c :: cs) then some ([], (c :: cs).drop name.length)
    else (cut? name cs).map fun split => (c :: split.1, split.2)

theorem cut?_eq_some {name t before after : Text} (h : cut? name t = some (before, after)) :
    t = before ++ name ++ after := by
  induction t generalizing before with
  | nil =>
    rw [cut?] at h
    split at h
    · next hn =>
      cases h
      simp [hn]
    · exact nomatch h
  | cons c cs ih =>
    rw [cut?] at h
    split at h
    · next hp =>
      cases h
      obtain ⟨s, hs⟩ := List.isPrefixOf_iff_prefix.mp hp
      rw [← hs]
      simp
    · obtain ⟨split, hs, he⟩ := Option.map_eq_some_iff.mp h
      cases he
      simp [ih hs]

end Text

/-- A search has passed over some text and looks at the text ahead. -/
structure CallSearch where
  passed : Text
  ahead : Text
  deriving DecidableEq, Repr

namespace CallSearch

/-- What one step of a search finds. -/
inductive Step where
  /-- A call, with the text before its name and the text behind its opening parenthesis. -/
  | call (before after : Text)
  /-- The name does not occur ahead. -/
  | absent
  /-- An occurrence that is no call; the search goes on behind it. -/
  | onward (next : CallSearch)
  deriving DecidableEq, Repr

/-- Looks at the next occurrence of the name. -/
def step (name : Text) (s : CallSearch) : Step :=
  match Text.cut? name s.ahead with
  | none => .absent
  | some (gap, after) =>
    let before := s.passed ++ gap
    match Text.endsInWord before, after with
    | false, '(' :: inside => .call before inside
    | _, _ => .onward ⟨before ++ name, after⟩

/-- How a search ends. -/
inductive Outcome where
  /-- A call, with the text before its name and the text behind its opening parenthesis. -/
  | call (before after : Text)
  /-- There is no call. -/
  | absent
  /-- The search stays in one place. -/
  | endless
  deriving DecidableEq, Repr

/-- Steps until a call is found or the name does not occur any more.  A step that
leaves as much text ahead as there was leads to no end. -/
def run (name : Text) (s : CallSearch) : Outcome :=
  match step name s with
  | .call before after => .call before after
  | .absent => .absent
  | .onward next => if next.ahead.length < s.ahead.length then run name next else .endless
termination_by s.ahead.length

theorem step_eq_call {name : Text} {s : CallSearch} {before after : Text}
    (h : step name s = .call before after) :
    s.passed ++ s.ahead = before ++ name ++ '(' :: after := by
  unfold step at h
  split at h
  · exact nomatch h
  · next gap rest hcut =>
    dsimp only at h
    split at h
    · cases h
      rw [Text.cut?_eq_some hcut]
      simp
    · exact nomatch h

theorem step_eq_onward {name : Text} {s next : CallSearch} (h : step name s = .onward next) :
    next.passed ++ next.ahead = s.passed ++ s.ahead := by
  unfold step at h
  split at h
  · exact nomatch h
  · next gap rest hcut =>
    dsimp only at h
    split at h
    · exact nomatch h
    · cases h
      rw [Text.cut?_eq_some hcut]
      simp

theorem run_eq_call {name : Text} {s : CallSearch} {before after : Text}
    (h : run name s = .call before after) :
    s.passed ++ s.ahead = before ++ name ++ '(' :: after := by
  fun_induction run name s with
  | case1 s before' after' hs =>
    cases h
    exact step_eq_call hs
  | case2 => exact nomatch h
  | case3 s next hs _ ih => rw [← step_eq_onward hs, ih h]
  | case4 => exact nomatch h

/-- The first call of a name in a text. -/
def find (name text : Text) : Outcome := run name ⟨[], text⟩

theorem find_eq_call {name text before after : Text} (h : find name text = .call before after) :
    text = before ++ name ++ '(' :: after :=
  run_eq_call h

end CallSearch

end ArrayKernel
