import ArrayKernel.Text.Blank

/-!
# Argument lists

An argument list is split at the commas that stand outside round and square
brackets.  A closing bracket without an opening one does not count.
-/

namespace ArrayKernel
namespace Text

/-- The number of open brackets after a character. -/
def nesting (depth : Nat) (c : Char) : Nat :=
  if c = '(' ∨ c = '[' then depth + 1
  else if c = ')' ∨ c = ']' then depth - 1
  else depth

/-- The first segment of a text and the further ones, where a comma outside
brackets ends a segment. -/
def segments (depth : Nat) : Text → Text × List Text
  | [] => ([], [])
  | c :: cs =>
    if c = ',' ∧ depth = 0 then
      let further := segments 0 cs
      ([], further.1 :: further.2)
    else
      let further := segments (nesting depth c) cs
      (c :: further.1, further.2)

/-- The arguments of an argument list, without the blanks around them.  A list
that is blank has no argument. -/
def splitArguments (t : Text) : List Text :=
  match segments 0 t with
  | (only, []) => if trim only = [] then [] else [trim only]
  | (first, further) => (first :: further).map trim

/-- Splits a text at the parenthesis that closes one opened before it, with the
given number of further parentheses open. -/
def closing? (depth : Nat) : Text → Option (Text × Text)
  | [] => none
  | c :: cs =>
    if c = ')' ∧ depth = 0 then
      some ([], cs)
    else
      let inner := if c = '(' then depth + 1 else if c = ')' then depth - 1 else depth
      (closing? inner cs).map fun split => (c :: split.1, split.2)

theorem closing?_eq_some {depth : Nat} {t inside after : Text}
    (h : closing? depth t = some (inside, after)) : t = inside ++ ')' :: after := by
  induction t generalizing depth inside with
  | nil => exact nomatch h
  | cons c cs ih =>
    rw [closing?] at h
    split at h
    · next hc =>
      cases h
      simp [hc.1]
    · obtain ⟨split, hs, he⟩ := Option.map_eq_some_iff.mp h
      cases he
      simp [ih hs]

end Text
end ArrayKernel
