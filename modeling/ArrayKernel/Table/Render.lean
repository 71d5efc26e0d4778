import ArrayKernel.Symbol.Fragment
import ArrayKernel.Table.Basic

/-!
# The text of a symbol and its operands

Array operands are addressed in the loop domain of the expression around them:
the shape of the outermost node, or under a reduction the shape of the reduced
operand.  A reduction hands its accumulator to the node above it.  Operators
that stand between their operands are put in parentheses inside another
expression.

A table can be filled by hand so that a symbol is an operand of itself.  Its
text has no end, and rendering reports this when it has followed more operands
than the table has symbols.
-/

namespace ArrayKernel
namespace Table

/-- The text of an operand in a loop domain, given how the symbol at a position is
rendered. -/
def operandText (t : Table) (render : Nat → Option Shape → Except SymbolError Text)
    (domain : Option Shape) (position : Nat) : Except SymbolError Text := do
  let s ← t.lookup position
  match s.kind with
  | .reduction .. => s.attr "acc"
  | .binary _ form =>
    let text ← render position domain
    return if form.needsGrouping then "(" ++ text ++ ")" else text
  | .buffer .. | .view .. =>
    match domain with
    | some shape => s.broadcast shape
    | none => render position none
  | _ => render position domain

/-- The text of an operand that may be absent. -/
def operandText? (t : Table) (render : Nat → Option Shape → Except SymbolError Text)
    (domain : Option Shape) : Option Nat → Except SymbolError (Option Text)
  | none => .ok none
  | some position => (t.operandText render domain position).map some

/-- The loop domain of the operands of a symbol. -/
def operandDomain (s : Symbol) (links : Links) (domain : Option Shape) : Option Shape :=
  match s.kind with
  | .reduction .. => none
  | _ => some (domain.getD links.shape)

/-- The text of a symbol in a loop domain, following operands to a given depth. -/
def renderWithin (t : Table) : Nat → Nat → Option Shape → Except SymbolError Text
  | 0, position, _ => .error (.circular position)
  | depth + 1, position, domain => do
    let s ← t.lookup position
    match s.kind.composed? with
    | none => s.evaluate none none
    | some links =>
      let inner := operandDomain s links domain
      let lhs ← t.operandText? (t.renderWithin depth) inner links.lhs
      let rhs ← t.operandText? (t.renderWithin depth) inner links.rhs
      s.evaluate lhs rhs

/-- The text of the symbol at a position. -/
def render (t : Table) (position : Nat) : Except SymbolError Text :=
  t.renderWithin (t.size + 1) position none

end Table
end ArrayKernel
