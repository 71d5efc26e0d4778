import ArrayKernel.Symbol.Basic

/-!
# Fragments

The text of one symbol, given the text of its operands.  An array is addressed
by the indices of the loop domain: its axes are aligned with the last axes of
the domain, and an axis of extent one is pinned to its only index.
-/

namespace ArrayKernel

namespace Shape

/-- The indices of an array at the axes of a loop domain, which start with the given
axis. -/
def domainIndices? (axis : Nat) : Shape → Shape → Option (List IndexExpr)
  | [], _ => some []
  | _ :: _, [] => none
  | extent :: extents, target :: targets =>
    if extent = 1 then (domainIndices? (axis + 1) extents targets).map (.const 0 :: ·)
    else if extent = target then
      (domainIndices? (axis + 1) extents targets).map (.domainIndex axis :: ·)
    else none

/-- The indices of an array in a loop domain. -/
def broadcastIndices? (source target : Shape) : Option (List IndexExpr) :=
  if source.length ≤ target.length then
    let offset := target.length - source.length
    domainIndices? offset source (target.drop offset)
  else
    none

end Shape

namespace Symbol

/-- The element of an array that belongs to an index of a loop domain. -/
def elementRef (s : Symbol) (domain : Shape) : Except SymbolError ElementRef :=
  match s.shape? with
  | none =>
    let position := s.links?.elim 0 Links.position
    .error (.invalidOperand position (.notArray s.kind.name))
  | some shape =>
    match shape.broadcastIndices? domain with
    | some indices => .ok (.through s.accessName indices)
    | none => .error (.broadcastMismatch shape domain)

/-- The text of the element of an array that belongs to an index of a loop domain. -/
def broadcast (s : Symbol) (domain : Shape) : Except SymbolError Text :=
  (s.elementRef domain).map ElementRef.text

/-- The text of an operand. -/
def operandText (s : Symbol) (slot : Slot) (text : Option Text) : Except SymbolError Text :=
  match text with
  | some t => .ok t
  | none => .error (.missingOperand s.handle slot)

/-- The text of a symbol, given the texts of its operands. -/
def evaluate (s : Symbol) (lhs rhs : Option Text) : Except SymbolError Text :=
  match s.kind with
  | .buffer layout _ _ => s.broadcast layout.shape
  | .view _ _ shape _ => s.broadcast shape
  | .hostScalar | .placeholder _ => s.attr "name"
  | .binary _ form => do
    let l ← s.operandText .first lhs
    let r ← s.operandText .second rhs
    return form.binaryText l r
  | .unary _ form => do
    let operand ← s.operandText .first lhs
    return form.unaryText operand
  | .reduction .. => do
    -- the innermost accumulator is updated
    let target ← s.attr (if s.hasAttr "acc_inner" then "acc_inner" else "acc")
    let combine ← s.attr "combine"
    let operand ← s.operandText .first lhs
    return target ++ " = " ++ combine ++ "(" ++ target ++ ", " ++ operand ++ ")"
  | .loop .. => s.operandText .first lhs

end Symbol

end ArrayKernel
