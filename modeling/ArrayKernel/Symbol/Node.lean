import ArrayKernel.Table.Basic

/-!
# Arithmetic, reductions and loops

The symbols of nodes with operands, views apart.  The operands are in the table
before the node is.
-/

namespace ArrayKernel

namespace Links

/-- The links of a node whose operands are in the table. -/
def resolve (table : Table) (position : Nat) (node : Node) : Except SymbolError Links :=
  match node.children.find? fun c => !table.contains c with
  | some c => .error (.unknownPosition c)
  | none => .ok ⟨position, node.op, node.shape, node.lhs, node.rhs⟩

/-- The symbol at a link, if there is one. -/
def symbol? (table : Table) (link : Option Nat) : Except SymbolError (Option Symbol) :=
  match link with
  | some position => (table.lookup position).map some
  | none => .ok none

/-- The only operand of a node. -/
def operand (links : Links) (table : Table) : Except SymbolError Symbol :=
  match links.lhs with
  | some position => table.lookup position
  | none => .error (.invalidOperand links.position .missing)

end Links

namespace Symbol

/-- A binary operator, written for the type of its left operand. -/
def binary (device : Device) (name : SymbolName) (position : Nat) (node : Node)
    (table : Table) : Except SymbolError Symbol := do
  let links ← Links.resolve table position node
  match node.op with
  | .binary op =>
    let lhs ← Links.symbol? table links.lhs
    let form := Form.ofBinary op (lhs.elim node.dtype dtype) device.dialect
    return plain device node.dtype name (.binary links form)
  | op => .error (.invalidOperand position (.wrongRole op .binary))

/-- A unary operator. -/
def unary (device : Device) (name : SymbolName) (position : Nat) (node : Node)
    (table : Table) : Except SymbolError Symbol := do
  let links ← Links.resolve table position node
  match node.op with
  | .unary op =>
    let operand ← links.operand table
    let form := Form.ofUnary op operand.dtype node.dtype device.dialect
    return plain device node.dtype name (.unary links form)
  | op => .error (.invalidOperand position (.wrongRole op .unary))

/-- A reduction.  Every axis opens a naming scope. -/
def reduction (device : Device) (name : SymbolName) (position : Nat) (node : Node)
    (table : Table) : Except SymbolError Symbol := do
  let links ← Links.resolve table position node
  match node.op with
  | .reduce op axes =>
    if axes.length = 1 ∨ axes.length = 2 then
      let _ ← links.operand table
      return {
        name, device, dtype := node.dtype
        helpers := HelperSet.empty.insert (op.helper node.dtype device.dialect)
        scopes := (List.range axes.length).map reductionScope
        kind := .reduction links op axes.length }
    else
      .error (.invalidOperand position (.axisCount axes.length))
  | op => .error (.invalidOperand position (.wrongRole op .reduction))

/-- A scalar loop, which opens a naming scope. -/
def loop (device : Device) (name : SymbolName) (position : Nat) (node : Node)
    (table : Table) (stem : Text) : Except SymbolError Symbol := do
  let links ← Links.resolve table position node
  match node.op with
  | .loop bounds =>
    let _ ← links.operand table
    let kind := .loop links bounds (stem ++ Text.ofNat bounds.level)
    return (plain device node.dtype name kind).addScope ("sfor" ++ Text.ofNat bounds.level)
  | op => .error (.invalidOperand position (.wrongRole op .loop))

end Symbol

end ArrayKernel
