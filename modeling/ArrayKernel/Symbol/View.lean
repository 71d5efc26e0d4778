import ArrayKernel.Index.Reshape
import ArrayKernel.Symbol.Node

/-!
# Views

A view has a helper of its own, which finds an element through the helper of
the array under it.  Where strides describe the array under a diagonal, the
diagonal has a stride too and finds its elements itself.
-/

namespace ArrayKernel

namespace View

/-- The storage of a view of an array with the given rank. -/
def storage (v : View) (operand : Storage) (rank : Nat) : Storage :=
  match v with
  | .reshape => { operand with strides := [], shared := none }
  | .transpose =>
    { operand with
      strides := (List.range rank).map fun axis => operand.stride? (rank - 1 - axis)
      shared := none }
  | .diagonal =>
    match operand.stride? 0, operand.stride? 1 with
    | some rows, some columns =>
      let stride := IndexExpr.group (.add rows columns)
      { operand with strides := [some stride], shared := some stride }
    | _, _ => { operand with strides := [], shared := none }

/-- The element of a view, through the helper of the array under it.  The result is
`none` where a number of elements does not fit in 64 bits. -/
def elementRef? (v : View) (helper : Text) (storage : Storage) (shape source : Shape) :
    Option ElementRef :=
  let names := IndexExpr.axisNames shape.length
  match v with
  | .reshape => do
    let place ← IndexExpr.flatten? names shape
    let indices ← IndexExpr.unflatten? place source
    return .through helper indices
  | .transpose => some (.through helper (names.reverse.map .var))
  | .diagonal =>
    let index := IndexExpr.var (IndexExpr.axisName 0)
    match storage.shared with
    | some stride =>
      some (.stored storage.pointer (.add (.var storage.start) (.mul (.group index) stride)))
    | none => some (.through helper [index, index])

end View

namespace Symbol

/-- The symbol of a view of an array. -/
def viewOf (device : Device) (name : SymbolName) (node : Node) (links : Links) (v : View)
    (operand : Symbol) (source : Shape) (under : Storage) : Except SymbolError Symbol :=
  let storage := v.storage under source.length
  match v.elementRef? operand.accessName storage node.shape source with
  | none => .error .overflow
  | some element =>
    let helper : Helper :=
      ⟨ArrayKernel.accessName name.text, IndexExpr.axisNames node.shape.length, element.text⟩
    .ok {
      name, device, dtype := node.dtype
      helpers := operand.helpers.insert helper
      scopes := []
      kind := .view links v node.shape storage }

/-- A view of an array; the diagonal is that of a matrix. -/
def view (device : Device) (name : SymbolName) (position : Nat) (node : Node)
    (table : Table) : Except SymbolError Symbol := do
  let links ← Links.resolve table position node
  match node.op with
  | .view v =>
    let operand ← links.operand table
    match operand.array? with
    | none => .error (.invalidOperand position (.notViewable v operand.kind.name))
    | some (source, under) =>
      if v = .diagonal ∧ source.length ≠ 2 then
        .error (.invalidOperand position (.notMatrix source.length))
      else
        viewOf device name node links v operand source under
  | op => .error (.invalidOperand position (.wrongRole op .view))

end Symbol

end ArrayKernel
