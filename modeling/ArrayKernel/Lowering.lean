import ArrayKernel.Settings
import ArrayKernel.Symbol.Leaf
import ArrayKernel.Symbol.View
import ArrayKernel.Tree.Order

/-!
# Lowering a tree to a table

The nodes under a root become symbols, operands first.  Every node but a loop
counter takes the next number for its name.  Buffers get their access helper
before anything uses them: the target of an assignment is written, and writing
a view writes the array under it; every other operand and the root are read.
-/

namespace ArrayKernel

/-- The positions that are read and the positions that are written. -/
structure Usage where
  read : List Nat
  written : List Nat
  deriving DecidableEq, Repr

namespace Usage

/-- Adds how a node at a position uses its operands.  Whether the node itself is
written is known by then. -/
def add (u : Usage) (position : Nat) (n : Node) : Usage :=
  match n.op with
  | .binary .assign => ⟨n.rhs.toList ++ u.read, n.lhs.toList ++ u.written⟩
  | .view _ =>
    ⟨n.children ++ u.read,
      if position ∈ u.written then n.lhs.toList ++ u.written else u.written⟩
  | _ => ⟨n.children ++ u.read, u.written⟩

/-- Notes how the node at a position uses its operands. -/
def note (t : Tree) (u : Usage) (position : Nat) : Except SymbolError Usage :=
  match t.get? position with
  | none => .error (.unknownPosition position)
  | some n => .ok (u.add position n)

/-- How the nodes under a root use each other, given their order. -/
def ofOrder (t : Tree) (root : Nat) (order : List Nat) : Except SymbolError Usage :=
  order.reverse.foldlM (note t) ⟨[root], []⟩

end Usage

/-- The symbols made so far and the number for the next name. -/
structure Progress where
  table : Table
  next : Nat

namespace Progress

/-- The symbol of the node at a position. -/
def symbol (p : Progress) (device : Device) (settings : Settings) (position : Nat)
    (node : Node) : Except SymbolError Symbol :=
  let name := SymbolName.generated settings.nameStem p.next
  match node.op with
  | .buffer strides start => Symbol.buffer device node.dtype name node.shape strides start
  | .hostScalar => .ok (.hostScalar device node.dtype name)
  | .placeholder level => .ok (.placeholder device level settings.inductionStem)
  | .binary _ => Symbol.binary device name position node p.table
  | .unary _ => Symbol.unary device name position node p.table
  | .reduce .. => Symbol.reduction device name position node p.table
  | .view _ => Symbol.view device name position node p.table
  | .loop _ => Symbol.loop device name position node p.table settings.inductionStem

/-- The number for the name after a node: a loop counter takes none. -/
def nextAfter (p : Progress) (node : Node) : Nat :=
  match node.op with
  | .placeholder _ => p.next
  | _ => p.next + 1

/-- Makes the symbol of the node at a position. -/
def place (t : Tree) (usage : Usage) (device : Device) (settings : Settings) (p : Progress)
    (position : Nat) : Except SymbolError Progress :=
  match t.get? position with
  | none => .error (.unknownPosition position)
  | some node => do
    let made ← p.symbol device settings position node
    let stored := if position ∈ usage.written then made.addStore settings.contiguous else made
    let loaded := if position ∈ usage.read then stored.addLoad settings.contiguous else stored
    let table ← p.table.insert position loaded
    return ⟨table, p.nextAfter node⟩

end Progress

namespace Table

/-- The table of the nodes under a root. -/
def ofTree (t : Tree) (root : Nat) (device : Device) (settings : Settings) :
    Except SymbolError Table := do
  let order ← (t.order root).mapError .tree
  let usage ← Usage.ofOrder t root order
  let progress ← order.foldlM (Progress.place t usage device settings) ⟨.empty, 0⟩
  return progress.table

/-- The table of a whole tree. -/
def ofWholeTree (t : Tree) (device : Device) (settings : Settings) :
    Except SymbolError Table := do
  let root ← t.root.mapError .tree
  ofTree t root device settings

end Table

end ArrayKernel
