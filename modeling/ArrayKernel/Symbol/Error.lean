import ArrayKernel.Tree.Basic

/-!
# Errors of symbols and tables

The ways in which a node cannot become a symbol, a table cannot be filled or
read, and a text cannot be composed.
-/

namespace ArrayKernel

/-- The kinds of symbol that a node with operands can become. -/
inductive Role where
  | binary
  | unary
  | reduction
  | view
  | loop
  deriving DecidableEq, Repr

/-- The operand of an operator: the first or the second. -/
inductive Slot where
  | first
  | second
  deriving DecidableEq, Repr

/-- What is wrong with a node or with its operand. -/
inductive OperandFault where
  | missing
  /-- A symbol of the named kind has no elements. -/
  | notArray (kind : Text)
  /-- The operation does not have the role. -/
  | wrongRole (op : Operation) (role : Role)
  /-- A reduction is over one or two axes. -/
  | axisCount (count : Nat)
  /-- A view is of an array, not of a symbol of the named kind. -/
  | notViewable (view : View) (kind : Text)
  /-- The diagonal of an array that is no matrix. -/
  | notMatrix (rank : Nat)
  deriving DecidableEq, Repr

/-- Why a symbol or a table does not give what is asked. -/
inductive SymbolError where
  | unknownPosition (position : Nat)
  | occupiedPosition (position : Nat)
  | missingAttribute (handle name : Text)
  /-- A buffer has one stride per axis. -/
  | strideCount (handle : Text) (rank strides : Nat)
  | missingOperand (handle : Text) (slot : Slot)
  | broadcastMismatch (source target : Shape)
  | invalidOperand (position : Nat) (fault : OperandFault)
  | tree (e : TreeError)
  /-- A number of elements does not fit in 64 bits. -/
  | overflow
  /-- A symbol is, through its operands, an operand of itself. -/
  | circular (position : Nat)
  deriving DecidableEq, Repr

namespace Role

/-- The role with its article. -/
def noun : Role → Text
  | binary => "a binary operator"
  | unary => "a unary operator"
  | reduction => "a reduction"
  | view => "an index modifier"
  | loop => "a loop"

end Role

namespace Slot

def text : Slot → Text
  | first => "0"
  | second => "1"

end Slot

namespace OperandFault

/-- The wording of a fault. -/
def reason : OperandFault → Text
  | missing => "missing operand"
  | notArray kind => kind ++ " is not an array"
  | wrongRole op role => op.name ++ " is not " ++ role.noun
  | axisCount count => "cannot reduce over " ++ Text.ofNat count ++ " axes at once"
  | notViewable view kind => view.name ++ " cannot wrap a " ++ kind
  | notMatrix rank => View.diagonal.name ++ " of a rank-" ++ Text.ofNat rank ++ " operand"

end OperandFault

namespace SymbolError

/-- The wording of an error. -/
def message : SymbolError → Text
  | unknownPosition position => "unknown node at position " ++ Text.ofNat position
  | occupiedPosition position =>
    "node at position " ++ Text.ofNat position ++ " is already registered"
  | missingAttribute handle name => "object " ++ handle ++ " has no attribute '" ++ name ++ "'"
  | strideCount handle rank strides =>
    "buffer " ++ handle ++ ": " ++ Text.ofNat strides ++ " strides for a rank-" ++
      Text.ofNat rank ++ " shape"
  | missingOperand handle slot =>
    "object " ++ handle ++ " evaluated without operand slot \"" ++ slot.text ++ "\""
  | broadcastMismatch source target =>
    "cannot broadcast " ++ Shape.text source ++ " to " ++ Shape.text target
  | invalidOperand position fault =>
    "invalid operand for node at position " ++ Text.ofNat position ++ ": " ++ fault.reason
  | tree e => "tree error: " ++ e.message
  | overflow => TreeError.overflow.message
  | circular position =>
    "node at position " ++ Text.ofNat position ++ " is an operand of itself"

end SymbolError

end ArrayKernel
