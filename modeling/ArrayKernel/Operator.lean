import ArrayKernel.Text.Basic

/-!
# Operators

The elementwise operators and the operators of reductions.
-/

namespace ArrayKernel

/-- An elementwise operator with one operand. -/
inductive UnaryOp where
  | neg
  | not
  | abs
  | sqrt
  | exp
  | log
  | sin
  | cos
  | tanh
  | floor
  | ceil
  | cast
  deriving DecidableEq, Repr

/-- An elementwise operator with two operands. -/
inductive BinaryOp where
  | add
  | sub
  | mul
  | div
  | mod
  | max
  | min
  | pow
  | lt
  | le
  | gt
  | ge
  | eq
  | ne
  | and
  | or
  | xor
  | shl
  | shr
  /-- Stores the right operand in the left one. -/
  | assign
  deriving DecidableEq, Repr

/-- An operator that collapses axes. -/
inductive ReduceOp where
  | add
  | mul
  | max
  | min
  deriving DecidableEq, Repr

namespace BinaryOp

/-- Whether the result is a truth value. -/
def isComparison : BinaryOp → Bool
  | lt | le | gt | ge | eq | ne => true
  | _ => false

/-- Whether the operator is a function rather than a symbol in every dialect. -/
def isFunction : BinaryOp → Bool
  | max | min | pow => true
  | _ => false

/-- Whether the left operand is written. -/
def writesLeft : BinaryOp → Bool
  | assign => true
  | _ => false

end BinaryOp

namespace ReduceOp

def name : ReduceOp → Text
  | add => "add"
  | mul => "mul"
  | max => "max"
  | min => "min"

end ReduceOp

end ArrayKernel
