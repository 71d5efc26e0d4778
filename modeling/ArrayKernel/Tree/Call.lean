import ArrayKernel.Tree.Builder

/-!
# Runs of calls

A tree is grown by one call of a step after the other.  What a run leaves is the tree
that its last call leaves, and the calls that fail are part of the run.
-/

namespace ArrayKernel
namespace Tree

/-- A call of a step with its arguments. -/
inductive Call where
  | buffer (dtype : ScalarType) (shape : Shape) (strides : List Nat) (start : Nat)
  | dense (dtype : ScalarType) (shape : Shape)
  | hostScalar (dtype : ScalarType)
  | placeholder (level : Nat)
  | unary (op : UnaryOp) (arg : Nat)
  | unaryAs (op : UnaryOp) (arg : Nat) (dtype : ScalarType)
  | binary (op : BinaryOp) (lhs rhs : Nat)
  | assign (target value : Nat)
  | reduce (op : ReduceOp) (arg : Nat) (axes : List Nat)
  | reshape (arg : Nat) (shape : Shape)
  | transpose (arg : Nat)
  | diagonal (arg : Nat)
  | loop (body : Nat) (bounds : LoopBounds)
  deriving DecidableEq, Repr

/-- The step that a call makes. -/
def Call.step : Call → Growth Nat
  | buffer dtype shape strides start => .buffer dtype shape strides start
  | dense dtype shape => .dense dtype shape
  | hostScalar dtype => .hostScalar dtype
  | placeholder level => .placeholder level
  | unary op arg => .unary op arg
  | unaryAs op arg dtype => .unaryAs op arg dtype
  | binary op lhs rhs => .binary op lhs rhs
  | assign target value => .assign target value
  | reduce op arg axes => .reduce op arg axes
  | reshape arg shape => .reshape arg shape
  | transpose arg => .transpose arg
  | diagonal arg => .diagonal arg
  | loop body bounds => .loop body bounds

/-- What a call gives: the grown tree and the position of the new node, or an error. -/
def call (t : Tree) (c : Call) : Except TreeError (Tree × Nat) := c.step.outcome t

/-- The tree that a run of calls leaves, from the empty tree on. -/
def ofCalls (calls : List Call) : Tree := calls.foldl (fun t c => c.step.after t) empty

end Tree
end ArrayKernel
