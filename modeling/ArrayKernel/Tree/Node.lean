import ArrayKernel.Loop
import ArrayKernel.Operator
import ArrayKernel.Scalar
import ArrayKernel.Shape

/-!
# Nodes

A node of an expression tree has an operation, the type and shape of its
result, and at most two operands, given by their positions in the tree.
-/

namespace ArrayKernel

/-- A way to look at the elements of an array without moving them. -/
inductive View where
  /-- Another shape with the same elements in the same order. -/
  | reshape
  /-- The axes in reverse order. -/
  | transpose
  /-- The main diagonal of a matrix. -/
  | diagonal
  deriving DecidableEq, Repr

/-- What a node computes. -/
inductive Operation where
  /-- An array in memory: its strides and the offset of its first element. -/
  | buffer (strides : List Nat) (start : Nat)
  /-- A scalar handed over by the caller. -/
  | hostScalar
  /-- The counter of the loop at a level. -/
  | placeholder (level : Nat)
  | unary (op : UnaryOp)
  | binary (op : BinaryOp)
  | reduce (op : ReduceOp) (axes : List Nat)
  | view (v : View)
  /-- A scalar loop around its operand. -/
  | loop (bounds : LoopBounds)
  deriving DecidableEq, Repr

/-- The families of operations. -/
inductive Family where
  | leaf
  | arithmetic
  | reduction
  | view
  | controlFlow
  deriving DecidableEq, Repr

/-- A node of an expression tree. -/
structure Node where
  op : Operation
  dtype : ScalarType
  shape : Shape
  lhs : Option Nat
  rhs : Option Nat
  deriving DecidableEq, Repr

namespace View

def name : View → Text
  | reshape => "reshape"
  | transpose => "trans"
  | diagonal => "diag_vector"

end View

namespace Operation

def family : Operation → Family
  | buffer .. | hostScalar | placeholder _ => .leaf
  | unary _ | binary _ => .arithmetic
  | reduce .. => .reduction
  | view _ => .view
  | loop _ => .controlFlow

def name : Operation → Text
  | buffer .. => "Buffer"
  | hostScalar => "HostScalar"
  | placeholder _ => "Placeholder"
  | unary _ => "Unary"
  | binary _ => "Binary"
  | reduce .. => "Reduce"
  | view .reshape => "Reshape"
  | view .transpose => "Trans"
  | view .diagonal => "DiagVector"
  | loop _ => "Sfor"

end Operation

namespace Node

/-- The positions of the operands, left before right. -/
def children (n : Node) : List Nat := n.lhs.toList ++ n.rhs.toList

/-- A node without operands. -/
def leaf (op : Operation) (dtype : ScalarType) (shape : Shape) : Node :=
  ⟨op, dtype, shape, none, none⟩

@[simp] theorem children_leaf (op : Operation) (dtype : ScalarType) (shape : Shape) :
    (leaf op dtype shape).children = [] := rfl

@[simp] theorem mem_children {n : Node} {c : Nat} :
    c ∈ n.children ↔ n.lhs = some c ∨ n.rhs = some c := by
  simp [children]

end Node

end ArrayKernel
