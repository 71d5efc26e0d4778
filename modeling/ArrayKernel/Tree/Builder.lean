import ArrayKernel.Tree.Basic

/-!
# Growing a tree

One step per kind of node.  Each takes positions of operands, works out the type
and shape of the result, appends the new node and gives its position.  All checks
are made in front of the append.

Every step is also there as a function of the tree, which gives the grown tree or
an error.
-/

namespace ArrayKernel

namespace Shape

/-- The number of elements, which has to fit in 64 bits. -/
def count (s : Shape) : Except TreeError Nat :=
  match s.count? with
  | some count => .ok count
  | none => .error .overflow

/-- The strides of an array without gaps, which have to fit in 64 bits. -/
def denseStrides (s : Shape) : Except TreeError (List Nat) :=
  match s.denseStrides? with
  | some strides => .ok strides
  | none => .error .overflow

/-- The shape of an elementwise operation on two arrays that fit together. -/
def broadcast (lhs rhs : Shape) : Except TreeError Shape :=
  match broadcast? lhs rhs with
  | some shape => .ok shape
  | none => .error (.broadcastMismatch lhs rhs)

end Shape

namespace Tree

/-- The shape of a binary operation: that of the left operand if it is written, else
the two shapes broadcast. -/
def binaryShape (op : BinaryOp) (lhs rhs : Shape) : Except TreeError Shape :=
  if op.writesLeft then .ok lhs else lhs.broadcast rhs

/-- Checks the axes of a reduction in order: each is in range and none comes twice. -/
def checkAxes (rank : Nat) (seen : List Nat) : List Nat → Except TreeError Unit
  | [] => .ok ()
  | axis :: axes =>
    if rank ≤ axis then .error (.axisOutOfRange axis rank)
    else if axis ∈ seen then .error (.repeatedAxis axis)
    else checkAxes rank (axis :: seen) axes

/-- The extents of the axes that a reduction keeps. -/
def keptExtents (shape : Shape) (axes : List Nat) : Shape :=
  (shape.zipIdx.filter fun entry => entry.2 ∉ axes).map Prod.fst

end Tree

namespace Growth

open MonadExcept (ofExcept)

/-- Reads the node that an operand position refers to. -/
def operand (position : Nat) : Growth Node := do
  ofExcept ((← get).operand position)

/-- An array in memory.  The number of strides is not looked at here. -/
def buffer (dtype : ScalarType) (shape : Shape) (strides : List Nat) (start : Nat) : Growth Nat :=
  push (.leaf (.buffer strides start) dtype shape)

/-- An array without gaps that starts at its first element. -/
def dense (dtype : ScalarType) (shape : Shape) : Growth Nat := do
  let strides ← ofExcept shape.denseStrides
  buffer dtype shape strides 0

/-- A scalar handed over by the caller. -/
def hostScalar (dtype : ScalarType) : Growth Nat := push (.leaf .hostScalar dtype [])

/-- The counter of the loop at a level. -/
def placeholder (level : Nat) : Growth Nat := push (.leaf (.placeholder level) .int32 [])

/-- A unary operator with a result type of its own. -/
def unaryAs (op : UnaryOp) (arg : Nat) (dtype : ScalarType) : Growth Nat := do
  let n ← operand arg
  push ⟨.unary op, dtype, n.shape, some arg, none⟩

/-- A unary operator whose result has the type of the operand. -/
def unary (op : UnaryOp) (arg : Nat) : Growth Nat := do
  let n ← operand arg
  unaryAs op arg n.dtype

/-- A binary operator.  Comparisons give truth values, other operators the type of
the left operand. -/
def binary (op : BinaryOp) (lhs rhs : Nat) : Growth Nat := do
  let l ← operand lhs
  let r ← operand rhs
  let shape ← ofExcept (Tree.binaryShape op l.shape r.shape)
  let dtype := if op.isComparison then .bool else l.dtype
  push ⟨.binary op, dtype, shape, some lhs, some rhs⟩

/-- Stores the value in the target. -/
def assign (target value : Nat) : Growth Nat := binary .assign target value

/-- Collapses axes of the operand. -/
def reduce (op : ReduceOp) (arg : Nat) (axes : List Nat) : Growth Nat := do
  let n ← operand arg
  ofExcept (Tree.checkAxes n.shape.length [] axes)
  push ⟨.reduce op axes, n.dtype, Tree.keptExtents n.shape axes, some arg, none⟩

/-- The operand in another shape with as many elements. -/
def reshape (arg : Nat) (shape : Shape) : Growth Nat := do
  let n ← operand arg
  let input ← ofExcept n.shape.count
  let output ← ofExcept shape.count
  if input = output then
    push ⟨.view .reshape, n.dtype, shape, some arg, none⟩
  else
    throw (.sizeMismatch input output)

/-- The operand with its axes in reverse order. -/
def transpose (arg : Nat) : Growth Nat := do
  let n ← operand arg
  push ⟨.view .transpose, n.dtype, n.shape.reverse, some arg, none⟩

/-- The main diagonal of a matrix. -/
def diagonal (arg : Nat) : Growth Nat := do
  let n ← operand arg
  match n.shape with
  | [rows, columns] => push ⟨.view .diagonal, n.dtype, [min rows columns], some arg, none⟩
  | shape => throw (.notMatrix shape.length)

/-- A scalar loop around a body. -/
def loop (body : Nat) (bounds : LoopBounds) : Growth Nat := do
  let n ← operand body
  push ⟨.loop bounds, n.dtype, n.shape, some body, none⟩

end Growth

namespace Tree

/-! ## The steps as functions of the tree

Leaves have no operands, so that appending one cannot fail. -/

def buffer (t : Tree) (dtype : ScalarType) (shape : Shape) (strides : List Nat) (start : Nat) :
    Tree × Nat :=
  (t.append (.leaf (.buffer strides start) dtype shape) (by simp), t.size)

def dense (t : Tree) (dtype : ScalarType) (shape : Shape) : Except TreeError (Tree × Nat) :=
  (Growth.dense dtype shape).outcome t

def hostScalar (t : Tree) (dtype : ScalarType) : Tree × Nat :=
  (t.append (.leaf .hostScalar dtype []) (by simp), t.size)

def placeholder (t : Tree) (level : Nat) : Tree × Nat :=
  (t.append (.leaf (.placeholder level) .int32 []) (by simp), t.size)

def unaryAs (t : Tree) (op : UnaryOp) (arg : Nat) (dtype : ScalarType) :
    Except TreeError (Tree × Nat) :=
  (Growth.unaryAs op arg dtype).outcome t

def unary (t : Tree) (op : UnaryOp) (arg : Nat) : Except TreeError (Tree × Nat) :=
  (Growth.unary op arg).outcome t

def binary (t : Tree) (op : BinaryOp) (lhs rhs : Nat) : Except TreeError (Tree × Nat) :=
  (Growth.binary op lhs rhs).outcome t

def assign (t : Tree) (target value : Nat) : Except TreeError (Tree × Nat) :=
  (Growth.assign target value).outcome t

def reduce (t : Tree) (op : ReduceOp) (arg : Nat) (axes : List Nat) :
    Except TreeError (Tree × Nat) :=
  (Growth.reduce op arg axes).outcome t

def reshape (t : Tree) (arg : Nat) (shape : Shape) : Except TreeError (Tree × Nat) :=
  (Growth.reshape arg shape).outcome t

def transpose (t : Tree) (arg : Nat) : Except TreeError (Tree × Nat) :=
  (Growth.transpose arg).outcome t

def diagonal (t : Tree) (arg : Nat) : Except TreeError (Tree × Nat) :=
  (Growth.diagonal arg).outcome t

def loop (t : Tree) (body : Nat) (bounds : LoopBounds) : Except TreeError (Tree × Nat) :=
  (Growth.loop body bounds).outcome t

end Tree

end ArrayKernel
