import ArrayKernel.Tree.Node

/-!
# Expression trees

A tree is grown from the leaves: a node is appended behind the nodes that it
uses, so the operands of a node always stand at smaller positions.  Nodes may
share operands.

Growing is a matter of steps that act on a tree.  A step that fails is NOT undone:
whatever it has appended before the error stays.
-/

namespace ArrayKernel

/-- Why a tree cannot be grown or walked as asked. -/
inductive TreeError where
  /-- The node at a position refers to a position that holds no node before it. -/
  | missingChild (position child : Nat)
  /-- A reshape changes the number of elements. -/
  | sizeMismatch (input output : Nat)
  | axisOutOfRange (axis rank : Nat)
  /-- An axis is reduced twice. -/
  | repeatedAxis (axis : Nat)
  | broadcastMismatch (lhs rhs : Shape)
  /-- The diagonal of an array that is no matrix. -/
  | notMatrix (rank : Nat)
  | empty
  /-- A number of elements or a stride does not fit in 64 bits. -/
  | overflow
  deriving DecidableEq, Repr

namespace TreeError

/-- The wording of an error. -/
def message : TreeError → Text
  | missingChild position child =>
    "node at position " ++ Text.ofNat position ++ " references missing child " ++ Text.ofNat child
  | sizeMismatch input output =>
    "reshape size mismatch: input size " ++ Text.ofNat input ++ " != output size " ++
      Text.ofNat output
  | axisOutOfRange axis rank =>
    "axis " ++ Text.ofNat axis ++ " is out of range for rank " ++ Text.ofNat rank
  | repeatedAxis axis => "axis " ++ Text.ofNat axis ++ " is reduced more than once"
  | broadcastMismatch lhs rhs =>
    "cannot broadcast " ++ Shape.text lhs ++ " with " ++ Shape.text rhs
  | notMatrix rank =>
    View.diagonal.name ++ " expects a rank-2 operand, got rank " ++ Text.ofNat rank
  | empty => "expression tree is empty"
  | overflow => "attempt to multiply with overflow"

end TreeError

/-- Nodes by position, each behind its operands. -/
structure Tree where
  nodes : Array Node
  children_lt : ∀ {position : Nat} {n : Node}, nodes[position]? = some n →
    ∀ c ∈ n.children, c < position

namespace Tree

/-- The tree without nodes. -/
def empty : Tree := ⟨#[], by simp⟩

/-- The number of nodes, which is the position of the next one. -/
def size (t : Tree) : Nat := t.nodes.size

/-- The node at a position. -/
def get? (t : Tree) (position : Nat) : Option Node := t.nodes[position]?

/-- Appends a node whose operands are in the tree. -/
def append (t : Tree) (n : Node) (h : ∀ c ∈ n.children, c < t.size) : Tree where
  nodes := t.nodes.push n
  children_lt := by
    intro position m hm c hc
    rw [Array.getElem?_push] at hm
    split at hm
    · next hp =>
      cases hm
      exact hp ▸ h c hc
    · exact t.children_lt hm c hc

end Tree

/-- A step that may grow a tree.  A step that fails leaves a tree as well: the one that has
been grown until then. -/
abbrev Growth := EStateM TreeError Tree

namespace Growth

/-- Appends a node and gives its position; the first operand that is not in the tree
is an error.  No other step changes a tree. -/
def push (n : Node) : Growth Nat := fun t =>
  match h : n.children.find? (fun c => t.size ≤ c) with
  | some c => .error (.missingChild t.size c) t
  | none => .ok t.size (t.append n fun c hc => by simpa using List.find?_eq_none.mp h c hc)

/-- The grown tree with what the step gives.  The tree that an error leaves is not told. -/
def outcome {α : Type} (g : Growth α) (t : Tree) : Except TreeError (Tree × α) :=
  match g.run t with
  | .ok a next => .ok (next, a)
  | .error e _ => .error e

/-- The tree that the step leaves, also when it fails. -/
def after {α : Type} (g : Growth α) (t : Tree) : Tree :=
  match g.run t with
  | .ok _ next => next
  | .error _ next => next

variable {t next : Tree} {n : Node} {e : TreeError}

theorem run_push_of_lt (h : ∀ c ∈ n.children, c < t.size) :
    (push n).run t = .ok t.size (t.append n h) := by
  unfold EStateM.run push
  split
  · next c hc =>
    have hle := List.find?_some hc
    have hlt := h c (List.mem_of_find?_eq_some hc)
    simp only [decide_eq_true_eq] at hle
    omega
  · rfl

theorem run_push_eq_error_iff : (push n).run t = .error e next ↔
    (∃ c, n.children.find? (fun c => t.size ≤ c) = some c ∧ e = .missingChild t.size c) ∧
      next = t := by
  unfold EStateM.run push
  split
  · next c hc => simp [hc, eq_comm]
  · next hc => simp [hc]

end Growth

namespace Tree

/-- The tree with a further node, and its position. -/
def push (t : Tree) (n : Node) : Except TreeError (Tree × Nat) := (Growth.push n).outcome t

theorem push_of_lt {t : Tree} {n : Node} (h : ∀ c ∈ n.children, c < t.size) :
    t.push n = .ok (t.append n h, t.size) := by
  unfold push Growth.outcome
  rw [Growth.run_push_of_lt h]

/-- The node that an operand position refers to. -/
def operand (t : Tree) (position : Nat) : Except TreeError Node :=
  match t.get? position with
  | some n => .ok n
  | none => .error (.missingChild t.size position)

/-- The position of the last node. -/
def root (t : Tree) : Except TreeError Nat :=
  if t.size = 0 then .error .empty else .ok (t.size - 1)

theorem lt_size_of_get? {t : Tree} {position : Nat} {n : Node} (h : t.get? position = some n) :
    position < t.size := by
  obtain ⟨hlt, -⟩ := Array.getElem?_eq_some_iff.mp h
  exact hlt

theorem get?_isSome_iff {t : Tree} {position : Nat} :
    (t.get? position).isSome ↔ position < t.size := by
  simp [get?, size]

theorem child_lt {t : Tree} {position c : Nat} {n : Node} (h : t.get? position = some n)
    (hc : c ∈ n.children) : c < position :=
  t.children_lt h c hc

@[simp] theorem size_append (t : Tree) (n : Node) (h : ∀ c ∈ n.children, c < t.size) :
    (t.append n h).size = t.size + 1 := by
  simp [size, append]

theorem get?_append (t : Tree) (n : Node) (h : ∀ c ∈ n.children, c < t.size) (position : Nat) :
    (t.append n h).get? position = if position = t.size then some n else t.get? position :=
  Array.getElem?_push

end Tree

end ArrayKernel
