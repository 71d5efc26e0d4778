import ArrayKernel.Proofs.Entries
import ArrayKernel.Proofs.OperandsFirst

/-!
# The table depicts the tree under its root

Lowering gives one symbol to every position that the root reaches and to no other.  A
symbol has the kind that belongs to the operation of its node and carries the data of
the node: its type, its shape where it is an array, and its links where it has
operands.  Names are numbered in the order of the walk, loop counters apart.

Nothing here asks how the tree was grown.  A loop counter is an `int` whatever its node
says, and a leaf that was appended by hand with operands has no links.
-/

namespace ArrayKernel

namespace Operation

/-- Buffers and views: their symbols have elements. -/
def isArray : Operation → Bool
  | buffer .. | view _ => true
  | _ => false

end Operation

/-- The type of the symbol of a node. -/
def Node.symbolType (n : Node) : ScalarType :=
  match n.op with
  | .placeholder _ => .int32
  | _ => n.dtype

/-- The kind belongs to the operation, and what it records of the operation is right. -/
inductive Kind.Matches (dialect : Dialect) : Kind → Operation → Prop
  | buffer {layout : Layout} {written : Bool} {access : Option AccessPath} :
      Matches dialect (.buffer layout written access) (.buffer layout.strides layout.start)
  | hostScalar : Matches dialect .hostScalar .hostScalar
  | placeholder {level : Nat} : Matches dialect (.placeholder level) (.placeholder level)
  | binary {links : Links} {op : BinaryOp} {operand : ScalarType} :
      Matches dialect (.binary links (.ofBinary op operand dialect)) (.binary op)
  | unary {links : Links} {op : UnaryOp} {operand result : ScalarType} :
      Matches dialect (.unary links (.ofUnary op operand result dialect)) (.unary op)
  | reduction {links : Links} {op : ReduceOp} {axes : List Nat} :
      Matches dialect (.reduction links op axes.length) (.reduce op axes)
  | view {links : Links} {v : View} {shape : Shape} {storage : Storage} :
      Matches dialect (.view links v shape storage) (.view v)
  | loop {links : Links} {bounds : LoopBounds} {induction : Text} :
      Matches dialect (.loop links bounds induction) (.loop bounds)

/-- The symbol shows the node at a position. -/
structure Symbol.Depicts (s : Symbol) (device : Device) (p : Nat) (n : Node) : Prop where
  kind : s.kind.Matches device.dialect n.op
  dtype : s.dtype = n.symbolType
  device : s.device = device
  /-- An array has the shape of its node. -/
  shape : s.shape? = if n.op.isArray then some n.shape else none
  /-- A symbol that is no leaf has the links of its node. -/
  links : s.links? = if n.op.family = .leaf then none else some (n.links p)

variable {t : Tree} {usage : Usage} {device : Device} {settings : Settings} {order : List Nat}
  {table : Table} {p : Nat} {n : Node} {s : Symbol}

/-- What is made of a node depicts it. -/
theorem Makes.depicts {number : Nat} (h : Makes table number device settings p n s) :
    s.Depicts device p n := by
  obtain ⟨op, dtype, shape, lhs, rhs⟩ := n
  cases h with
  | @buffer strides start hOp hLength =>
      cases hOp
      have hKind : Kind.Matches device.dialect (.buffer ⟨shape, strides, start, hLength⟩ false none)
        (.buffer strides start) := .buffer
      exact ⟨hKind, rfl, rfl, rfl, rfl⟩
  | hostScalar hOp =>
      cases hOp
      exact ⟨.hostScalar, rfl, rfl, rfl, rfl⟩
  | placeholder hOp =>
      cases hOp
      exact ⟨.placeholder, rfl, rfl, rfl, rfl⟩
  | binary hOp =>
      cases hOp
      exact ⟨.binary, rfl, rfl, rfl, rfl⟩
  | unary hOp =>
      cases hOp
      exact ⟨.unary, rfl, rfl, rfl, rfl⟩
  | reduction hOp =>
      cases hOp
      exact ⟨.reduction, rfl, rfl, rfl, rfl⟩
  | view hOp =>
      cases hOp
      exact ⟨.view, rfl, rfl, rfl, rfl⟩
  | loop hOp =>
      cases hOp
      exact ⟨.loop, rfl, rfl, rfl, rfl⟩

/-! ## Names -/

namespace Tree

/-- The numbered positions of a list have the numbers from zero on. -/
theorem numberIn_of_getElem? {k : Nat} (hNodup : order.Nodup)
    (h : (order.filter t.isNumbered)[k]? = some p) : t.numberIn order p = k := by
  have hMem : p ∈ order.filter t.isNumbered := List.mem_of_getElem? h
  obtain ⟨hOrder, hNumbered⟩ := List.mem_filter.mp hMem
  obtain ⟨before, after, rfl⟩ := List.append_of_mem hOrder
  have hp : p ∉ before := by
    intro hBefore
    exact (List.nodup_append.mp hNodup).2.2 p hBefore p List.mem_cons_self rfl
  rw [numberIn_split hp, List.countP_eq_length_filter]
  -- the position stands behind the numbered positions before it, and only there
  rw [List.filter_append, List.filter_cons_of_pos hNumbered] at h
  have hNodupFilter := hNodup.filter t.isNumbered
  rw [List.filter_append, List.filter_cons_of_pos hNumbered] at hNodupFilter
  have hLt : (before.filter t.isNumbered).length <
      (before.filter t.isNumbered ++ p :: after.filter t.isNumbered).length := by simp
  refine (List.getElem?_inj hLt hNodupFilter).mp ?_
  rw [h]
  simp

end Tree

namespace Covered

/-- Every symbol of the table depicts the node at its position. -/
theorem depicts (hL : Covered t usage device settings order table)
    (hs : table.get? p = some s) : ∃ n, t.get? p = some n ∧ s.Depicts device p n := by
  obtain ⟨n, hn, ⟨layout, hOp, hShape, rfl⟩ | ⟨-, hMakes⟩⟩ := hL.entry hs
  · refine ⟨n, hn, ?_⟩
    obtain ⟨op, dtype, shape, lhs, rhs⟩ := n
    cases hOp
    cases hShape
    exact ⟨.buffer, rfl, rfl, rfl, rfl⟩
  · exact ⟨n, hn, hMakes.depicts⟩

theorem exists_symbol (hL : Covered t usage device settings order table) (hp : p ∈ order) :
    ∃ s, table.get? p = some s :=
  Table.contains_iff.mp ((hL.contains_iff p).mpr hp)

/-- The symbol of a numbered position is no loop counter. -/
theorem kind_ne_placeholder (hL : Covered t usage device settings order table)
    (hs : table.get? p = some s) (hNumbered : t.isNumbered p = true) (level : Nat) :
    s.kind ≠ .placeholder level := by
  intro hKind
  obtain ⟨n, hn, hDepicts⟩ := hL.depicts hs
  have hMatches := hDepicts.kind
  rw [hKind] at hMatches
  generalize hOp : n.op = op at hMatches
  cases hMatches
  unfold Tree.isNumbered at hNumbered
  simp [hn, hOp] at hNumbered

/-- The symbol of a loop counter is named by its level. -/
theorem handle_placeholder (hL : Covered t usage device settings order table)
    (hs : table.get? p = some s) (hn : t.get? p = some n) {level : Nat}
    (hOp : n.op = .placeholder level) :
    s.handle = settings.inductionStem ++ Text.ofNat level := by
  obtain ⟨m, hm, ⟨layout, hOp', -⟩ | ⟨-, hMakes⟩⟩ := hL.entry hs
  · rw [hn] at hm
    cases hm
    rw [hOp] at hOp'
    exact nomatch hOp'
  · rw [hn] at hm
    cases hm
    cases hMakes with
    | placeholder hOp' =>
        rw [hOp] at hOp'
        cases hOp'
        rfl
    | buffer hOp' | hostScalar hOp' | binary hOp' | unary hOp' | reduction hOp' | view hOp'
    | loop hOp' =>
        rw [hOp] at hOp'
        exact nomatch hOp'

/-- A symbol is a loop counter, named by its level, or named by its number. -/
theorem name_cases (hL : Covered t usage device settings order table)
    (hs : table.get? p = some s) :
    (∃ level, s.kind = .placeholder level ∧
        s.handle = settings.inductionStem ++ Text.ofNat level) ∨
      t.isNumbered p = true ∧
        s.handle = settings.nameStem ++ Text.ofNat (t.numberIn order p) := by
  obtain ⟨n, hn, hDepicts⟩ := hL.depicts hs
  by_cases hCounter : ∃ level, n.op = .placeholder level
  · obtain ⟨level, hOp⟩ := hCounter
    refine .inl ⟨level, ?_, hL.handle_placeholder hs hn hOp⟩
    have hMatches := hDepicts.kind
    rw [hOp] at hMatches
    generalize s.kind = kind at hMatches
    cases hMatches
    rfl
  · have hNumbered : t.isNumbered p = true :=
      isNumbered_of_node hn fun level hOp => hCounter ⟨level, hOp⟩
    exact .inr ⟨hNumbered, hL.handle_eq hs (hL.kind_ne_placeholder hs hNumbered)⟩

/-- The linked operands of a symbol are in the table, at smaller positions. -/
theorem operand_lt_contains (hL : Covered t usage device settings order table)
    (hs : table.get? p = some s) {links : Links} (hLinks : s.links? = some links) {c : Nat}
    (hc : links.lhs = some c ∨ links.rhs = some c) : c < p ∧ table.contains c = true := by
  obtain ⟨n, hn, hDepicts⟩ := hL.depicts hs
  rw [hDepicts.links] at hLinks
  split at hLinks
  · exact nomatch hLinks
  · next hInner =>
    cases hLinks
    have hChild : c ∈ n.children := Node.mem_children.mpr hc
    obtain ⟨before, after, rfl, hBefore⟩ := hL.behind (hL.mem_order_of_get? hs) hn hInner hChild
    exact ⟨t.child_lt hn hChild, (hL.contains_iff c).mpr (List.mem_append_left _ hBefore)⟩

end Covered

/-- **The symbol table is a faithful image of the reachable tree.**  Where a tree is lowered
from a root, the table has exactly the positions that the root reaches.  The numbered
positions take the generated names in the order of the walk, and loop counters are named
by their levels.  Every symbol depicts its node, and its linked operands are in the table
at smaller positions. -/
theorem table_depicts_reachable {root : Nat}
    (hTable : Table.ofTree t root device settings = .ok table) :
    (∀ p, table.contains p = true ↔ t.Reaches root p) ∧
      (∃ order, t.order root = .ok order ∧
        ∀ k p, (order.filter t.isNumbered)[k]? = some p →
          ∃ s, table.get? p = some s ∧ s.handle = settings.nameStem ++ Text.ofNat k) ∧
      ∀ p s, table.get? p = some s → ∃ n, t.get? p = some n ∧ s.Depicts device p n ∧
        (∀ level, n.op = .placeholder level →
          s.handle = settings.inductionStem ++ Text.ofNat level) ∧
        ∀ links c, s.links? = some links → (links.lhs = some c ∨ links.rhs = some c) →
          c < p ∧ table.contains c = true := by
  obtain ⟨order, usage, hOrder, -, hL⟩ := Covered.of_ofTree hTable
  refine ⟨fun p => ?_, ⟨order, hOrder, fun k p hk => ?_⟩, fun p s hs => ?_⟩
  · rw [hL.contains_iff, Tree.mem_order_iff hOrder]
  · have hMem := List.mem_of_getElem? hk
    obtain ⟨hp, hNumbered⟩ := List.mem_filter.mp hMem
    obtain ⟨s, hs⟩ := hL.exists_symbol hp
    refine ⟨s, hs, ?_⟩
    rw [hL.handle_eq hs (hL.kind_ne_placeholder hs hNumbered),
      Tree.numberIn_of_getElem? hL.nodup hk]
  · obtain ⟨n, hn, hDepicts⟩ := hL.depicts hs
    exact ⟨n, hn, hDepicts, fun level hOp => hL.handle_placeholder hs hn hOp,
      fun links c hLinks hc => hL.operand_lt_contains hs hLinks hc⟩

/-- A loop around the product of a matrix, its counter added, with the transposed matrix.
Nothing uses the scalar. -/
def Tree.loopedProduct : Tree :=
  let leaves := ((empty.buffer .float64 [2, 2] [2, 1] 3).1.hostScalar .float64).1.placeholder 4
  let operands := (leaves.1.append ⟨.binary .add, .float64, [2, 2], some 0, some 2⟩
    (by decide)).append ⟨.view .transpose, .float64, [2, 2], some 0, none⟩ (by decide)
  (operands.append ⟨.binary .mul, .float64, [2, 2], some 3, some 4⟩ (by decide)).append
    ⟨.loop ⟨4, 0, 7, 2⟩, .float64, [2, 2], some 5, none⟩ (by decide)

/-- The transposed matrix is the third numbered position: the loop counter, which the walk
leaves before it, takes no number, and the scalar is not reached. -/
theorem table_depicts_loopedProduct :
    ∃ table s, Table.ofTree .loopedProduct 6 .cpu {} = .ok table ∧ table.get? 4 = some s ∧
      s.handle = "obj2" ∧ s.dtype = .float64 ∧ s.shape? = some [2, 2] ∧
        s.links? = some ⟨4, .view .transpose, [2, 2], some 0, none⟩ ∧
          table.contains 0 = true ∧ Tree.loopedProduct.Reaches 6 0 := by
  have hEval : (Table.ofTree .loopedProduct 6 .cpu {}).toOption.isSome = true := by
    decide +kernel
  have hWalk : (Tree.loopedProduct.order 6).toOption = some [0, 2, 3, 4, 5, 6] := by
    decide +kernel
  obtain ⟨table, hOption⟩ := Option.isSome_iff_exists.mp hEval
  have hTable := eq_ok_of_toOption hOption
  obtain ⟨hReach, ⟨order, hOrder, hNames⟩, hSymbols⟩ := table_depicts_reachable hTable
  rw [hOrder] at hWalk
  cases hWalk
  obtain ⟨s, hs, hHandle⟩ := hNames 2 4 (by decide +kernel)
  obtain ⟨n, hn, hDepicts, -, hOperands⟩ := hSymbols 4 s hs
  cases hn
  have hLinks : s.links? = some ⟨4, .view .transpose, [2, 2], some 0, none⟩ := hDepicts.links
  obtain ⟨-, hContains⟩ := hOperands _ 0 hLinks (.inl rfl)
  exact ⟨table, s, hTable, hs, hHandle, hDepicts.dtype, hDepicts.shape, hLinks, hContains,
    (hReach 0).mp hContains⟩

end ArrayKernel
