import ArrayKernel.Proofs.Addressing
import ArrayKernel.Proofs.Calls

/-!
# Rendering the nodes of a lowered tree

Without assignments and without axes of extent zero, every symbol of a lowered tree has
a text.  Where a path of elementwise nodes leads from a node to an array, the text of
the node shows an access of the array at the end of that path, and the arguments of the
access denote the index that broadcasting through every shape on the path gives.

With an assignment this fails: its shape is that of the target, which the value need
not fit.
-/

namespace ArrayKernel

/-! ## Paths of elementwise nodes -/

namespace Operation

/-- Unary and binary operators and loops: their operands share the loop domain. -/
def isElementwise : Operation → Bool
  | unary _ | binary _ | loop _ => true
  | _ => false

end Operation

/-- The operand of a node in a slot. -/
def Node.operand? (n : Node) : Slot → Option Nat
  | .first => n.lhs
  | .second => n.rhs

theorem Node.mem_children_of_operand? {n : Node} {slot : Slot} {c : Nat}
    (h : n.operand? slot = some c) : c ∈ n.children := by
  cases slot with
  | first => exact mem_children.mpr (.inl h)
  | second => exact mem_children.mpr (.inr h)

namespace Tree

/-- A path of elementwise nodes leads from the position `p` to `q`, and `toOperand` takes
an index of the node at `p` through the shape of every node on the path. -/
inductive Reached (t : Tree) :
    (p : Nat) → (path : List Slot) → (q : Nat) → (toOperand : List Nat → List Nat) → Prop
  | here {p : Nat} : Reached t p [] p id
  | operand {p c q : Nat} {slot : Slot} {path : List Slot} {n m : Node}
      {toOperand : List Nat → List Nat} (hNode : t.get? p = some n)
      (hElementwise : n.op.isElementwise = true) (hSlot : n.operand? slot = some c)
      (hChild : t.get? c = some m) (hRest : Reached t c path q toOperand) :
      Reached t p (slot :: path) q (toOperand ∘ m.shape.project)

/-- The node whose shape is the loop domain of the text at a position, and the way to it:
the node itself, or the operand of a reduction. -/
def DomainAt (t : Tree) (p : Nat) (lead : List Slot) (start : Nat) : Prop :=
  ∃ n, t.get? p = some n ∧
    match n.op with
    | .reduce .. => lead = [.first] ∧ n.lhs = some start
    | _ => lead = [] ∧ start = p

/-- A tree without assignments and without axes of extent zero. -/
structure Pointwise (t : Tree) : Prop where
  built : t.Built
  no_assign : ∀ {p n}, t.get? p = some n → n.op ≠ .binary .assign
  positive : ∀ {p n}, t.get? p = some n → 0 ∉ n.shape

variable {t : Tree} {p c q : Nat} {n m : Node} {slot : Slot}

/-- A node that wraps another has no further operand. -/
theorem Wraps.operand_eq {o : Node} (hWraps : t.Wraps n o) (hSlot : n.operand? slot = some c)
    (hChild : t.get? c = some m) : o = m := by
  cases slot with
  | first => exact hWraps.eq_of_lhs hSlot hChild
  | second =>
      obtain ⟨-, -, hRhs, -⟩ := hWraps
      have hNone : n.rhs = some c := hSlot
      rw [hRhs] at hNone
      cases hNone

/-- The operands of an elementwise node fit its shape. -/
theorem Pointwise.operand_fits (h : t.Pointwise) (hNode : t.get? p = some n)
    (hElementwise : n.op.isElementwise = true) (hSlot : n.operand? slot = some c)
    (hChild : t.get? c = some m) : m.shape.Fits n.shape := by
  have hFormed := h.built.formed hNode
  unfold Formed at hFormed
  cases hOp : n.op with
  | unary op =>
      rw [hOp] at hFormed
      obtain ⟨o, hWraps, hShape⟩ := hFormed
      rw [hShape, hWraps.operand_eq hSlot hChild]
      exact Shape.Fits.refl _
  | loop bounds =>
      rw [hOp] at hFormed
      obtain ⟨o, hWraps, hShape, -⟩ := hFormed
      rw [hShape, hWraps.operand_eq hSlot hChild]
      exact Shape.Fits.refl _
  | binary op =>
      rw [hOp] at hFormed
      obtain ⟨l, r, a, b, hl, hr, ha, hb, hShape, -⟩ := hFormed
      have hNot : op ≠ .assign := by
        rintro rfl
        exact h.no_assign hNode hOp
      rw [binaryShape_of_ne_assign hNot, Shape.broadcast_eq_ok_iff] at hShape
      obtain ⟨hLeft, hRight⟩ := Shape.fits_of_broadcast? hShape (h.positive ha) (h.positive hb)
      cases slot with
      | first =>
          have hSame : n.lhs = some c := hSlot
          rw [hl] at hSame
          cases hSame
          rw [hChild] at ha
          cases ha
          exact hLeft
      | second =>
          have hSame : n.rhs = some c := hSlot
          rw [hr] at hSame
          cases hSame
          rw [hChild] at hb
          cases hb
          exact hRight
  | buffer | hostScalar | placeholder | reduce | view =>
      rw [hOp] at hElementwise
      cases hElementwise

/-- Broadcasting step by step along a path is broadcasting at once. -/
theorem Reached.project_eq (h : t.Pointwise) {path : List Slot} {toOperand : List Nat → List Nat}
    (hPath : t.Reached p path q toOperand) (hn : t.get? p = some n) (hm : t.get? q = some m) :
    m.shape.Fits n.shape ∧
      ∀ {index}, n.shape.InBounds index → toOperand index = m.shape.project index := by
  induction hPath generalizing n with
  | here =>
      rw [hn] at hm
      cases hm
      refine ⟨Shape.Fits.refl _, fun hIn => ?_⟩
      exact (Shape.project_eq_self hIn).symm
  | operand hNode hElementwise hSlot hChild hRest ih =>
      rw [hNode] at hn
      cases hn
      have hFits := h.operand_fits hNode hElementwise hSlot hChild
      obtain ⟨hRestFits, hRestEq⟩ := ih hChild hm
      refine ⟨hRestFits.trans hFits, fun {index} hIn => ?_⟩
      -- the rest of the path starts at the index of the operand
      have hMiddle := Shape.project_inBounds hFits hIn
      have hLength := hFits.1
      rw [← hIn.length_eq] at hLength
      rw [Function.comp_apply, hRestEq hMiddle, Shape.project_project hRestFits hLength]

end Tree

/-! ## Texts and the texts inside them -/

namespace Table

/-- The text of the symbol at `p` is put together from the texts of its operands, and at
the end of a path of operands the text `part` stands for the symbol at `q`. -/
inductive Places (table : Table) :
    (p : Nat) → (text : Text) → (path : List Slot) → (q : Nat) → (part : Text) → Prop
  | here {p : Nat} {text : Text} : Places table p text [] p text
  | first {p c q : Nat} {s : Symbol} {links : Links} {text l inner part : Text} {r : Option Text}
      {path : List Slot} (hs : table.get? p = some s) (hLinks : s.kind.composed? = some links)
      (hChild : links.lhs = some c) (hText : s.evaluate (some l) r = .ok text)
      (hGroup : l = inner ∨ l = "(" ++ inner ++ ")") (hRest : Places table c inner path q part) :
      Places table p text (.first :: path) q part
  | second {p c q : Nat} {s : Symbol} {links : Links} {text r inner part : Text}
      {l : Option Text} {path : List Slot} (hs : table.get? p = some s)
      (hLinks : s.kind.composed? = some links) (hChild : links.rhs = some c)
      (hText : s.evaluate l (some r) = .ok text)
      (hGroup : r = inner ∨ r = "(" ++ inner ++ ")") (hRest : Places table c inner path q part) :
      Places table p text (.second :: path) q part

/-- Every array at the end of a path from `p` is accessed in the text of `p` by the
indices of a loop domain. -/
def ShowsArrays (table : Table) (t : Tree) (domain : Shape) (p : Nat) (text : Text) : Prop :=
  ∀ ⦃path : List Slot⦄ ⦃q : Nat⦄ ⦃toOperand : List Nat → List Nat⦄ ⦃s : Symbol⦄ ⦃shape : Shape⦄,
    t.Reached p path q toOperand → table.get? q = some s → s.shape? = some shape →
      ∃ indices, shape.broadcastIndices? domain = some indices ∧
        table.Places p text path q (ElementRef.through s.accessName indices).text

/-- The number of symbols at positions before `p`. -/
def countBefore (table : Table) (p : Nat) : Nat := table.entries.countP fun e => e.1 < p

theorem countBefore_le_size (table : Table) (p : Nat) : table.countBefore p ≤ table.size :=
  List.countP_le_length

theorem countBefore_lt {table : Table} {c p : Nat} {s : Symbol} (hc : table.get? c = some s)
    (hLt : c < p) : table.countBefore c < table.countBefore p := by
  have hMem := get?_eq_some_iff.mp hc
  obtain ⟨front, back, hEntries⟩ := List.append_of_mem hMem
  have hMono (entries : List (Nat × Symbol)) :
      entries.countP (fun e => e.1 < c) ≤ entries.countP (fun e => e.1 < p) := by
    refine List.countP_mono_left fun e _ he => ?_
    simp only [decide_eq_true_eq] at he ⊢
    omega
  have hFront := hMono front
  have hBack := hMono back
  unfold countBefore
  rw [hEntries]
  simp only [List.countP_append, List.countP_cons, Nat.lt_irrefl, decide_false, hLt, decide_true,
    Bool.false_eq_true, if_false, if_true]
  omega

variable {table : Table} {t : Tree} {p : Nat} {s : Symbol}

/-- A symbol that is no array and begins no path shows no arrays. -/
theorem showsArrays_of_not {n : Node} {shape : Shape} (hn : t.get? p = some n)
    (hNot : n.op.isElementwise = false) (hs : table.get? p = some s) (hShape : s.shape? = none)
    (text : Text) : table.ShowsArrays t shape p text := by
  intro path q toOperand u uShape hPath hu huShape
  cases hPath with
  | here =>
      rw [hs] at hu
      cases hu
      rw [hShape] at huShape
      exact nomatch huShape
  | operand hNode hElementwise =>
      rw [hn] at hNode
      cases hNode
      rw [hNot] at hElementwise
      exact nomatch hElementwise

/-- An array shows itself. -/
theorem showsArrays_of_array {n : Node} {shape arrayShape : Shape} {indices : List IndexExpr}
    (hn : t.get? p = some n) (hNot : n.op.isElementwise = false) (hs : table.get? p = some s)
    (hShape : s.shape? = some arrayShape)
    (hIndices : arrayShape.broadcastIndices? shape = some indices) :
    table.ShowsArrays t shape p (ElementRef.through s.accessName indices).text := by
  intro path q toOperand u uShape hPath hu huShape
  cases hPath with
  | here =>
      rw [hs] at hu
      cases hu
      rw [hShape] at huShape
      cases huShape
      exact ⟨indices, hIndices, .here⟩
  | operand hNode hElementwise =>
      rw [hn] at hNode
      cases hNode
      rw [hNot] at hElementwise
      exact nomatch hElementwise

end Table

/-! ## Symbols by the operation of their node -/

/-- What the symbol of a node is, as far as its text goes. -/
inductive NodeSymbol (n : Node) (p : Nat) (s : Symbol) : Prop
  | array (hFamily : n.op.family = .leaf ∨ n.op.family = .view) (hShape : s.shape? = some n.shape)
  | scalar (hFamily : n.op.family = .leaf) (hScalar : s.IsScalar)
  | reduction {op : ReduceOp} {axes : List Nat} (hOp : n.op = .reduce op axes)
      (hKind : s.kind = .reduction (n.links p) op axes.length)
  | binary {op : BinaryOp} {form : Form} (hOp : n.op = .binary op)
      (hKind : s.kind = .binary (n.links p) form)
  | unary {op : UnaryOp} {form : Form} (hOp : n.op = .unary op)
      (hKind : s.kind = .unary (n.links p) form)
  | loop {bounds : LoopBounds} {induction : Text} (hOp : n.op = .loop bounds)
      (hKind : s.kind = .loop (n.links p) bounds induction)

theorem Operation.isElementwise_eq_false {op : Operation}
    (h : op.family = .leaf ∨ op.family = .view) : op.isElementwise = false := by
  cases op with
  | unary | binary | loop => exact absurd h (by simp [Operation.family])
  | buffer | hostScalar | placeholder | reduce | view => rfl

namespace Covered

variable {t : Tree} {usage : Usage} {device : Device} {settings : Settings} {order : List Nat}
  {table : Table} {p : Nat} {s : Symbol} {links : Links} {form : Form}

/-- The forms of operators in a table are those of operators. -/
theorem regular_of_binary (hL : Covered t usage device settings order table)
    (hs : table.get? p = some s) (hKind : s.kind = .binary links form) : form.Regular 2 := by
  obtain ⟨n, -, ⟨layout, -, -, rfl⟩ | ⟨-, hMakes⟩⟩ := hL.entry hs
  · cases hKind
  · cases hMakes with
    | binary =>
        cases hKind
        exact Form.regular_ofBinary ..
    | _ => cases hKind

theorem regular_of_unary (hL : Covered t usage device settings order table)
    (hs : table.get? p = some s) (hKind : s.kind = .unary links form) : form.Regular 1 := by
  obtain ⟨n, -, ⟨layout, -, -, rfl⟩ | ⟨-, hMakes⟩⟩ := hL.entry hs
  · cases hKind
  · cases hMakes with
    | unary =>
        cases hKind
        exact Form.regular_ofUnary ..
    | _ => cases hKind

end Covered

namespace Lowered

variable {t : Tree} {usage : Usage} {device : Device} {settings : Settings} {order : List Nat}
  {table : Table} {p : Nat} {s : Symbol}

theorem nodeSymbol (hL : Lowered t usage device settings order table)
    (hs : table.get? p = some s) {n : Node} (hn : t.get? p = some n) : NodeSymbol n p s := by
  obtain ⟨m, hm, ⟨layout, hOp, hShape, rfl⟩ | ⟨hNot, hMakes⟩⟩ := hL.entry hs
  · rw [hn] at hm
    cases hm
    refine .array (.inl (by rw [hOp]; rfl)) ?_
    rw [hShape]
    rfl
  · rw [hn] at hm
    cases hm
    cases hMakes with
    | buffer => exact absurd rfl (hNot _ _ _)
    | hostScalar hOp => exact .scalar (by rw [hOp]; rfl) (.inl rfl)
    | placeholder hOp => exact .scalar (by rw [hOp]; rfl) (.inr ⟨_, rfl⟩)
    | binary hOp => exact .binary hOp rfl
    | unary hOp => exact .unary hOp rfl
    | reduction hOp => exact .reduction hOp rfl
    | view hOp => exact .array (.inr (by rw [hOp]; rfl)) rfl
    | loop hOp => exact .loop hOp rfl

/-- The operands of a node that is no leaf are in the table. -/
theorem exists_child (hL : Lowered t usage device settings order table)
    (hs : table.get? p = some s) {n : Node} (hn : t.get? p = some n)
    (hInner : n.op.family ≠ .leaf) {c : Nat} (hc : c ∈ n.children) :
    ∃ u, table.get? c = some u := by
  obtain ⟨before, after, rfl, hMem⟩ := hL.behind (hL.mem_order_of_get? hs) hn hInner hc
  exact Table.contains_iff.mp ((hL.contains_iff c).mpr (List.mem_append_left _ hMem))

/-- The links of a symbol whose text is composed of those of its operands are those of its
node, and all but binary operators have one operand. -/
theorem links_of_composed (hL : Lowered t usage device settings order table)
    (hs : table.get? p = some s) {n : Node} (hn : t.get? p = some n) {links : Links}
    (hLinks : s.kind.composed? = some links) :
    links = n.links p ∧ ((∀ form, s.kind ≠ .binary links form) → ∃ m, t.Wraps n m) := by
  have hFormed := hL.built.formed hn
  unfold Tree.Formed at hFormed
  cases hL.nodeSymbol hs hn with
  | array hFamily hShape =>
      rw [Symbol.composed?_of_shape? hShape] at hLinks
      exact nomatch hLinks
  | scalar hFamily hScalar =>
      rw [hScalar.composed?] at hLinks
      exact nomatch hLinks
  | binary hOp hKind =>
      rw [hKind] at hLinks
      cases hLinks
      exact ⟨rfl, fun hNot => absurd hKind (hNot _)⟩
  | reduction hOp hKind | unary hOp hKind | loop hOp hKind =>
      rw [hKind] at hLinks
      rw [hOp] at hFormed
      cases hLinks
      obtain ⟨m, hWraps, -⟩ := hFormed
      exact ⟨rfl, fun _ => ⟨m, hWraps⟩⟩

/-- The operands of elementwise nodes are those of symbols that are composed and no
reductions. -/
theorem isElementwise_iff (hL : Lowered t usage device settings order table)
    (hs : table.get? p = some s) {n : Node} (hn : t.get? p = some n) :
    n.op.isElementwise = true ↔
      s.kind.composed?.isSome = true ∧ ∀ links op scopes, s.kind ≠ .reduction links op scopes := by
  cases hL.nodeSymbol hs hn with
  | array hFamily hShape =>
      rw [Operation.isElementwise_eq_false hFamily, Symbol.composed?_of_shape? hShape]
      simp
  | scalar hFamily hScalar =>
      rw [Operation.isElementwise_eq_false (.inl hFamily), hScalar.composed?]
      simp
  | reduction hOp hKind =>
      rw [hOp, hKind]
      simp [Operation.isElementwise]
  | binary hOp hKind | unary hOp hKind | loop hOp hKind =>
      rw [hOp, hKind]
      simp [Operation.isElementwise, Kind.composed?]

/-- An array comes from a node of its shape that begins no path. -/
theorem node_of_shape? (hL : Lowered t usage device settings order table)
    (hs : table.get? p = some s) {n : Node} (hn : t.get? p = some n) {shape : Shape}
    (hShape : s.shape? = some shape) : shape = n.shape ∧ n.op.isElementwise = false := by
  constructor
  · obtain ⟨shape', storage, hStorage⟩ := exists_array? (Symbol.isArray_of_shape? hShape)
    obtain ⟨m, hm, hSame, -⟩ := hL.array_node hs hStorage
    rw [hn] at hm
    cases hm
    rw [Symbol.shape?_eq, hStorage] at hShape
    exact (Option.some.inj hShape).symm.trans hSame
  · refine Bool.eq_false_iff.mpr fun hElementwise => ?_
    have hComposed := ((hL.isElementwise_iff hs hn).mp hElementwise).1
    rw [Symbol.composed?_of_shape? hShape] at hComposed
    exact nomatch hComposed

end Lowered

/-! ## What the texts show -/

namespace Table

/-- The text of an operand, which may be in parentheses, shows the arrays behind it. -/
def OperandShown (table : Table) (t : Tree) (domain : Shape) (c : Nat) (text : Text) : Prop :=
  ∃ inner : Text, (text = inner ∨ text = "(" ++ inner ++ ")") ∧ table.ShowsArrays t domain c inner

/-- The text of the symbol at a position shows the arrays behind it in the loop domain, or
without one in its own shape.  An array by itself has no other loop domain. -/
def ShowsWithin (table : Table) (t : Tree) (p : Nat) (domain : Option Shape) (text : Text) : Prop :=
  ∀ ⦃n : Node⦄ ⦃s : Symbol⦄, t.get? p = some n → table.get? p = some s →
    (s.isArray = true → domain = none) → table.ShowsArrays t (domain.getD n.shape) p text

variable {table : Table} {t : Tree} {p : Nat} {s : Symbol} {n : Node} {domain : Shape}

/-- A text that is put together from the texts of operands shows what they show. -/
theorem showsArrays_of_operands (hn : t.get? p = some n) (hs : table.get? p = some s)
    (hLinks : s.kind.composed? = some (n.links p)) {lhs rhs : Option Text} {text : Text}
    (hText : s.evaluate lhs rhs = .ok text)
    (hLhs : ∀ c, n.lhs = some c → ∃ l, lhs = some l ∧ table.OperandShown t domain c l)
    (hRhs : ∀ c, n.rhs = some c → ∃ r, rhs = some r ∧ table.OperandShown t domain c r) :
    table.ShowsArrays t domain p text := by
  intro path q toOperand u shape hPath hu hShape
  cases hPath with
  | here =>
      rw [hs] at hu
      cases hu
      rw [Symbol.composed?_of_shape? hShape] at hLinks
      exact nomatch hLinks
  | @operand _ c _ slot path m o toOperand hNode hElementwise hSlot hChild hRest =>
      rw [hn] at hNode
      cases hNode
      cases slot with
      | first =>
          obtain ⟨l, rfl, inner, hGroup, hShows⟩ := hLhs c hSlot
          obtain ⟨indices, hIndices, hPlaces⟩ := hShows hRest hu hShape
          exact ⟨indices, hIndices, .first hs hLinks hSlot hText hGroup hPlaces⟩
      | second =>
          obtain ⟨r, rfl, inner, hGroup, hShows⟩ := hRhs c hSlot
          obtain ⟨indices, hIndices, hPlaces⟩ := hShows hRest hu hShape
          exact ⟨indices, hIndices, .second hs hLinks hSlot hText hGroup hPlaces⟩

end Table

namespace Lowered

variable {t : Tree} {usage : Usage} {device : Device} {settings : Settings} {order : List Nat}
  {table : Table} {p : Nat} {s : Symbol} {n : Node} {domain : Option Shape} {text : Text}

/-- An operand shows the arrays behind it if the texts of symbols do. -/
theorem operandShown (hL : Lowered t usage device settings order table) (hn : t.get? p = some n)
    (h : table.AsOperand (table.ShowsWithin t) domain p text) :
    table.OperandShown t (domain.getD n.shape) p text := by
  cases h with
  | accumulator hs hKind =>
      -- the accumulator stands for a reduction, whatever is under it
      have hNot : n.op.isElementwise = false := by
        refine Bool.eq_false_iff.mpr fun hElementwise => ?_
        exact ((hL.isElementwise_iff hs hn).mp hElementwise).2 _ _ _ hKind
      refine ⟨_, .inl rfl, Table.showsArrays_of_not hn hNot hs ?_ _⟩
      rw [Symbol.shape?, hKind]
      rfl
  | element hs hShape hDomain hText =>
      subst hDomain
      obtain ⟨indices, hIndices, rfl⟩ := (Symbol.broadcast_eq_ok_iff hShape).mp hText
      exact ⟨_, .inl rfl, Table.showsArrays_of_array hn (hL.node_of_shape? hs hn hShape).2 hs hShape
        hIndices⟩
  | grouped hs hKind hGroups hText =>
      refine ⟨_, .inr rfl, hText hn hs fun hArray => ?_⟩
      unfold Symbol.isArray Symbol.shape? at hArray
      rw [hKind] at hArray
      cases hArray
  | plain hs hExposed hArray hText => exact ⟨text, .inl rfl, hText hn hs hArray⟩

theorem operandShown_within (hL : Lowered t usage device settings order table) {shape : Shape}
    (h : table.AsOperand (table.ShowsWithin t) (some shape) p text) :
    table.OperandShown t shape p text := by
  obtain ⟨s, hs⟩ := h.exists_symbol
  obtain ⟨n, hn, -⟩ := hL.entry hs
  exact hL.operandShown hn h

/-- One step of rendering: a symbol with one operand shows what the operand shows. -/
theorem showsArrays_of_operand (hL : Lowered t usage device settings order table)
    (hn : t.get? p = some n) (hs : table.get? p = some s) {links : Links}
    (hLinks : s.kind.composed? = some links) (hNot : ∀ form, s.kind ≠ .binary links form)
    {a : Nat} {l : Text} (ha : links.lhs = some a) (hText : s.evaluate (some l) none = .ok text)
    (hl : table.AsOperand (table.ShowsWithin t) (some (domain.getD links.shape)) a l) :
    table.ShowsArrays t (domain.getD n.shape) p text := by
  obtain ⟨rfl, hOne⟩ := hL.links_of_composed hs hn hLinks
  obtain ⟨m, -, -, hRhs, -⟩ := hOne hNot
  refine Table.showsArrays_of_operands hn hs hLinks hText ?_ ?_
  · intro c hc
    cases ha.symm.trans hc
    exact ⟨l, rfl, hL.operandShown_within hl⟩
  · intro c hc
    rw [hRhs] at hc
    exact nomatch hc

/-- One step of rendering: the text of a symbol shows the arrays behind it if those of its
operands do. -/
theorem showsWithin_of_composes (hL : Lowered t usage device settings order table)
    (h : table.Composes (table.AsOperand (table.ShowsWithin t)) p domain text) :
    table.ShowsWithin t p domain text := by
  intro n u hn hu hArray
  have hEnds (hKind : u.kind.composed? = none ∨
      ∃ links op scopes, u.kind = .reduction links op scopes) : n.op.isElementwise = false := by
    refine Bool.eq_false_iff.mpr fun hElementwise => ?_
    obtain ⟨hSome, hNot⟩ := (hL.isElementwise_iff hu hn).mp hElementwise
    rcases hKind with hNone | ⟨links, op, scopes, hKind⟩
    · rw [hNone] at hSome
      cases hSome
    · exact hNot links op scopes hKind
  cases h with
  | array hs hShape hText =>
      rw [hu] at hs
      cases hs
      -- the only loop domain of an array by itself is its own shape
      cases hArray (Symbol.isArray_of_shape? hShape)
      obtain ⟨rfl, hNot⟩ := hL.node_of_shape? hu hn hShape
      obtain ⟨indices, hIndices, rfl⟩ := (Symbol.broadcast_eq_ok_iff hShape).mp hText
      exact Table.showsArrays_of_array hn hNot hu hShape hIndices
  | scalar hs hScalar =>
      rw [hu] at hs
      cases hs
      exact Table.showsArrays_of_not hn (hEnds (.inl hScalar.composed?)) hu hScalar.shape? _
  | reduction hs hKind =>
      rw [hu] at hs
      cases hs
      refine Table.showsArrays_of_not hn (hEnds (.inr ⟨_, _, _, hKind⟩)) hu ?_ _
      rw [Symbol.shape?, hKind]
      rfl
  | @binary _ links form a b l r hs hKind ha hb hl hr =>
      rw [hu] at hs
      cases hs
      have hLinks : u.kind.composed? = some links := by
        rw [hKind]
        rfl
      obtain ⟨rfl, -⟩ := hL.links_of_composed hu hn hLinks
      have hText : u.evaluate (some l) (some r) = .ok (form.binaryText l r) :=
        (Symbol.Evaluates.binary hKind rfl rfl).evaluate_eq
      refine Table.showsArrays_of_operands hn hu hLinks hText ?_ ?_
      · intro c hc
        cases ha.symm.trans hc
        exact ⟨l, rfl, hL.operandShown_within hl⟩
      · intro c hc
        cases hb.symm.trans hc
        exact ⟨r, rfl, hL.operandShown_within hr⟩
  | unary hs hKind ha hl =>
      rw [hu] at hs
      cases hs
      refine hL.showsArrays_of_operand hn hu (by rw [hKind]; rfl) (fun form hEq => ?_) ha
        (Symbol.Evaluates.unary hKind rfl).evaluate_eq hl
      rw [hKind] at hEq
      cases hEq
  | loop hs hKind ha hl =>
      rw [hu] at hs
      cases hs
      refine hL.showsArrays_of_operand hn hu (by rw [hKind]; rfl) (fun form hEq => ?_) ha
        (Symbol.Evaluates.loop hKind rfl).evaluate_eq hl
      rw [hKind] at hEq
      cases hEq

end Lowered

/-! ## Rendering succeeds -/

namespace Lowered

variable {t : Tree} {usage : Usage} {device : Device} {settings : Settings} {order : List Nat}
  {table : Table} {p : Nat} {s : Symbol} {n : Node} {domain : Option Shape}

/-- An operand has a text if its symbol has one and its shape fits the loop domain. -/
theorem exists_operandText (hL : Lowered t usage device settings order table)
    (hn : t.get? p = some n) (hs : table.get? p = some s)
    (hFits : n.shape.Fits (domain.getD n.shape))
    {render : Nat → Option Shape → Except SymbolError Text} {text : Text}
    (hText : render p domain = .ok text) :
    ∃ text, table.operandText render domain p = .ok text := by
  suffices hWritten : ∃ text, table.AsOperand (fun q inner t => render q inner = .ok t) domain p
      text by
    obtain ⟨written, hWritten⟩ := hWritten
    exact ⟨written, hWritten.operandText_eq⟩
  have hPlain (hExposed : s.kind.isExposed = false) (hShape : s.kind.shape? = none) :
      table.AsOperand (fun q inner t => render q inner = .ok t) domain p text := by
    refine .plain hs hExposed (fun hArray => ?_) hText
    unfold Symbol.isArray Symbol.shape? at hArray
    rw [hShape] at hArray
    exact nomatch hArray
  cases hL.nodeSymbol hs hn with
  | array hFamily hShape =>
      cases domain with
      | none =>
          refine ⟨text, .plain hs ?_ (fun _ => rfl) hText⟩
          unfold Symbol.shape? at hShape
          cases hKind : s.kind with
          | buffer | view | hostScalar | placeholder | unary | loop => rfl
          | binary | reduction =>
              rw [hKind] at hShape
              exact nomatch hShape
      | some target =>
          obtain ⟨indices, hIndices⟩ := Shape.exists_broadcastIndices? hFits
          exact ⟨_, .element hs hShape rfl
            ((Symbol.broadcast_eq_ok_iff hShape).mpr ⟨indices, hIndices, rfl⟩)⟩
  | reduction hOp hKind => exact ⟨_, .accumulator hs hKind⟩
  | @binary op form hOp hKind =>
      cases hGroups : form.needsGrouping with
      | true => exact ⟨_, .grouped hs hKind hGroups hText⟩
      | false =>
          rw [hKind] at hPlain
          exact ⟨text, hPlain hGroups rfl⟩
  | scalar hFamily hScalar =>
      rcases hScalar with hKind | ⟨level, hKind⟩ <;> rw [hKind] at hPlain <;>
        exact ⟨text, hPlain rfl rfl⟩
  | unary hOp hKind | loop hOp hKind =>
      rw [hKind] at hPlain
      exact ⟨text, hPlain rfl rfl⟩

/-- The operands of a node have a text in every loop domain that they fit. -/
def OperandsRender (t : Tree) (table : Table) (n : Node) (depth : Nat) : Prop :=
  ∀ ⦃c : Nat⦄ ⦃m : Node⦄ ⦃domain : Option Shape⦄, c ∈ n.children → t.get? c = some m →
    m.shape.Fits (domain.getD m.shape) →
      ∃ text, table.operandText (table.renderWithin depth) domain c = .ok text

/-- A symbol with one operand has a text if the operand has one. -/
theorem exists_of_operand {m : Node} (hWraps : t.Wraps n m) (hs : table.get? p = some s)
    (hLinks : s.kind.composed? = some (n.links p)) (hNot : ∀ form, s.kind ≠ .binary (n.links p) form)
    {depth : Nat} (hOperands : OperandsRender t table n depth)
    (hFits : m.shape.Fits ((Table.operandDomain s (n.links p) domain).getD m.shape)) :
    ∃ text, table.renderWithin (depth + 1) p domain = .ok text := by
  obtain ⟨c, hLhs, hRhs, hm⟩ := hWraps
  obtain ⟨l, hl⟩ := hOperands (Node.mem_children.mpr (.inl hLhs)) hm hFits
  obtain ⟨text, hText⟩ := Symbol.exists_evaluate hLinks hNot l
  have hSecond : table.operandText? (table.renderWithin depth)
      (Table.operandDomain s (n.links p) domain) n.rhs = .ok none := by
    rw [hRhs]
    rfl
  have hStep := Table.renderWithin_composed hs hLinks (Table.operandText?_some hLhs hl) hSecond
  exact ⟨text, hStep.trans hText⟩

/-- A binary operator has a text if its operands have one. -/
theorem exists_of_operands (hn : t.get? p = some n) (hP : t.Pointwise) {op : BinaryOp}
    {form : Form} (hOp : n.op = .binary op) (hs : table.get? p = some s)
    (hKind : s.kind = .binary (n.links p) form) {depth : Nat}
    (hOperands : OperandsRender t table n depth) (hFits : n.shape.Fits (domain.getD n.shape)) :
    ∃ text, table.renderWithin (depth + 1) p domain = .ok text := by
  have hFormed := hP.built.formed hn
  unfold Tree.Formed at hFormed
  rw [hOp] at hFormed
  obtain ⟨a, b, m, o, ha, hb, hm, ho, -⟩ := hFormed
  have hRendered {slot : Slot} {c : Nat} {q : Node} (hSlot : n.operand? slot = some c)
      (hq : t.get? c = some q) : ∃ text, table.operandText (table.renderWithin depth)
        (Table.operandDomain s (n.links p) domain) c = .ok text := by
    refine hOperands (Node.mem_children_of_operand? hSlot) hq ?_
    unfold Table.operandDomain
    rw [hKind]
    exact (hP.operand_fits hn (by rw [hOp]; rfl) hSlot hq).trans hFits
  have hFirst : n.operand? .first = some a := ha
  have hSecond : n.operand? .second = some b := hb
  obtain ⟨l, hl⟩ := hRendered hFirst hm
  obtain ⟨r, hr⟩ := hRendered hSecond ho
  have hStep := Table.renderWithin_composed hs (by rw [hKind]; rfl) (Table.operandText?_some ha hl)
    (Table.operandText?_some hb hr)
  exact ⟨_, hStep.trans (Symbol.Evaluates.binary hKind rfl rfl).evaluate_eq⟩

/-- Following operands to a depth that exceeds the number of symbols before a position, every
symbol has a text in every loop domain that it fits. -/
theorem exists_renderWithin (hL : Lowered t usage device settings order table) (hP : t.Pointwise)
    (hn : t.get? p = some n) (hs : table.get? p = some s) {depth : Nat}
    (hDepth : table.countBefore p < depth) (hFits : n.shape.Fits (domain.getD n.shape)) :
    ∃ text, table.renderWithin depth p domain = .ok text := by
  induction depth generalizing p n s domain with
  | zero => exact absurd hDepth (Nat.not_lt_zero _)
  | succ depth ih =>
      have hOperands (hInner : n.op.family ≠ .leaf) : OperandsRender t table n depth := by
        intro c m inner hMem hm hFitsInner
        obtain ⟨u, hu⟩ := hL.exists_child hs hn hInner hMem
        -- fewer symbols stand before the operand, so one step less reaches it
        have hCount := Table.countBefore_lt hu (Tree.child_lt hn hMem)
        obtain ⟨text, hText⟩ := ih hm hu (by omega) hFitsInner
        exact hL.exists_operandText hm hu hFitsInner hText
      have hFormed := hL.built.formed hn
      unfold Tree.Formed at hFormed
      cases hL.nodeSymbol hs hn with
      | array hFamily hShape =>
          obtain ⟨indices, hIndices⟩ := Shape.exists_broadcastIndices? (Shape.Fits.refl n.shape)
          have hText := (Symbol.broadcast_eq_ok_iff hShape).mpr ⟨indices, hIndices, rfl⟩
          exact ⟨_, (Table.renderWithin_leaf hs (Symbol.composed?_of_shape? hShape)).trans
            (Symbol.Evaluates.array hShape hText).evaluate_eq⟩
      | scalar hFamily hScalar =>
          exact ⟨s.handle, (Table.renderWithin_leaf hs hScalar.composed?).trans
            (Symbol.Evaluates.scalar hScalar).evaluate_eq⟩
      | binary hOp hKind =>
          exact exists_of_operands hn hP hOp hs hKind (hOperands (by rw [hOp]; exact nofun)) hFits
      | reduction hOp hKind =>
          rw [hOp] at hFormed hOperands
          obtain ⟨m, hWraps, -⟩ := hFormed
          refine exists_of_operand hWraps hs (by rw [hKind]; rfl) ?_ (hOperands nofun) ?_
          · rw [hKind]
            exact fun _ => nofun
          · -- the operand is rendered in its own shape, not in a loop domain around the reduction
            unfold Table.operandDomain
            rw [hKind]
            exact Shape.Fits.refl _
      | unary hOp hKind | loop hOp hKind =>
          have hElementwise : n.op.isElementwise = true := by
            rw [hOp]
            rfl
          rw [hOp] at hFormed hOperands
          obtain ⟨m, ⟨c, hLhs, hRhs, hm⟩, -⟩ := hFormed
          refine exists_of_operand ⟨c, hLhs, hRhs, hm⟩ hs (by rw [hKind]; rfl) ?_ (hOperands nofun) ?_
          · rw [hKind]
            exact fun _ => nofun
          · unfold Table.operandDomain
            rw [hKind]
            have hSlot : n.operand? .first = some c := hLhs
            exact (hP.operand_fits hn hElementwise hSlot hm).trans hFits

end Lowered

/-! ## The text of every position -/

namespace Lowered

variable {t : Tree} {usage : Usage} {device : Device} {settings : Settings} {order : List Nat}
  {table : Table} {p : Nat} {s : Symbol} {n : Node}

theorem kind_of_reduce (hL : Lowered t usage device settings order table)
    (hn : t.get? p = some n) (hs : table.get? p = some s) {op : ReduceOp} {axes : List Nat}
    (hOp : n.op = .reduce op axes) : s.kind = .reduction (n.links p) op axes.length := by
  cases hL.nodeSymbol hs hn with
  | reduction hReduce hKind =>
      rw [hOp] at hReduce
      cases hReduce
      exact hKind
  | array hFamily =>
      rw [hOp] at hFamily
      exact absurd hFamily (by simp [Operation.family])
  | scalar hFamily =>
      rw [hOp] at hFamily
      cases hFamily
  | binary hOther | unary hOther | loop hOther =>
      rw [hOp] at hOther
      cases hOther

/-- The way to the node whose shape is the loop domain, in the text of a position. -/
theorem render_domain (hL : Lowered t usage device settings order table) (hP : t.Pointwise)
    (hs : table.get? p = some s) :
    ∃ text, table.render p = .ok text ∧
      ∀ ⦃lead : List Slot⦄ ⦃start : Nat⦄ ⦃m : Node⦄, t.DomainAt p lead start →
        t.get? start = some m → ∃ inner, table.ShowsArrays t m.shape start inner ∧
          ∀ {path q part}, table.Places start inner path q part →
            table.Places p text (lead ++ path) q part := by
  obtain ⟨n, hn, -⟩ := hL.entry hs
  have hDepth : table.countBefore p < table.size + 1 :=
    Nat.lt_succ_of_le (table.countBefore_le_size p)
  have hFits : n.shape.Fits ((none : Option Shape).getD n.shape) := Shape.Fits.refl _
  obtain ⟨text, hRender⟩ := hL.exists_renderWithin hP hn hs hDepth hFits
  have hShows := Table.composes_renderWithin hL.showsWithin_of_composes hRender
  refine ⟨text, hRender, ?_⟩
  rintro lead start m ⟨n', hn', hDomain⟩ hm
  cases hn.symm.trans hn'
  split at hDomain
  · next op axes hOp =>
    -- the operand of a reduction is shown in its own shape
    obtain ⟨rfl, hStart⟩ := hDomain
    have hKind := hL.kind_of_reduce hn hs hOp
    obtain ⟨a, l, ha, hl, rfl⟩ := hShows.of_reduction hs hKind
    cases ha.symm.trans hStart
    obtain ⟨inner, hGroup, hInner⟩ := hL.operandShown hm hl
    have hText : s.Evaluates (some l) none _ := .reduction hKind rfl
    exact ⟨inner, hInner, fun hPlaces =>
      .first hs (by rw [hKind]; rfl) ha hText.evaluate_eq hGroup hPlaces⟩
  · obtain ⟨rfl, rfl⟩ := hDomain
    cases hn.symm.trans hm
    exact ⟨text, hL.showsWithin_of_composes hShows hn hs fun _ => rfl, fun hPlaces => hPlaces⟩

end Lowered

/-! ## Parts of a text -/

namespace Form

theorem infix_binaryText_left (form : Form) (l r : Text) : l <:+: form.binaryText l r := by
  cases form with
  | between symbol =>
      show l <:+: l ++ " " ++ symbol ++ " " ++ r
      rw [List.append_assoc, List.append_assoc, List.append_assoc]
      exact List.infix_append_left
  | call symbol | leading symbol | select symbol =>
      exact List.infix_append_of_infix_left
        (List.infix_append_of_infix_left (List.infix_append _ l _))
  | cast type => exact List.infix_append _ l _

/-- An operator on two operands shows the second too. -/
theorem Regular.infix_binaryText_right {form : Form} (h : Regular 2 form) (l r : Text) :
    r <:+: form.binaryText l r := by
  cases h with
  | between => exact List.infix_append_right
  | call | select => exact List.infix_append _ r _

theorem infix_unaryText (form : Form) (l : Text) : l <:+: form.unaryText l := by
  cases form with
  | between | call | leading | select | cast => exact List.infix_append _ l _

end Form

/-- A symbol that is composed of its operands shows the first. -/
theorem Symbol.Evaluates.infix_first {s : Symbol} {links : Links} {l text : Text}
    {rhs : Option Text} (h : s.Evaluates (some l) rhs text)
    (hLinks : s.kind.composed? = some links) : l <:+: text := by
  cases h with
  | array hShape =>
      rw [composed?_of_shape? hShape] at hLinks
      exact nomatch hLinks
  | scalar hScalar =>
      rw [hScalar.composed?] at hLinks
      exact nomatch hLinks
  | binary hKind hLhs =>
      cases hLhs
      exact Form.infix_binaryText_left ..
  | unary hKind hLhs =>
      cases hLhs
      exact Form.infix_unaryText ..
  | reduction hKind hLhs =>
      cases hLhs
      exact List.infix_append _ l _
  | loop hKind hLhs =>
      cases hLhs
      exact List.infix_refl _

namespace Lowered

variable {t : Tree} {usage : Usage} {device : Device} {settings : Settings} {order : List Nat}
  {table : Table} {p : Nat} {s : Symbol}

/-- Only binary operators have a second operand, and they show it. -/
theorem infix_second (hL : Lowered t usage device settings order table)
    (hs : table.get? p = some s) {links : Links} (hLinks : s.kind.composed? = some links) {c : Nat}
    (hChild : links.rhs = some c) {lhs : Option Text} {r text : Text}
    (h : s.Evaluates lhs (some r) text) : r <:+: text := by
  obtain ⟨n, hn, -⟩ := hL.entry hs
  obtain ⟨rfl, hOne⟩ := hL.links_of_composed hs hn hLinks
  by_cases hBinary : ∃ form, s.kind = .binary (n.links p) form
  · obtain ⟨form, hKind⟩ := hBinary
    cases h with
    | binary hKind' hLhs hRhs =>
        cases hRhs
        exact (hL.regular_of_binary hs hKind').infix_binaryText_right ..
    | array hShape =>
        rw [Symbol.composed?_of_shape? hShape] at hLinks
        exact nomatch hLinks
    | scalar hScalar =>
        rw [hScalar.composed?] at hLinks
        exact nomatch hLinks
    | unary hKind' | reduction hKind' | loop hKind' => cases hKind.symm.trans hKind'
  · obtain ⟨m, a, -, hNone, -⟩ := hOne fun form hKind => hBinary ⟨form, hKind⟩
    cases hNone.symm.trans hChild

/-- What a text shows at the end of a path is a part of the text. -/
theorem infix_of_places (hL : Lowered t usage device settings order table) {text part : Text}
    {path : List Slot} {q : Nat} (h : table.Places p text path q part) : part <:+: text := by
  have hGrouped {inner written : Text} (hGroup : written = inner ∨ written = "(" ++ inner ++ ")") :
      inner <:+: written := by
    rcases hGroup with rfl | rfl
    · exact List.infix_refl _
    · exact List.infix_append _ inner _
  induction h with
  | here => exact List.infix_refl _
  | first hs hLinks hChild hText hGroup hRest ih =>
      have hShown := (Symbol.Evaluates.of_evaluate hText).infix_first hLinks
      exact (ih.trans (hGrouped hGroup)).trans hShown
  | second hs hLinks hChild hText hGroup hRest ih =>
      have hShown := hL.infix_second hs hLinks hChild (Symbol.Evaluates.of_evaluate hText)
      exact (ih.trans (hGrouped hGroup)).trans hShown

end Lowered

/-- The arguments, read as C expressions, have the components of an index as values. -/
def ArgumentsDenote (env : Text → Option Int) (args : List Text) (index : List Nat) : Prop :=
  (args.map fun arg => (IndexExpr.read? arg).bind (IndexExpr.value? env)) =
    index.map fun i : Nat => some (i : Int)

theorem argumentsDenote_of_denote {env : Text → Option Int} {indices : List IndexExpr}
    {index : List Nat} (hReadable : ∀ e ∈ indices, e.isReadable = true)
    (h : IndexExpr.Denote env indices index) :
    ArgumentsDenote env (indices.map IndexExpr.text) index := by
  unfold ArgumentsDenote
  unfold IndexExpr.Denote at h
  rw [← h, List.map_map]
  refine List.map_congr_left fun e he => ?_
  rw [Function.comp_apply, IndexExpr.read?_text (hReadable e he), Option.bind_some]

/-- **Rendering is total and broadcasts pointwise.**  In the table of a built tree without
assignments and without axes of extent zero, every position has a text.  Where a path of
elementwise nodes leads from the node of the loop domain to an array, that text shows an
access of the array at the end of the path, which is a part of the text, and at every index
of the loop domain the arguments denote the index broadcast through every shape on the
path. -/
theorem rendering_total_pointwise {t : Tree} {root : Nat} {device : Device} {settings : Settings}
    {table : Table} (hBuilt : t.Built)
    (hAssign : ∀ p n, t.get? p = some n → n.op ≠ .binary .assign)
    (hPositive : ∀ p n, t.get? p = some n → 0 ∉ n.shape)
    (hTable : Table.ofTree t root device settings = .ok table) {p : Nat}
    (hp : table.contains p = true) :
    ∃ text, table.render p = .ok text ∧
      ∀ {lead path start q toOperand m s}, t.DomainAt p lead start →
        t.Reached start path q toOperand → t.get? start = some m → table.get? q = some s →
          s.isArray = true →
            ∃ args, table.Places p text (lead ++ path) q
                (s.accessName ++ "(" ++ Text.join ", " args ++ ")") ∧
              (s.accessName ++ "(" ++ Text.join ", " args ++ ")" : Text) <:+: text ∧
              ∀ {env index}, m.shape.InBounds index → Shape.BindsDomain env index →
                ArgumentsDenote env args (toOperand index) := by
  obtain ⟨usage, order, hL⟩ := Lowered.of_ofTree hBuilt hTable
  have hP : t.Pointwise := ⟨hBuilt, fun h => hAssign _ _ h, fun h => hPositive _ _ h⟩
  obtain ⟨u, hu⟩ := Table.contains_iff.mp hp
  obtain ⟨text, hRender, hText⟩ := hL.render_domain hP hu
  refine ⟨text, hRender, ?_⟩
  intro lead path start q toOperand m s hDomain hPath hm hs hArray
  obtain ⟨inner, hShows, hLead⟩ := hText hDomain hm
  obtain ⟨shape, storage, hStorage⟩ := Lowered.exists_array? hArray
  obtain ⟨o, ho, rfl, -⟩ := hL.array_node hs hStorage
  obtain ⟨indices, hIndices, hPlaces⟩ := hShows hPath hs (Symbol.shape?_of_array? hStorage)
  have hWhole := hLead hPlaces
  refine ⟨indices.map IndexExpr.text, hWhole, hL.infix_of_places hWhole, ?_⟩
  intro env index hIn hEnv
  have hDenote := Shape.denote_broadcastIndices? hIndices hIn hEnv
  rw [← (Tree.Reached.project_eq hP hPath hm ho).2 hIn] at hDenote
  exact argumentsDenote_of_denote (Shape.isReadable_of_broadcastIndices? hIndices).2 hDenote

/-- In the sums along rows, the row that is scaled and added to every row is accessed at
its first and only row. -/
theorem rendering_pointwise_rowSums :
    ∃ table text s args, Table.ofTree .rowSums 8 .cpu {} = .ok table ∧
      table.render 8 = .ok text ∧ table.get? 3 = some s ∧
        table.Places 8 text [.first, .first, .first] 3
          (s.accessName ++ "(" ++ Text.join ", " args ++ ")") ∧
          (s.accessName ++ "(" ++ Text.join ", " args ++ ")" : Text) <:+: text ∧
          ArgumentsDenote (table.environment [1, 1]) args [0, 1] := by
  have hNodes : ∀ n ∈ Tree.rowSums.nodes.toList, n.op ≠ .binary .assign ∧ 0 ∉ n.shape := by
    decide +kernel
  have hMem : ∀ p n, Tree.rowSums.get? p = some n → n ∈ Tree.rowSums.nodes.toList := by
    intro p n hn
    exact Array.mem_toList_iff.mpr (Array.mem_of_getElem? hn)
  have hEval : (((Table.ofTree .rowSums 8 .cpu {}).toOption.bind fun table =>
      if table.contains 8 then table.get? 3 else none).map Symbol.isArray) = some true := by
    decide +kernel
  obtain ⟨s, hGet, hArray⟩ := Option.map_eq_some_iff.mp hEval
  obtain ⟨table, hOption, hGet⟩ := Option.bind_eq_some_iff.mp hGet
  split at hGet
  · next hContains =>
    have hTable := eq_ok_of_toOption hOption
    obtain ⟨text, hRender, hText⟩ := rendering_total_pointwise Tree.built_rowSums
      (fun p n hn => (hNodes n (hMem p n hn)).1) (fun p n hn => (hNodes n (hMem p n hn)).2) hTable
      hContains
    have hDomain : Tree.rowSums.DomainAt 8 [.first] 7 := ⟨_, rfl, rfl, rfl⟩
    have hPath : Tree.rowSums.Reached 7 [.first, .first] 3 _ :=
      .operand rfl rfl rfl rfl (.operand rfl rfl rfl rfl .here)
    obtain ⟨args, hPlaces, hPart, hDenote⟩ := hText hDomain hPath rfl hGet hArray
    exact ⟨table, text, s, args, hTable, hRender, hGet, hPlaces, hPart,
      hDenote (by decide) (table.bindsDomain_environment [1, 1])⟩
  · exact nomatch hGet

end ArrayKernel
