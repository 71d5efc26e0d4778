import ArrayKernel.Proofs.Depiction
import ArrayKernel.Proofs.RowMajor

/-!
# Where lowering fails

Lowering a tree fails on the first node of the walk that cannot become a symbol, with an
error that names the node, and on nothing else: no look-up of an operand fails, no
position is filled twice, and no product of extents leaves 64 bits.

The last point is about reshapes.  The factors in the index expressions of a reshape are
products of the last extents of a shape, and for a shape without zero these are at most
the number of elements, which `Tree.reshape` has checked.  A reshape that is appended by
hand escapes this check, so here reshapes come from `Tree.reshape` alone; all other nodes
may be appended by hand.  Numbers of names are not bounded.
-/

namespace ArrayKernel

/-! ## Products that fit in 64 bits -/

namespace Shape

/-- Without a zero, the last extents have no more elements than the whole shape. -/
theorem volume_tail_lt {extent bound : Nat} {extents : Shape} (hZero : 0 ∉ extent :: extents)
    (h : volume (extent :: extents) < bound) : volume extents < bound := by
  have hExtent : 0 < extent := Nat.pos_of_ne_zero fun hEq => hZero (hEq ▸ .head _)
  exact Nat.lt_of_le_of_lt (Nat.le_mul_of_pos_left _ hExtent) h

end Shape

namespace IndexExpr

theorem exists_flattenTerms? {shape : Shape} (hZero : 0 ∉ shape)
    (hFits : shape.volume < Shape.wordSize) (names : List Text) :
    ∃ terms, flattenTerms? names shape = some terms := by
  induction shape generalizing names with
  | nil => cases names <;> exact ⟨[], rfl⟩
  | cons extent extents ih =>
      have hRest := Shape.volume_tail_lt hZero hFits
      rw [List.mem_cons, not_or] at hZero
      cases names with
      | nil => exact ⟨[], rfl⟩
      | cons name names =>
          obtain ⟨terms, hTerms⟩ := ih hZero.2 hRest names
          rw [flattenTerms?]
          split
          · exact ⟨terms, hTerms⟩
          · rw [Shape.count?_of_lt hZero.2 hRest, hTerms]
            exact ⟨_, rfl⟩

/-- The place of an element can be written if the number of elements fits. -/
theorem exists_flatten? {shape : Shape} {count : Nat} (h : shape.count? = some count)
    (names : List Text) : ∃ place, flatten? names shape = some place := by
  unfold flatten?
  split
  · exact ⟨_, rfl⟩
  · next hZero =>
    obtain ⟨terms, hTerms⟩ := exists_flattenTerms? hZero (Shape.volume_lt_of_count? h) names
    rw [hTerms]
    exact ⟨_, rfl⟩

theorem exists_unflattenAxes? {shape : Shape} (hZero : 0 ∉ shape)
    (hFits : shape.volume < Shape.wordSize) (place : IndexExpr) (isFirst : Bool) :
    ∃ indices, unflattenAxes? place isFirst shape = some indices := by
  induction shape generalizing isFirst with
  | nil => exact ⟨[], rfl⟩
  | cons extent extents ih =>
      have hRest := Shape.volume_tail_lt hZero hFits
      rw [List.mem_cons, not_or] at hZero
      obtain ⟨indices, hIndices⟩ := ih hZero.2 hRest false
      rw [unflattenAxes?, Shape.count?_of_lt hZero.2 hRest, hIndices]
      exact ⟨_, rfl⟩

/-- The indices of an element can be written if the number of elements fits. -/
theorem exists_unflatten? {shape : Shape} {count : Nat} (h : shape.count? = some count)
    (place : IndexExpr) : ∃ indices, unflatten? place shape = some indices := by
  unfold unflatten?
  split
  · exact ⟨_, rfl⟩
  · next hZero =>
    exact exists_unflattenAxes? hZero (Shape.volume_lt_of_count? h) place.grouped true

end IndexExpr

/-- The element of a view can be written, for a reshape if both element counts fit. -/
theorem View.exists_elementRef? {v : View} {shape source : Shape}
    (h : v = .reshape →
      (∃ count, shape.count? = some count) ∧ ∃ count, source.count? = some count)
    (helper : Text) (storage : Storage) :
    ∃ element, v.elementRef? helper storage shape source = some element := by
  cases v with
  | reshape =>
      obtain ⟨⟨count, hShape⟩, ⟨count', hSource⟩⟩ := h rfl
      obtain ⟨place, hPlace⟩ :=
        IndexExpr.exists_flatten? hShape (IndexExpr.axisNames shape.length)
      obtain ⟨indices, hIndices⟩ := IndexExpr.exists_unflatten? hSource place
      refine ⟨.through helper indices, ?_⟩
      show (IndexExpr.flatten? (IndexExpr.axisNames shape.length) shape >>= fun place =>
        IndexExpr.unflatten? place source >>= fun indices => some _) = _
      rw [hPlace, Option.bind_eq_bind, Option.bind_some, hIndices]
      rfl
  | transpose => exact ⟨_, rfl⟩
  | diagonal =>
      unfold View.elementRef?
      dsimp only
      split <;> exact ⟨_, rfl⟩

/-! ## Trees with nodes that are appended by hand -/

namespace Tree

/-- The trees that come from the empty tree by calls of the builders and by appending
nodes by hand, reshapes apart. -/
inductive Assembled : Tree → Prop
  | empty : Assembled .empty
  | call {t next : Tree} {position : Nat} (h : Assembled t) (c : Call)
      (hNext : t.call c = .ok (next, position)) : Assembled next
  | push {t next : Tree} {position : Nat} (h : Assembled t) (n : Node)
      (hOp : n.op ≠ .view .reshape) (hNext : t.push n = .ok (next, position)) : Assembled next

/-- The reshapes of an assembled tree obey their rule. -/
theorem Assembled.formed_reshape {t : Tree} (h : t.Assembled) {p : Nat} {n : Node}
    (hn : t.get? p = some n) (hOp : n.op = .view .reshape) : t.Formed n := by
  induction h generalizing p n with
  | empty => exact nomatch (show (none : Option Node) = some n from hn)
  | call _ c hNext ih =>
      obtain ⟨m, hm, rfl, hFormed⟩ := grows_of_call hNext
      rw [get?_append] at hn
      split at hn
      · cases hn
        exact hFormed.append n hm
      · exact (ih hn hOp).append m hm
  | push _ m hOther hNext ih =>
      obtain ⟨hm, rfl, -⟩ := push_eq_ok hNext
      rw [get?_append] at hn
      split at hn
      · cases hn
        exact absurd hOp hOther
      · exact (ih hn hOp).append m hm

/-! ## Nodes that cannot become symbols -/

/-- Whether the node cannot become a symbol: a buffer needs a stride for each axis, the
operators with one operand need it, a reduction is over one or two axes, a view is of an
array, and the diagonal is that of a matrix. -/
def rejects (t : Tree) (n : Node) : Bool :=
  match n.op with
  | .buffer strides _ => strides.length ≠ n.shape.length
  | .hostScalar | .placeholder _ | .binary _ => false
  | .unary _ | .loop _ => n.lhs.isNone
  | .reduce _ axes => n.lhs.isNone || axes.length = 0 || 2 < axes.length
  | .view v =>
    match n.lhs.bind t.get? with
    | none => true
    | some m => !m.op.isArray || (v = .diagonal && m.shape.length ≠ 2)

end Tree

/-- The error is about the node at a position: a buffer is named, and any other node is
given by its position. -/
def SymbolError.Blames (e : SymbolError) (n : Node) (p : Nat) (handle : Text) : Prop :=
  match n.op with
  | .buffer strides _ => e = .strideCount handle n.shape.length strides.length
  | _ => ∃ fault, e = .invalidOperand p fault

/-- A node is rejected with an error about it, and else accepted. -/
def Tree.Judges {α : Type} (t : Tree) (n : Node) (p : Nat) (handle : Text) :
    Except SymbolError α → Prop
  | .ok _ => t.rejects n = false
  | .error e => t.rejects n = true ∧ e.Blames n p handle

/-! ## One node -/

/-- A node with operands is blamed by its position. -/
theorem SymbolError.blames_invalidOperand {n : Node} (h : n.op.family ≠ .leaf) (q : Nat)
    (fault : OperandFault) (handle : Text) :
    (SymbolError.invalidOperand q fault).Blames n q handle := by
  unfold SymbolError.Blames
  split
  · next hOp =>
    rw [hOp] at h
    exact absurd rfl h
  · exact ⟨fault, rfl⟩

namespace Covered

variable {t : Tree} {usage : Usage} {device : Device} {settings : Settings} {done : List Nat}
  {table : Table} {q : Nat} {n : Node} {handle : Text} {name : SymbolName}

theorem resolve_eq (hL : Covered t usage device settings done table)
    (hChildren : ∀ c ∈ n.children, c ∈ done) (q : Nat) :
    Links.resolve table q n = .ok (n.links q) :=
  Links.resolve_eq_ok_iff.mpr ⟨fun c hc => (hL.contains_iff c).mpr (hChildren c hc), rfl⟩

/-- A node with one operand is blamed if it is missing; else the table has its symbol. -/
theorem operand_judges (hL : Covered t usage device settings done table)
    (hChildren : ∀ c ∈ n.children, c ∈ done) (hInner : n.op.family ≠ .leaf)
    (hMissing : n.lhs = none → t.rejects n = true) {f : Symbol → Except SymbolError Symbol}
    (hNext : ∀ {c s}, n.lhs = some c → table.get? c = some s → t.Judges n q handle (f s)) :
    t.Judges n q handle ((n.links q).operand table >>= f) := by
  unfold Links.operand Node.links
  cases hLhs : n.lhs with
  | none => exact ⟨hMissing hLhs, SymbolError.blames_invalidOperand hInner q .missing handle⟩
  | some c =>
      obtain ⟨s, hs⟩ := hL.exists_symbol (hChildren c (Node.mem_children.mpr (.inl hLhs)))
      dsimp only
      rw [Table.lookup_eq_ok_iff.mpr hs, ok_bind]
      exact hNext hLhs hs

theorem buffer_judges {strides : List Nat} {start : Nat} (hOp : n.op = .buffer strides start) :
    t.Judges n q name.text (Symbol.buffer device n.dtype name n.shape strides start) := by
  unfold Symbol.buffer
  split
  · next hLength => simp [Tree.Judges, Tree.rejects, hOp, hLength]
  · next hLength => simp [Tree.Judges, Tree.rejects, SymbolError.Blames, hOp, hLength]

theorem binary_judges (hL : Covered t usage device settings done table)
    (hChildren : ∀ c ∈ n.children, c ∈ done) {op : BinaryOp} (hOp : n.op = .binary op) :
    t.Judges n q handle (Symbol.binary device name q n table) := by
  have hLhs : ∃ lhs, Links.symbol? table (n.links q).lhs = .ok lhs := by
    show ∃ lhs, Links.symbol? table n.lhs = .ok lhs
    cases hLhs : n.lhs with
    | none => exact ⟨none, rfl⟩
    | some c =>
        obtain ⟨s, hs⟩ := hL.exists_symbol (hChildren c (Node.mem_children.mpr (.inl hLhs)))
        refine ⟨some s, ?_⟩
        rw [Links.symbol?, Table.lookup_eq_ok_iff.mpr hs]
        rfl
  obtain ⟨lhs, hLhs⟩ := hLhs
  unfold Symbol.binary
  rw [hL.resolve_eq hChildren q, ok_bind, hOp]
  dsimp only
  rw [hLhs, ok_bind]
  show t.rejects n = false
  simp [Tree.rejects, hOp]

theorem unary_judges (hL : Covered t usage device settings done table)
    (hChildren : ∀ c ∈ n.children, c ∈ done) {op : UnaryOp} (hOp : n.op = .unary op) :
    t.Judges n q handle (Symbol.unary device name q n table) := by
  have hInner : n.op.family ≠ .leaf := by simp [hOp, Operation.family]
  unfold Symbol.unary
  rw [hL.resolve_eq hChildren q, ok_bind, hOp]
  refine hL.operand_judges hChildren hInner ?_ fun hLhs _ => ?_
  · intro hNone
    simp [Tree.rejects, hOp, hNone]
  · show t.rejects n = false
    simp [Tree.rejects, hOp, hLhs]

theorem loop_judges (hL : Covered t usage device settings done table)
    (hChildren : ∀ c ∈ n.children, c ∈ done) {bounds : LoopBounds} (hOp : n.op = .loop bounds)
    {stem : Text} : t.Judges n q handle (Symbol.loop device name q n table stem) := by
  have hInner : n.op.family ≠ .leaf := by simp [hOp, Operation.family]
  unfold Symbol.loop
  rw [hL.resolve_eq hChildren q, ok_bind, hOp]
  refine hL.operand_judges hChildren hInner ?_ fun hLhs _ => ?_
  · intro hNone
    simp [Tree.rejects, hOp, hNone]
  · show t.rejects n = false
    simp [Tree.rejects, hOp, hLhs]

theorem reduction_judges (hL : Covered t usage device settings done table)
    (hChildren : ∀ c ∈ n.children, c ∈ done) {op : ReduceOp} {axes : List Nat}
    (hOp : n.op = .reduce op axes) :
    t.Judges n q handle (Symbol.reduction device name q n table) := by
  have hInner : n.op.family ≠ .leaf := by simp [hOp, Operation.family]
  have hRejects : t.rejects n = (n.lhs.isNone || axes.length = 0 || 2 < axes.length) := by
    simp [Tree.rejects, hOp]
  unfold Symbol.reduction
  rw [hL.resolve_eq hChildren q, ok_bind, hOp]
  dsimp only
  split
  · next hAxes =>
    refine hL.operand_judges hChildren hInner ?_ fun hLhs _ => ?_
    · intro hNone
      simp [hRejects, hNone]
    · show t.rejects n = false
      simp only [hRejects, hLhs, Option.isNone_some, Bool.false_or, Bool.or_eq_false_iff,
        decide_eq_false_iff_not]
      omega
  · next hAxes =>
    refine ⟨?_, SymbolError.blames_invalidOperand hInner q _ handle⟩
    simp only [hRejects, Bool.or_eq_true, decide_eq_true_eq]
    omega

/-- A view of an array whose element counts fit becomes a symbol. -/
theorem exists_viewOf {v : View} {m : Node} {c : Nat} (hOp : n.op = .view v)
    (hReshape : n.op = .view .reshape → t.Formed n) (hLhs : n.lhs = some c)
    (hm : t.get? c = some m) (links : Links) (operand : Symbol) (under : Storage) :
    ∃ s, Symbol.viewOf device name n links v operand m.shape under = .ok s := by
  have hCounts : v = .reshape →
      (∃ count, n.shape.count? = some count) ∧ ∃ count, m.shape.count? = some count := by
    rintro rfl
    have hFormed := hReshape hOp
    unfold Tree.Formed at hFormed
    rw [hOp] at hFormed
    obtain ⟨o, count, hWraps, hSource, hShape, -⟩ := hFormed
    rw [hWraps.eq_of_lhs hLhs hm] at hSource
    exact ⟨⟨count, hShape⟩, ⟨count, hSource⟩⟩
  obtain ⟨element, hElement⟩ := View.exists_elementRef? hCounts operand.accessName
    (v.storage under m.shape.length)
  unfold Symbol.viewOf
  dsimp only
  rw [hElement]
  exact ⟨_, rfl⟩

theorem view_judges (hL : Covered t usage device settings done table)
    (hChildren : ∀ c ∈ n.children, c ∈ done) (hReshape : n.op = .view .reshape → t.Formed n)
    {v : View} (hOp : n.op = .view v) :
    t.Judges n q handle (Symbol.view device name q n table) := by
  have hInner : n.op.family ≠ .leaf := by simp [hOp, Operation.family]
  unfold Symbol.view
  rw [hL.resolve_eq hChildren q, ok_bind, hOp]
  refine hL.operand_judges hChildren hInner ?_ fun {c s} hLhs hs => ?_
  · intro hNone
    simp [Tree.rejects, hOp, hNone]
  · obtain ⟨m, hm, hDepicts⟩ := hL.depicts hs
    have hShape := hDepicts.shape
    rw [Symbol.shape?_eq] at hShape
    have hRejects : t.rejects n =
        (!m.op.isArray || (v = .diagonal && m.shape.length ≠ 2)) := by
      simp [Tree.rejects, hOp, hLhs, hm]
    cases hIs : m.op.isArray with
    | false =>
        have hArray : s.array? = none := by simpa [hIs] using hShape
        rw [hArray]
        refine ⟨?_, SymbolError.blames_invalidOperand hInner q _ handle⟩
        simp [hRejects, hIs]
    | true =>
        obtain ⟨under, hArray⟩ : ∃ under, s.array? = some (m.shape, under) := by
          simpa [hIs] using hShape
        rw [hArray]
        dsimp only
        split
        · next hMatrix =>
          refine ⟨?_, SymbolError.blames_invalidOperand hInner q _ handle⟩
          simp [hRejects, hMatrix]
        · next hMatrix =>
          have hView : ∃ made,
              Symbol.viewOf device name n (n.links q) v s m.shape under = .ok made :=
            exists_viewOf hOp hReshape hLhs hm ..
          obtain ⟨made, hMade⟩ := hView
          rw [hMade]
          show t.rejects n = false
          rw [hRejects, hIs]
          simpa using hMatrix

/-- The symbol of a node whose operands are in the table: the node is accepted or blamed. -/
theorem symbol_judges {p : Progress} (hL : Covered t usage device settings done p.table)
    (hChildren : ∀ c ∈ n.children, c ∈ done) (hReshape : n.op = .view .reshape → t.Formed n) :
    t.Judges n q (settings.nameStem ++ Text.ofNat p.next) (p.symbol device settings q n) := by
  unfold Progress.symbol
  dsimp only
  split
  · next hOp => exact buffer_judges hOp
  · next hOp => simp [Tree.Judges, Tree.rejects, hOp]
  · next hOp => simp [Tree.Judges, Tree.rejects, hOp]
  · next hOp => exact hL.binary_judges hChildren hOp
  · next hOp => exact hL.unary_judges hChildren hOp
  · next hOp => exact hL.reduction_judges hChildren hOp
  · next hOp => exact hL.view_judges hChildren hReshape hOp
  · next hOp => exact hL.loop_judges hChildren hOp

/-- The node at a free position is placed or blamed. -/
theorem place_judges {p : Progress} (hL : Covered t usage device settings done p.table)
    (hn : t.get? q = some n) (hq : q ∉ done) (hChildren : ∀ c ∈ n.children, c ∈ done)
    (hReshape : n.op = .view .reshape → t.Formed n) :
    t.Judges n q (settings.nameStem ++ Text.ofNat p.next)
      (Progress.place t usage device settings p q) := by
  have hJudges := hL.symbol_judges (q := q) hChildren hReshape
  unfold Progress.place
  rw [hn]
  dsimp only
  cases hSymbol : p.symbol device settings q n with
  | error e =>
      rw [hSymbol] at hJudges
      exact hJudges
  | ok made =>
      rw [hSymbol] at hJudges
      have hFree : ¬ p.table.contains q = true := fun hc => hq ((hL.contains_iff q).mp hc)
      rw [ok_bind, Table.insert, dif_neg hFree, ok_bind]
      exact hJudges

end Covered

/-! ## All nodes under a root -/

namespace Tree

variable {t : Tree} {root : Nat} {device : Device} {settings : Settings} {order : List Nat}

/-- None of the nodes at the positions is rejected. -/
def Accepts (t : Tree) (positions : List Nat) : Prop :=
  ∀ p ∈ positions, ∀ n, t.get? p = some n → t.rejects n = false

/-- The error is about the first of the listed nodes that is rejected. -/
def BlamesFirst (t : Tree) (stem : Text) (order : List Nat) (e : SymbolError) : Prop :=
  ∃ before p after n, order = before ++ p :: after ∧ t.Accepts before ∧ t.get? p = some n ∧
    t.rejects n = true ∧ e.Blames n p (stem ++ Text.ofNat (t.numberIn order p))

/-- Placing the rest of the listed nodes ends well if none is rejected, and else at the
first that is. -/
theorem places_outcome (hTree : t.Assembled) (hOrder : t.order root = .ok order)
    {usage : Usage} (hUsage : Usage.ofOrder t root order = .ok usage)
    {done rest : List Nat} (hSplit : order = done ++ rest) {p : Progress}
    (hImage : Image t usage device settings done p.table)
    (hCount : p.next = done.countP t.isNumbered) (hDone : t.Accepts done) :
    (∃ next, rest.foldlM (Progress.place t usage device settings) p = .ok next ∧
        t.Accepts order) ∨
      ∃ e, rest.foldlM (Progress.place t usage device settings) p = .error e ∧
        t.BlamesFirst settings.nameStem order e := by
  induction rest generalizing done p with
  | nil =>
      rw [List.append_nil] at hSplit
      exact .inl ⟨p, rfl, hSplit ▸ hDone⟩
  | cons q rest ih =>
      have hMem : q ∈ order := hSplit ▸ List.mem_append_right done (.head _)
      obtain ⟨n, hn⟩ := exists_node_of_mem_order hOrder hMem
      have hNodup := nodup_order hOrder
      rw [hSplit] at hNodup
      have hq : q ∉ done := fun hMem =>
        (List.nodup_append.mp hNodup).2.2 q hMem q List.mem_cons_self rfl
      have hL : Covered t usage device settings done p.table :=
        ⟨hImage, fun r hr =>
          Usage.covers_ofOrder hOrder hUsage (hSplit ▸ List.mem_append_left (q :: rest) hr)⟩
      have hJudges := hL.place_judges hn hq
        (fun c hc => operandsFirst_order hOrder done q rest hSplit c ⟨n, hn, hc⟩)
        (hTree.formed_reshape hn)
      rw [List.foldlM_cons]
      cases hPlace : Progress.place t usage device settings p q with
      | error e =>
          rw [hPlace] at hJudges
          refine .inr ⟨e, rfl, done, q, rest, n, hSplit, hDone, hn, hJudges.1, ?_⟩
          rw [hSplit, numberIn_split hq, ← hCount]
          exact hJudges.2
      | ok next =>
          rw [hPlace] at hJudges
          obtain ⟨hNext, hNumber⟩ := hImage.place hCount hPlace
          rw [ok_bind]
          refine ih (by rw [hSplit, List.append_cons]) hNext hNumber ?_
          intro r hr m hm
          rcases List.mem_append.mp hr with hr | hr
          · exact hDone r hr m hm
          · rw [List.mem_singleton.mp hr, hn] at hm
            cases hm
            exact hJudges

/-- Lowering from a root in the tree. -/
theorem ofTree_outcome (hTree : t.Assembled) (hOrder : t.order root = .ok order)
    (device : Device) (settings : Settings) :
    (∃ table, Table.ofTree t root device settings = .ok table ∧ t.Accepts order) ∨
      ∃ e, Table.ofTree t root device settings = .error e ∧
        t.BlamesFirst settings.nameStem order e := by
  obtain ⟨usage, hUsage⟩ := Usage.exists_ofOrder hOrder
  rw [Table.ofTree_eq hOrder hUsage]
  rcases places_outcome (p := ⟨.empty, 0⟩) hTree hOrder hUsage (List.nil_append order).symm
      (Image.start t usage device settings) rfl nofun with ⟨next, hRun, hAll⟩ | ⟨e, hRun, hFirst⟩
  · rw [hRun]
    exact .inl ⟨next.table, rfl, hAll⟩
  · rw [hRun]
    exact .inr ⟨e, rfl, hFirst⟩

/-- The error about the first rejected node contradicts that all are accepted. -/
theorem BlamesFirst.not_accepts {stem : Text} {e : SymbolError} (h : t.BlamesFirst stem order e) :
    ¬ t.Accepts order := by
  obtain ⟨before, p, after, n, rfl, -, hn, hRejected, -⟩ := h
  intro hAll
  rw [hAll p (List.mem_append_right _ (.head _)) n hn] at hRejected
  exact nomatch hRejected

/-- The error about a node is about its strides or about its operand. -/
theorem BlamesFirst.cases {stem : Text} {e : SymbolError} (h : t.BlamesFirst stem order e) :
    (∃ handle rank strides, e = .strideCount handle rank strides) ∨
      ∃ p fault, e = .invalidOperand p fault := by
  obtain ⟨-, p, -, n, -, -, -, -, hBlames⟩ := h
  unfold SymbolError.Blames at hBlames
  split at hBlames
  · exact .inl ⟨_, _, _, hBlames⟩
  · exact .inr ⟨p, hBlames⟩

end Tree

/-- **Lowering fails exactly on ill-formed nodes.**  A root outside the tree is an error of
the walk.  From any other root lowering succeeds if and only if no node that the root
reaches is rejected; else the error is about the first rejected node of the walk.  No
error is an overflow, an unknown or occupied position, or a missing attribute. -/
theorem lowering_fails_only_on_rejected {t : Tree} (hTree : t.Assembled) (root : Nat)
    (device : Device) (settings : Settings) :
    (t.size ≤ root →
        Table.ofTree t root device settings = .error (.tree (.missingChild root root))) ∧
      (root < t.size → ∃ order, t.order root = .ok order ∧ (∀ p, p ∈ order ↔ t.Reaches root p) ∧
        ((∃ table, Table.ofTree t root device settings = .ok table) ↔
          ∀ p n, t.Reaches root p → t.get? p = some n → t.rejects n = false) ∧
        ((∃ p n, t.Reaches root p ∧ t.get? p = some n ∧ t.rejects n = true) →
          ∃ e, Table.ofTree t root device settings = .error e ∧
            t.BlamesFirst settings.nameStem order e)) ∧
      ∀ e, Table.ofTree t root device settings = .error e →
        e ≠ .overflow ∧ (∀ p, e ≠ .unknownPosition p) ∧ (∀ p, e ≠ .occupiedPosition p) ∧
          ∀ handle name, e ≠ .missingAttribute handle name := by
  have hOutside (h : t.size ≤ root) :
      Table.ofTree t root device settings = .error (.tree (.missingChild root root)) := by
    unfold Table.ofTree
    rw [Tree.order_eq_error h]
    rfl
  refine ⟨hOutside, fun hRoot => ?_, fun e he => ?_⟩
  · obtain ⟨order, hOrder⟩ := Tree.exists_order hRoot
    have hReach (p : Nat) : p ∈ order ↔ t.Reaches root p := Tree.mem_order_iff hOrder
    have hAccepts : t.Accepts order ↔
        ∀ p n, t.Reaches root p → t.get? p = some n → t.rejects n = false :=
      ⟨fun h p n hp hn => h p ((hReach p).mpr hp) n hn,
        fun h p hp n hn => h p n ((hReach p).mp hp) hn⟩
    refine ⟨order, hOrder, hReach, ?_⟩
    rw [← hAccepts]
    rcases Tree.ofTree_outcome hTree hOrder device settings with
      ⟨table, hTable, hAll⟩ | ⟨e, hError, hFirst⟩
    · refine ⟨⟨fun _ => hAll, fun _ => ⟨table, hTable⟩⟩, ?_⟩
      rintro ⟨p, n, hp, hn, hRejected⟩
      rw [hAccepts.mp hAll p n hp hn] at hRejected
      exact nomatch hRejected
    · rw [hError]
      exact ⟨⟨nofun, fun hAll => absurd hAll hFirst.not_accepts⟩, fun _ => ⟨e, rfl, hFirst⟩⟩
  · by_cases hRoot : root < t.size
    · obtain ⟨order, hOrder⟩ := Tree.exists_order hRoot
      rcases Tree.ofTree_outcome hTree hOrder device settings with
        ⟨table, hTable, -⟩ | ⟨e', hError, hFirst⟩
      · rw [hTable] at he
        exact nomatch he
      · rw [hError] at he
        cases he
        rcases hFirst.cases with ⟨handle, rank, strides, rfl⟩ | ⟨p, fault, rfl⟩
        · exact ⟨nofun, nofun, nofun, nofun⟩
        · exact ⟨nofun, nofun, nofun, nofun⟩
    · rw [hOutside (by omega)] at he
      cases he
      exact ⟨nofun, nofun, nofun, nofun⟩

/-- The diagonal of the diagonal of a reshaped buffer, summed over three axes: the last two
nodes are appended by hand, and neither can become a symbol. -/
def Tree.doubleDiagonal : Tree :=
  let views := ((empty.buffer .float32 [4] [1] 0).1.append
    ⟨.view .reshape, .float32, [2, 2], some 0, none⟩ (by decide)).append
    ⟨.view .diagonal, .float32, [2], some 1, none⟩ (by decide)
  (views.append ⟨.view .diagonal, .float32, [1], some 2, none⟩ (by decide)).append
    ⟨.reduce .add [0, 1, 2], .float32, [], some 3, none⟩ (by decide)

theorem Tree.assembled_doubleDiagonal : doubleDiagonal.Assembled := by
  have hBuffer := Assembled.call .empty (.buffer .float32 [4] [1] 0) rfl
  have hViews := (hBuffer.call (.reshape 0 [2, 2]) rfl).call (.diagonal 1) rfl
  have hDiagonal := hViews.push ⟨.view .diagonal, .float32, [1], some 2, none⟩ (by decide) rfl
  exact hDiagonal.push ⟨.reduce .add [0, 1, 2], .float32, [], some 3, none⟩ (by decide) rfl

/-- The walk meets the diagonal of the vector before the sum over it. -/
theorem lowering_fails_on_doubleDiagonal :
    (∃ table, Table.ofTree .doubleDiagonal 2 .cpu {} = .ok table) ∧
      (∃ fault, Table.ofTree .doubleDiagonal 4 .cpu {} = .error (.invalidOperand 3 fault)) ∧
      Table.ofTree .doubleDiagonal 5 .cpu {} = .error (.tree (.missingChild 5 5)) := by
  have hFails (root : Nat) :=
    lowering_fails_only_on_rejected Tree.assembled_doubleDiagonal root .cpu {}
  -- the first three nodes can become symbols
  have hViews {p : Nat} {n : Node} (hp : p ≤ 2) (hn : Tree.doubleDiagonal.get? p = some n) :
      Tree.doubleDiagonal.rejects n = false := by
    have hCases : p = 0 ∨ p = 1 ∨ p = 2 := by omega
    rcases hCases with rfl | rfl | rfl
    · cases hn
      rfl
    · cases hn
      rfl
    · cases hn
      rfl
  refine ⟨?_, ?_, (hFails 5).1 (by decide)⟩
  · obtain ⟨order, -, -, hSucceeds, -⟩ := (hFails 2).2.1 (by decide)
    exact hSucceeds.mpr fun p n hp hn => hViews hp.le hn
  · obtain ⟨order, hOrder, hReach, -, hBlamed⟩ := (hFails 4).2.1 (by decide)
    have hReaches : Tree.doubleDiagonal.Reaches 4 3 := .single ⟨_, rfl, by decide⟩
    obtain ⟨e, hError, before, p, after, n, hSplit, hBefore, hn, hRejected, hBlames⟩ :=
      hBlamed ⟨3, _, hReaches, rfl, rfl⟩
    have hp : p ≤ 4 := ((hReach p).mp (hSplit ▸ List.mem_append_right _ (.head _))).le
    have hCases : p ≤ 2 ∨ p = 3 ∨ p = 4 := by omega
    rcases hCases with hp | rfl | rfl
    · rw [hViews hp hn] at hRejected
      exact nomatch hRejected
    · cases hn
      obtain ⟨fault, rfl⟩ := hBlames
      exact ⟨fault, hError⟩
    · -- the sum stands behind its operand, which is rejected too
      cases hn
      have hMem := Tree.operandsFirst_order hOrder before 4 after hSplit 3 ⟨_, rfl, by decide⟩
      exact nomatch hBefore 3 hMem _ rfl

end ArrayKernel
