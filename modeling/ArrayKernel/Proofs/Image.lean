import ArrayKernel.Proofs.Built
import ArrayKernel.Proofs.Order

/-!
# The image of a tree in its table

`Makes` says what the symbol of a node is, in terms of the table that holds the
operands; tables only grow, so the finished table serves for every node.  `Image`
collects what holds of a finished lowering: the table has the listed positions, every
symbol is the one its node makes, names are numbered in the order of the list, and a
node stands behind its operands.

Leaves are exempt from the last point: a leaf that is appended by hand with operands
is lowered without a look at them.
-/

namespace ArrayKernel

namespace Table

/-- Every symbol of one table is in the other, at the same position. -/
def Extends (a b : Table) : Prop := ∀ ⦃p s⦄, a.get? p = some s → b.get? p = some s

theorem Extends.contains {a b : Table} (h : a.Extends b) {p : Nat} (hp : a.contains p = true) :
    b.contains p = true := by
  obtain ⟨s, hs⟩ := contains_iff.mp hp
  exact contains_iff.mpr ⟨s, h hs⟩

theorem lookup_eq_ok_iff {t : Table} {p : Nat} {s : Symbol} :
    t.lookup p = .ok s ↔ t.get? p = some s := by
  unfold lookup
  split
  · next x hx => simp [hx]
  · next hx => simp [hx]

theorem not_contains_of_insert {t next : Table} {p : Nat} {s : Symbol}
    (h : t.insert p s = .ok next) : t.contains p = false := by
  unfold insert at h
  split at h
  · cases h
  · next hFree => simpa using hFree

theorem extends_of_insert {t next : Table} {p : Nat} {s : Symbol}
    (h : t.insert p s = .ok next) : t.Extends next := by
  intro q x hx
  have hFree := not_contains_of_insert h
  rw [get?_of_insert h, if_neg, hx]
  rintro rfl
  rw [contains_iff.mpr ⟨x, hx⟩] at hFree
  exact nomatch hFree

theorem contains_of_insert {t next : Table} {p : Nat} {s : Symbol}
    (h : t.insert p s = .ok next) (q : Nat) :
    next.contains q = true ↔ q = p ∨ t.contains q = true := by
  simp only [contains_iff, get?_of_insert h]
  by_cases hq : q = p
  · simp [hq]
  · simp [hq]

end Table

namespace Links

theorem resolve_eq_ok_iff {table : Table} {position : Nat} {node : Node} {links : Links} :
    resolve table position node = .ok links ↔
      (∀ c ∈ node.children, table.contains c = true) ∧
        links = ⟨position, node.op, node.shape, node.lhs, node.rhs⟩ := by
  unfold resolve
  split
  · next c hc =>
    have hMem := List.mem_of_find?_eq_some hc
    have hNot := List.find?_some hc
    constructor
    · exact nofun
    · rintro ⟨hAll, -⟩
      rw [hAll c hMem] at hNot
      exact nomatch hNot
  · next hNone =>
    have hAll : ∀ c ∈ node.children, table.contains c = true := by
      intro c hc
      simpa using List.find?_eq_none.mp hNone c hc
    constructor
    · intro h
      exact ⟨hAll, (Except.ok.inj h).symm⟩
    · rintro ⟨-, rfl⟩
      rfl

theorem operand_eq_ok {links : Links} {table : Table} {s : Symbol}
    (h : links.operand table = .ok s) :
    ∃ position, links.lhs = some position ∧ table.get? position = some s := by
  unfold operand at h
  split at h
  · next position hLhs => exact ⟨position, hLhs, Table.lookup_eq_ok_iff.mp h⟩
  · exact nomatch h

end Links

/-! ## What a node becomes -/

/-- The links of the node at a position. -/
def Node.links (node : Node) (position : Nat) : Links :=
  ⟨position, node.op, node.shape, node.lhs, node.rhs⟩

/-- The symbols that the node at a position can become, given the table of its operands
and the number for its name. -/
inductive Makes (table : Table) (number : Nat) (device : Device) (settings : Settings)
    (position : Nat) (node : Node) : Symbol → Prop
  | buffer {strides : List Nat} {start : Nat} (hOp : node.op = .buffer strides start)
      (hLength : strides.length = node.shape.length) :
      Makes table number device settings position node
        (.plain device node.dtype (.generated settings.nameStem number)
          (.buffer ⟨node.shape, strides, start, hLength⟩ false none))
  | hostScalar (hOp : node.op = .hostScalar) :
      Makes table number device settings position node
        (.hostScalar device node.dtype (.generated settings.nameStem number))
  | placeholder {level : Nat} (hOp : node.op = .placeholder level) :
      Makes table number device settings position node
        (.placeholder device level settings.inductionStem)
  | binary {op : BinaryOp} {lhs : Option Symbol} (hOp : node.op = .binary op)
      (hChildren : ∀ c ∈ node.children, table.contains c = true)
      (hLhs : Links.symbol? table node.lhs = .ok lhs) :
      Makes table number device settings position node
        (.plain device node.dtype (.generated settings.nameStem number)
          (.binary (node.links position)
            (.ofBinary op (lhs.elim node.dtype Symbol.dtype) device.dialect)))
  | unary {op : UnaryOp} {child : Nat} {operand : Symbol} (hOp : node.op = .unary op)
      (hChildren : ∀ c ∈ node.children, table.contains c = true)
      (hLhs : node.lhs = some child) (hOperand : table.get? child = some operand) :
      Makes table number device settings position node
        (.plain device node.dtype (.generated settings.nameStem number)
          (.unary (node.links position)
            (.ofUnary op operand.dtype node.dtype device.dialect)))
  | reduction {op : ReduceOp} {axes : List Nat} {child : Nat} {operand : Symbol}
      (hOp : node.op = .reduce op axes)
      (hChildren : ∀ c ∈ node.children, table.contains c = true)
      (hLhs : node.lhs = some child) (hOperand : table.get? child = some operand)
      (hAxes : axes.length = 1 ∨ axes.length = 2) :
      Makes table number device settings position node
        ⟨.generated settings.nameStem number, node.dtype, device,
          .insert .empty (op.helper node.dtype device.dialect),
          (List.range axes.length).map Symbol.reductionScope,
          .reduction (node.links position) op axes.length⟩
  | view {v : View} {child : Nat} {operand : Symbol} {source : Shape} {under : Storage}
      {element : ElementRef} (hOp : node.op = .view v)
      (hChildren : ∀ c ∈ node.children, table.contains c = true)
      (hLhs : node.lhs = some child) (hOperand : table.get? child = some operand)
      (hArray : operand.array? = some (source, under))
      (hMatrix : v = .diagonal → source.length = 2)
      (hElement : v.elementRef? operand.accessName (v.storage under source.length) node.shape
        source = some element) :
      Makes table number device settings position node
        ⟨.generated settings.nameStem number, node.dtype, device,
          operand.helpers.insert
            ⟨accessName (settings.nameStem ++ Text.ofNat number),
              IndexExpr.axisNames node.shape.length, element.text⟩,
          [], .view (node.links position) v node.shape (v.storage under source.length)⟩
  | loop {bounds : LoopBounds} {child : Nat} {operand : Symbol} (hOp : node.op = .loop bounds)
      (hChildren : ∀ c ∈ node.children, table.contains c = true)
      (hLhs : node.lhs = some child) (hOperand : table.get? child = some operand) :
      Makes table number device settings position node
        ((Symbol.plain device node.dtype (.generated settings.nameStem number)
          (.loop (node.links position) bounds
            (settings.inductionStem ++ Text.ofNat bounds.level))).addScope
              ("sfor" ++ Text.ofNat bounds.level))

namespace Makes

variable {table : Table} {number position : Nat} {device : Device} {settings : Settings}
  {node : Node} {s : Symbol}

theorem of_buffer {strides : List Nat} {start : Nat} (hOp : node.op = .buffer strides start)
    (h : Symbol.buffer device node.dtype (.generated settings.nameStem number) node.shape strides
      start = .ok s) :
    Makes table number device settings position node s := by
  unfold Symbol.buffer at h
  split at h
  · next hLength =>
    cases h
    exact .buffer hOp hLength
  · exact nomatch h

theorem of_binary {op : BinaryOp} (hOp : node.op = .binary op)
    (h : Symbol.binary device (.generated settings.nameStem number) position node table = .ok s) :
    Makes table number device settings position node s := by
  obtain ⟨links, hLinks, hRest⟩ := bind_eq_ok.mp h
  obtain ⟨hChildren, rfl⟩ := Links.resolve_eq_ok_iff.mp hLinks
  rw [hOp] at hRest
  obtain ⟨lhs, hLhs, hEq⟩ := bind_eq_ok.mp hRest
  cases hEq
  rw [← hOp]
  exact .binary hOp hChildren hLhs

theorem of_unary {op : UnaryOp} (hOp : node.op = .unary op)
    (h : Symbol.unary device (.generated settings.nameStem number) position node table = .ok s) :
    Makes table number device settings position node s := by
  obtain ⟨links, hLinks, hRest⟩ := bind_eq_ok.mp h
  obtain ⟨hChildren, rfl⟩ := Links.resolve_eq_ok_iff.mp hLinks
  rw [hOp] at hRest
  obtain ⟨operand, hOperand, hEq⟩ := bind_eq_ok.mp hRest
  obtain ⟨child, hLhs, hGet⟩ := Links.operand_eq_ok hOperand
  cases hEq
  rw [← hOp]
  exact .unary hOp hChildren hLhs hGet

theorem of_reduction {op : ReduceOp} {axes : List Nat} (hOp : node.op = .reduce op axes)
    (h : Symbol.reduction device (.generated settings.nameStem number) position node table =
      .ok s) :
    Makes table number device settings position node s := by
  obtain ⟨links, hLinks, hRest⟩ := bind_eq_ok.mp h
  obtain ⟨hChildren, rfl⟩ := Links.resolve_eq_ok_iff.mp hLinks
  rw [hOp] at hRest
  dsimp only at hRest
  split at hRest
  · next hAxes =>
    obtain ⟨operand, hOperand, hEq⟩ := bind_eq_ok.mp hRest
    obtain ⟨child, hLhs, hGet⟩ := Links.operand_eq_ok hOperand
    cases hEq
    rw [← hOp]
    exact .reduction hOp hChildren hLhs hGet hAxes
  · exact nomatch hRest

theorem of_loop {bounds : LoopBounds} (hOp : node.op = .loop bounds)
    (h : Symbol.loop device (.generated settings.nameStem number) position node table
      settings.inductionStem = .ok s) :
    Makes table number device settings position node s := by
  obtain ⟨links, hLinks, hRest⟩ := bind_eq_ok.mp h
  obtain ⟨hChildren, rfl⟩ := Links.resolve_eq_ok_iff.mp hLinks
  rw [hOp] at hRest
  obtain ⟨operand, hOperand, hEq⟩ := bind_eq_ok.mp hRest
  obtain ⟨child, hLhs, hGet⟩ := Links.operand_eq_ok hOperand
  cases hEq
  rw [← hOp]
  exact .loop hOp hChildren hLhs hGet

theorem of_view {v : View} (hOp : node.op = .view v)
    (h : Symbol.view device (.generated settings.nameStem number) position node table = .ok s) :
    Makes table number device settings position node s := by
  obtain ⟨links, hLinks, hRest⟩ := bind_eq_ok.mp h
  obtain ⟨hChildren, rfl⟩ := Links.resolve_eq_ok_iff.mp hLinks
  rw [hOp] at hRest
  obtain ⟨operand, hOperand, hRest⟩ := bind_eq_ok.mp hRest
  obtain ⟨child, hLhs, hGet⟩ := Links.operand_eq_ok hOperand
  split at hRest
  · exact nomatch hRest
  · next source under hArray =>
    split at hRest
    · exact nomatch hRest
    · next hMatrix =>
      unfold Symbol.viewOf at hRest
      dsimp only at hRest
      split at hRest
      · exact nomatch hRest
      · next element hElement =>
        cases hRest
        have hSource : v = .diagonal → source.length = 2 := by
          intro hv
          exact Decidable.byContradiction fun hLength => hMatrix ⟨hv, hLength⟩
        rw [← hOp]
        exact .view hOp hChildren hLhs hGet hArray hSource hElement

/-- What `Progress.symbol` makes of a node. -/
theorem of_symbol {p : Progress} (h : p.symbol device settings position node = .ok s) :
    Makes p.table p.next device settings position node s := by
  unfold Progress.symbol at h
  dsimp only at h
  split at h
  · next hOp => exact of_buffer hOp h
  · next hOp =>
    cases h
    exact .hostScalar hOp
  · next hOp =>
    cases h
    exact .placeholder hOp
  · next hOp => exact of_binary hOp h
  · next hOp => exact of_unary hOp h
  · next hOp => exact of_reduction hOp h
  · next hOp => exact of_view hOp h
  · next hOp => exact of_loop hOp h

/-- A node makes the same symbol when the table has grown. -/
theorem mono {next : Table} (hNext : table.Extends next)
    (h : Makes table number device settings position node s) :
    Makes next number device settings position node s := by
  cases h with
  | buffer hOp hLength => exact .buffer hOp hLength
  | hostScalar hOp => exact .hostScalar hOp
  | placeholder hOp => exact .placeholder hOp
  | binary hOp hChildren hLhs =>
      refine .binary hOp (fun c hc => hNext.contains (hChildren c hc)) ?_
      cases hl : node.lhs with
      | none =>
          rw [hl] at hLhs
          exact hLhs
      | some c =>
          rw [hl] at hLhs
          have hMem : c ∈ node.children := Node.mem_children.mpr (.inl hl)
          obtain ⟨x, hx⟩ := Table.contains_iff.mp (hChildren c hMem)
          -- the left operand is the same symbol in both tables
          have hOld : table.lookup c = .ok x := Table.lookup_eq_ok_iff.mpr hx
          have hNew : next.lookup c = .ok x := Table.lookup_eq_ok_iff.mpr (hNext hx)
          show (next.lookup c).map some = .ok _
          rw [hNew, ← hOld]
          exact hLhs
  | unary hOp hChildren hLhs hOperand =>
      exact .unary hOp (fun c hc => hNext.contains (hChildren c hc)) hLhs (hNext hOperand)
  | reduction hOp hChildren hLhs hOperand hAxes =>
      exact .reduction hOp (fun c hc => hNext.contains (hChildren c hc)) hLhs (hNext hOperand)
        hAxes
  | view hOp hChildren hLhs hOperand hArray hMatrix hElement =>
      exact .view hOp (fun c hc => hNext.contains (hChildren c hc)) hLhs (hNext hOperand) hArray
        hMatrix hElement
  | loop hOp hChildren hLhs hOperand =>
      exact .loop hOp (fun c hc => hNext.contains (hChildren c hc)) hLhs (hNext hOperand)

/-- A node that is no leaf has its operands in the table. -/
theorem contains_child (h : Makes table number device settings position node s)
    (hInner : node.op.family ≠ .leaf) {c : Nat} (hc : c ∈ node.children) :
    table.contains c = true := by
  cases h with
  | buffer hOp => exact absurd (by rw [hOp]; rfl) hInner
  | hostScalar hOp => exact absurd (by rw [hOp]; rfl) hInner
  | placeholder hOp => exact absurd (by rw [hOp]; rfl) hInner
  | binary _ hChildren => exact hChildren c hc
  | unary _ hChildren => exact hChildren c hc
  | reduction _ hChildren => exact hChildren c hc
  | view _ hChildren => exact hChildren c hc
  | loop _ hChildren => exact hChildren c hc

end Makes

/-! ## The numbers of names -/

namespace Tree

/-- Whether the node at a position takes a number for its name: all but loop counters do. -/
def isNumbered (t : Tree) (position : Nat) : Bool :=
  match (t.get? position).map Node.op with
  | some (.placeholder _) => false
  | _ => true

/-- The number for the name of a position: how many numbered positions are listed before. -/
def numberIn (t : Tree) (order : List Nat) (position : Nat) : Nat :=
  (order.takeWhile fun q => q ≠ position).countP t.isNumbered

variable {t : Tree} {p q : Nat}

theorem numberIn_split {before after : List Nat} (hp : p ∉ before) :
    t.numberIn (before ++ p :: after) p = before.countP t.isNumbered := by
  have hBefore : ∀ q ∈ before, decide (q ≠ p) = true := by
    intro q hq
    have hne : q ≠ p := fun hEq => hp (hEq ▸ hq)
    simp [hne]
  unfold numberIn
  rw [List.takeWhile_append_of_pos hBefore]
  simp

theorem numberIn_append {order : List Nat} (hp : p ∈ order) (rest : List Nat) :
    t.numberIn (order ++ rest) p = t.numberIn order p := by
  induction order with
  | nil => exact nomatch hp
  | cons x order ih =>
      unfold numberIn at *
      rw [List.cons_append, List.takeWhile_cons, List.takeWhile_cons]
      by_cases hx : x = p
      · simp [hx]
      · have hMem : p ∈ order := (List.mem_cons.mp hp).resolve_left fun hEq => hx hEq.symm
        have hne : decide (x ≠ p) = true := by simp [hx]
        rw [hne, if_pos rfl, if_pos rfl, List.countP_cons, List.countP_cons, ih hMem]

/-- A numbered position has a smaller number than the positions behind it. -/
theorem numberIn_lt {before after : List Nat} (hNodup : (before ++ p :: after).Nodup)
    (hq : q ∈ before) (hNumbered : t.isNumbered q = true) :
    t.numberIn (before ++ p :: after) q < t.numberIn (before ++ p :: after) p := by
  obtain ⟨first, second, rfl⟩ := List.append_of_mem hq
  have hFirst : q ∉ first := by
    intro hMem
    have hDisjoint := (List.nodup_append.mp hNodup).1
    exact (List.nodup_append.mp hDisjoint).2.2 q hMem q List.mem_cons_self rfl
  have hp : p ∉ first ++ q :: second := by
    intro hMem
    exact (List.nodup_append.mp hNodup).2.2 p hMem p List.mem_cons_self rfl
  have hBefore : t.numberIn ((first ++ q :: second) ++ p :: after) q =
      first.countP t.isNumbered := by
    rw [List.append_assoc, List.cons_append, numberIn_split hFirst]
  rw [hBefore, numberIn_split hp, List.countP_append, List.countP_cons, hNumbered]
  simp only [if_true]
  omega

theorem numberIn_inj {order : List Nat} (hNodup : order.Nodup) (hp : p ∈ order) (hq : q ∈ order)
    (hpNumbered : t.isNumbered p = true) (hqNumbered : t.isNumbered q = true)
    (hEq : t.numberIn order p = t.numberIn order q) : p = q := by
  obtain ⟨before, after, rfl⟩ := List.append_of_mem hp
  rcases List.mem_append.mp hq with hq | hq
  · have hLt := numberIn_lt hNodup hq hqNumbered
    omega
  · rcases List.mem_cons.mp hq with rfl | hq
    · rfl
    · -- here `q` stands behind `p`
      obtain ⟨first, second, rfl⟩ := List.append_of_mem hq
      have hSplit : before ++ p :: (first ++ q :: second) =
          (before ++ p :: first) ++ q :: second := by simp
      rw [hSplit] at hNodup hEq
      have hMem : p ∈ before ++ p :: first := by simp
      have hLt := numberIn_lt hNodup hMem hpNumbered
      omega

end Tree

/-! ## A finished lowering -/

/-- The symbol once it is known how its position is used. -/
def Symbol.accessed (s : Symbol) (usage : Usage) (contiguous : Bool) (position : Nat) : Symbol :=
  let stored := if position ∈ usage.written then s.addStore contiguous else s
  if position ∈ usage.read then stored.addLoad contiguous else stored

/-- What holds of the table of the nodes at the listed positions. -/
structure Image (t : Tree) (usage : Usage) (device : Device) (settings : Settings)
    (order : List Nat) (table : Table) : Prop where
  contains_iff : ∀ p, table.contains p = true ↔ p ∈ order
  nodup : order.Nodup
  made : ∀ {p s}, table.get? p = some s → ∃ n made, t.get? p = some n ∧
    Makes table (t.numberIn order p) device settings p n made ∧
      s = made.accessed usage settings.contiguous p
  behind : ∀ {p n c}, p ∈ order → t.get? p = some n → n.op.family ≠ .leaf → c ∈ n.children →
    ∃ before after, order = before ++ p :: after ∧ c ∈ before

/-- A root with an order is lowered by placing the listed nodes. -/
theorem Table.ofTree_eq {t : Tree} {root : Nat} {order : List Nat} {usage : Usage}
    (h : t.order root = .ok order) (hUsage : Usage.ofOrder t root order = .ok usage)
    (device : Device) (settings : Settings) :
    ofTree t root device settings = (do
      let progress ← order.foldlM (Progress.place t usage device settings) ⟨.empty, 0⟩
      return progress.table) := by
  unfold ofTree
  rw [h]
  show Usage.ofOrder t root order >>= _ = _
  rw [hUsage]
  rfl

namespace Image

variable {t : Tree} {usage : Usage} {device : Device} {settings : Settings} {done : List Nat}
  {p next : Progress} {q : Nat}

theorem place_eq_ok (h : Progress.place t usage device settings p q = .ok next) :
    ∃ n made, t.get? q = some n ∧ p.symbol device settings q n = .ok made ∧
      p.table.insert q (made.accessed usage settings.contiguous q) = .ok next.table ∧
        next.next = p.nextAfter n := by
  unfold Progress.place at h
  split at h
  · exact nomatch h
  · next n hn =>
    obtain ⟨made, hMade, hRest⟩ := bind_eq_ok.mp h
    obtain ⟨table, hTable, hEq⟩ := bind_eq_ok.mp hRest
    cases hEq
    exact ⟨n, made, hn, hMade, hTable, rfl⟩

theorem nextAfter_eq {n : Node} (hn : t.get? q = some n) :
    p.nextAfter n = p.next + if t.isNumbered q then 1 else 0 := by
  unfold Progress.nextAfter Tree.isNumbered
  rw [hn]
  cases hOp : n.op <;> simp [hOp]

theorem start (t : Tree) (usage : Usage) (device : Device) (settings : Settings) :
    Image t usage device settings [] .empty where
  contains_iff := by simp [Table.contains, Table.empty]
  nodup := List.nodup_nil
  made := nofun
  behind := nofun

/-- Placing one more node keeps the image. -/
theorem place (h : Image t usage device settings done p.table)
    (hCount : p.next = done.countP t.isNumbered)
    (hPlace : Progress.place t usage device settings p q = .ok next) :
    Image t usage device settings (done ++ [q]) next.table ∧
      next.next = (done ++ [q]).countP t.isNumbered := by
  obtain ⟨n, made, hn, hMade, hInsert, hNext⟩ := place_eq_ok hPlace
  have hMakes := Makes.of_symbol hMade
  have hGrown := Table.extends_of_insert hInsert
  have hFree : q ∉ done := by
    intro hq
    have hFull := (h.contains_iff q).mpr hq
    rw [Table.not_contains_of_insert hInsert] at hFull
    exact nomatch hFull
  have hNumber : t.numberIn (done ++ [q]) q = p.next := by
    rw [Tree.numberIn_split hFree, hCount]
  refine ⟨⟨fun r => ?_, ?_, ?_, ?_⟩, ?_⟩
  · rw [Table.contains_of_insert hInsert, h.contains_iff]
    simp [or_comm]
  · refine List.nodup_append.mpr ⟨h.nodup, by simp, ?_⟩
    intro r hr x hx hEq
    rw [List.mem_singleton.mp hx] at hEq
    exact hFree (hEq ▸ hr)
  · intro r s hs
    rw [Table.get?_of_insert hInsert] at hs
    by_cases hr : r = q
    · rw [if_pos hr] at hs
      subst hr
      cases hs
      refine ⟨n, made, hn, ?_, rfl⟩
      rw [hNumber]
      exact hMakes.mono hGrown
    · -- an older symbol keeps its number, which counts what is listed before it
      rw [if_neg hr] at hs
      obtain ⟨m, other, hm, hOther, hEq⟩ := h.made hs
      have hMem : r ∈ done := (h.contains_iff r).mp (Table.contains_iff.mpr ⟨s, hs⟩)
      refine ⟨m, other, hm, ?_, hEq⟩
      rw [Tree.numberIn_append hMem]
      exact hOther.mono hGrown
  · intro r m c hr hm hInner hc
    rcases List.mem_append.mp hr with hr | hr
    · obtain ⟨before, after, rfl, hMem⟩ := h.behind hr hm hInner hc
      exact ⟨before, after ++ [q], by simp, hMem⟩
    · -- the new node was made from a table that had its operands
      rw [List.mem_singleton] at hr
      subst hr
      rw [hn] at hm
      cases hm
      exact ⟨done, [], rfl, (h.contains_iff c).mp (hMakes.contains_child hInner hc)⟩
  · rw [hNext, nextAfter_eq hn, hCount, List.countP_append, List.countP_singleton]

/-- Placing a list of nodes keeps the image. -/
theorem places {rest : List Nat} (h : Image t usage device settings done p.table)
    (hCount : p.next = done.countP t.isNumbered)
    (hRun : rest.foldlM (Progress.place t usage device settings) p = .ok next) :
    Image t usage device settings (done ++ rest) next.table := by
  induction rest generalizing done p with
  | nil =>
      cases hRun
      rw [List.append_nil]
      exact h
  | cons r rest ih =>
      rw [List.foldlM_cons] at hRun
      obtain ⟨middle, hPlace, hRest⟩ := bind_eq_ok.mp hRun
      obtain ⟨hMiddle, hNext⟩ := h.place hCount hPlace
      rw [List.append_cons]
      exact ih hMiddle hNext hRest

/-- The table of the nodes under a root is the image of their order. -/
theorem of_ofTree {root : Nat} {table : Table}
    (h : Table.ofTree t root device settings = .ok table) :
    ∃ order usage, t.order root = .ok order ∧ Usage.ofOrder t root order = .ok usage ∧
      Image t usage device settings order table := by
  obtain ⟨order, hOrder, hRest⟩ := bind_eq_ok.mp h
  obtain ⟨usage, hUsage, hRest⟩ := bind_eq_ok.mp hRest
  obtain ⟨progress, hRun, hEq⟩ := bind_eq_ok.mp hRest
  cases hEq
  have hOk : t.order root = .ok order := by
    cases hTree : t.order root with
    | error e =>
        rw [hTree] at hOrder
        exact nomatch hOrder
    | ok found =>
        rw [hTree] at hOrder
        exact congrArg Except.ok (Except.ok.inj hOrder)
  have hStart := start t usage device settings
  have hImage := places (p := ⟨.empty, 0⟩) hStart rfl hRun
  exact ⟨order, usage, hOk, hUsage, hImage⟩

end Image

end ArrayKernel
