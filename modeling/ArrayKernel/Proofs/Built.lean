import ArrayKernel.Proofs.Atomicity

/-!
# Trees that the builders grow

A tree is built when it comes from the empty tree by calls of the builders that
succeed.  In a built tree every node has the operands that its operation needs, and
its shape and type follow from theirs by the rule of the operation.  Appending a
node by hand can break these rules; the trees of this file never do.

Each builder has one lemma that says when it succeeds and which node it appends.
-/

namespace ArrayKernel

theorem bind_eq_ok {ε α β : Type} {x : Except ε α} {f : α → Except ε β} {b : β} :
    x >>= f = .ok b ↔ ∃ a, x = .ok a ∧ f a = .ok b := by
  cases x with
  | error e => exact ⟨nofun, fun ⟨_, h, _⟩ => nomatch h⟩
  | ok a => exact ⟨fun h => ⟨a, rfl, h⟩, fun ⟨_, h, hf⟩ => Except.ok.inj h ▸ hf⟩

theorem ok_bind {ε α β : Type} (a : α) (f : α → Except ε β) : Except.ok a >>= f = f a := rfl

theorem eq_ok_of_toOption {ε α : Type} {x : Except ε α} {a : α} (h : x.toOption = some a) :
    x = .ok a := by
  cases x with
  | error e => exact nomatch h
  | ok b => exact congrArg Except.ok (Option.some.inj h)

/-! ## Passes that may fail -/

section

variable {ε α β : Type} {f g : β → α → Except ε β} {P : β → Prop} {l : List α} {b c : β}

/-- What every step keeps holds at the end of a pass. -/
theorem foldlM_induction (hStep : ∀ a ∈ l, ∀ b c, f b a = .ok c → P b → P c)
    (hRun : l.foldlM f b = .ok c) (h : P b) : P c := by
  induction l generalizing b with
  | nil =>
      cases hRun
      exact h
  | cons a l ih =>
      rw [List.foldlM_cons] at hRun
      obtain ⟨middle, hFirst, hRest⟩ := bind_eq_ok.mp hRun
      exact ih (fun x hx => hStep x (.tail _ hx)) hRest (hStep a (.head _) b middle hFirst h)

/-- What the step at one member brings about, and every step keeps, holds at the end. -/
theorem foldlM_of_mem {a : α} (ha : a ∈ l) (hBrings : ∀ b c, f b a = .ok c → P c)
    (hStep : ∀ a ∈ l, ∀ b c, f b a = .ok c → P b → P c) (hRun : l.foldlM f b = .ok c) : P c := by
  -- the pass in front of the member, its step, and the pass behind it
  obtain ⟨before, after, rfl⟩ := List.append_of_mem ha
  rw [List.foldlM_append] at hRun
  obtain ⟨first, -, hRun⟩ := bind_eq_ok.mp hRun
  rw [List.foldlM_cons] at hRun
  obtain ⟨second, hSecond, hRun⟩ := bind_eq_ok.mp hRun
  refine foldlM_induction (fun x hx => hStep x ?_) hRun (hBrings first second hSecond)
  exact List.mem_append_right before (.tail a hx)

/-- A pass whose steps all succeed succeeds. -/
theorem exists_foldlM (h : ∀ a ∈ l, ∀ b, ∃ c, f b a = .ok c) (b : β) :
    ∃ c, l.foldlM f b = .ok c := by
  induction l generalizing b with
  | nil => exact ⟨b, rfl⟩
  | cons a l ih =>
      obtain ⟨middle, hFirst⟩ := h a (.head _) b
      obtain ⟨c, hRest⟩ := ih (fun x hx => h x (.tail _ hx)) middle
      refine ⟨c, ?_⟩
      rw [List.foldlM_cons, hFirst]
      exact hRest

theorem foldlM_congr (h : ∀ a ∈ l, ∀ b, f b a = g b a) (b : β) :
    l.foldlM f b = l.foldlM g b := by
  induction l generalizing b with
  | nil => rfl
  | cons a l ih =>
      rw [List.foldlM_cons, List.foldlM_cons, h a (.head _)]
      exact bind_congr fun middle => ih (fun x hx => h x (.tail _ hx)) middle

end

namespace Shape

variable {s t u : Shape}

theorem count_eq_ok_iff {count : Nat} : s.count = .ok count ↔ s.count? = some count := by
  unfold Shape.count
  cases s.count? <;> simp

theorem denseStrides_eq_ok_iff {strides : List Nat} :
    s.denseStrides = .ok strides ↔ s.denseStrides? = some strides := by
  unfold Shape.denseStrides
  cases s.denseStrides? <;> simp

theorem broadcast_eq_ok_iff : s.broadcast t = .ok u ↔ broadcast? s t = some u := by
  unfold broadcast
  cases broadcast? s t <;> simp

end Shape

namespace Tree

/-- The trees that come from the empty tree by calls of the builders. -/
inductive Built : Tree → Prop
  | empty : Built .empty
  | buffer {t : Tree} (h : Built t) (dtype : ScalarType) (shape : Shape) (strides : List Nat)
      (start : Nat) : Built (t.buffer dtype shape strides start).1
  | dense {t next : Tree} {position : Nat} (h : Built t) (dtype : ScalarType) (shape : Shape)
      (hNext : t.dense dtype shape = .ok (next, position)) : Built next
  | hostScalar {t : Tree} (h : Built t) (dtype : ScalarType) : Built (t.hostScalar dtype).1
  | placeholder {t : Tree} (h : Built t) (level : Nat) : Built (t.placeholder level).1
  | unary {t next : Tree} {position : Nat} (h : Built t) (op : UnaryOp) (arg : Nat)
      (hNext : t.unary op arg = .ok (next, position)) : Built next
  | unaryAs {t next : Tree} {position : Nat} (h : Built t) (op : UnaryOp) (arg : Nat)
      (dtype : ScalarType) (hNext : t.unaryAs op arg dtype = .ok (next, position)) : Built next
  | binary {t next : Tree} {position : Nat} (h : Built t) (op : BinaryOp) (lhs rhs : Nat)
      (hNext : t.binary op lhs rhs = .ok (next, position)) : Built next
  | assign {t next : Tree} {position : Nat} (h : Built t) (target value : Nat)
      (hNext : t.assign target value = .ok (next, position)) : Built next
  | reduce {t next : Tree} {position : Nat} (h : Built t) (op : ReduceOp) (arg : Nat)
      (axes : List Nat) (hNext : t.reduce op arg axes = .ok (next, position)) : Built next
  | reshape {t next : Tree} {position : Nat} (h : Built t) (arg : Nat) (shape : Shape)
      (hNext : t.reshape arg shape = .ok (next, position)) : Built next
  | transpose {t next : Tree} {position : Nat} (h : Built t) (arg : Nat)
      (hNext : t.transpose arg = .ok (next, position)) : Built next
  | diagonal {t next : Tree} {position : Nat} (h : Built t) (arg : Nat)
      (hNext : t.diagonal arg = .ok (next, position)) : Built next
  | loop {t next : Tree} {position : Nat} (h : Built t) (body : Nat) (bounds : LoopBounds)
      (hNext : t.loop body bounds = .ok (next, position)) : Built next

/-- A node has one operand, the node `m`. -/
def Wraps (t : Tree) (n m : Node) : Prop :=
  ∃ position, n.lhs = some position ∧ n.rhs = none ∧ t.get? position = some m

theorem Wraps.eq_of_lhs {t : Tree} {n m o : Node} {c : Nat} (h : t.Wraps n o)
    (hLhs : n.lhs = some c) (hm : t.get? c = some m) : o = m := by
  obtain ⟨position, hPosition, -, hGet⟩ := h
  rw [hLhs] at hPosition
  cases hPosition
  rw [hm] at hGet
  exact (Option.some.inj hGet).symm

/-- The operands, shape and type of a node obey the rule of its operation. -/
def Formed (t : Tree) (n : Node) : Prop :=
  match n.op with
  | .buffer .. => n.lhs = none ∧ n.rhs = none
  | .hostScalar => n.lhs = none ∧ n.rhs = none ∧ n.shape = []
  | .placeholder _ => n.lhs = none ∧ n.rhs = none ∧ n.shape = [] ∧ n.dtype = .int32
  | .unary _ => ∃ m, t.Wraps n m ∧ n.shape = m.shape
  | .binary op =>
    ∃ l r a b, n.lhs = some l ∧ n.rhs = some r ∧ t.get? l = some a ∧ t.get? r = some b ∧
      binaryShape op a.shape b.shape = .ok n.shape ∧
      n.dtype = if op.isComparison then .bool else a.dtype
  | .reduce _ axes =>
    ∃ m, t.Wraps n m ∧ checkAxes m.shape.length [] axes = .ok () ∧
      n.shape = keptExtents m.shape axes ∧ n.dtype = m.dtype
  | .view .reshape =>
    ∃ m count, t.Wraps n m ∧ m.shape.count? = some count ∧ n.shape.count? = some count ∧
      n.dtype = m.dtype
  | .view .transpose => ∃ m, t.Wraps n m ∧ n.shape = m.shape.reverse ∧ n.dtype = m.dtype
  | .view .diagonal =>
    ∃ m rows columns, t.Wraps n m ∧ m.shape = [rows, columns] ∧ n.shape = [min rows columns] ∧
      n.dtype = m.dtype
  | .loop _ => ∃ m, t.Wraps n m ∧ n.shape = m.shape ∧ n.dtype = m.dtype

/-! ## Growing by one node -/

theorem operand_eq_ok_iff {t : Tree} {position : Nat} {n : Node} :
    t.operand position = .ok n ↔ t.get? position = some n := by
  unfold operand
  split
  · next m h => simp [h]
  · next h => simp [h]

theorem push_eq_ok {t next : Tree} {n : Node} {position : Nat}
    (h : t.push n = .ok (next, position)) :
    ∃ hn : ∀ c ∈ n.children, c < t.size, next = t.append n hn ∧ position = t.size := by
  have hRun := Growth.outcome_eq_ok_iff.mp h
  unfold EStateM.run Growth.push at hRun
  split at hRun
  · cases hRun
  · cases hRun
    exact ⟨_, rfl, rfl⟩

/-- A tree has grown by a node that obeys its rule. -/
def Grows (t next : Tree) : Prop :=
  ∃ (n : Node) (hn : ∀ c ∈ n.children, c < t.size), next = t.append n hn ∧ t.Formed n

/-! ## What the builders append -/

section Builders

variable {t : Tree} {arg : Nat} {grown : Tree × Nat}

theorem dense_eq_ok_iff {dtype : ScalarType} {shape : Shape} :
    t.dense dtype shape = .ok grown ↔ ∃ strides, shape.denseStrides? = some strides ∧
      t.push (.leaf (.buffer strides 0) dtype shape) = .ok grown := by
  simp only [dense, Growth.dense, Growth.buffer, Growth.outcome_ofExcept_bind,
    Growth.outcome_push, bind_eq_ok, Shape.denseStrides_eq_ok_iff]

theorem unaryAs_eq_ok_iff {op : UnaryOp} {dtype : ScalarType} :
    t.unaryAs op arg dtype = .ok grown ↔ ∃ m, t.get? arg = some m ∧
      t.push ⟨.unary op, dtype, m.shape, some arg, none⟩ = .ok grown := by
  simp only [unaryAs, Growth.unaryAs, Growth.outcome_operand_bind, Growth.outcome_push, bind_eq_ok,
    operand_eq_ok_iff]

theorem unary_eq_ok_iff {op : UnaryOp} :
    t.unary op arg = .ok grown ↔ ∃ m, t.get? arg = some m ∧
      t.push ⟨.unary op, m.dtype, m.shape, some arg, none⟩ = .ok grown := by
  simp only [unary, Growth.unary, Growth.outcome_operand_bind, bind_eq_ok, operand_eq_ok_iff]
  constructor
  · rintro ⟨m, hm, hAs⟩
    obtain ⟨o, ho, hPush⟩ := unaryAs_eq_ok_iff.mp hAs
    rw [hm] at ho
    cases ho
    exact ⟨m, hm, hPush⟩
  · rintro ⟨m, hm, hPush⟩
    exact ⟨m, hm, unaryAs_eq_ok_iff.mpr ⟨m, hm, hPush⟩⟩

/-- An operator that writes nothing broadcasts its operands. -/
theorem binaryShape_of_ne_assign {op : BinaryOp} (hNot : op ≠ .assign) (lhs rhs : Shape) :
    binaryShape op lhs rhs = lhs.broadcast rhs := by
  cases op with
  | assign => exact absurd rfl hNot
  | _ => rfl

theorem binary_eq_ok_iff {op : BinaryOp} {lhs rhs : Nat} :
    t.binary op lhs rhs = .ok grown ↔ ∃ l, t.get? lhs = some l ∧ ∃ r, t.get? rhs = some r ∧
      ∃ shape, binaryShape op l.shape r.shape = .ok shape ∧
        t.push ⟨.binary op, if op.isComparison then .bool else l.dtype, shape, some lhs,
          some rhs⟩ = .ok grown := by
  simp only [binary, Growth.binary, Growth.outcome_operand_bind, Growth.outcome_ofExcept_bind,
    Growth.outcome_push, bind_eq_ok, operand_eq_ok_iff]

theorem reduce_eq_ok_iff {op : ReduceOp} {axes : List Nat} :
    t.reduce op arg axes = .ok grown ↔ ∃ m, t.get? arg = some m ∧
      checkAxes m.shape.length [] axes = .ok () ∧
        t.push ⟨.reduce op axes, m.dtype, keptExtents m.shape axes, some arg, none⟩ =
          .ok grown := by
  simp only [reduce, Growth.reduce, Growth.outcome_operand_bind, Growth.outcome_ofExcept_bind,
    Growth.outcome_push, bind_eq_ok, operand_eq_ok_iff]
  refine exists_congr fun m => and_congr_right fun _ => ?_
  constructor
  · rintro ⟨⟨⟩, hAxes, hPush⟩
    exact ⟨hAxes, hPush⟩
  · rintro ⟨hAxes, hPush⟩
    exact ⟨(), hAxes, hPush⟩

theorem reshape_eq_ok_iff {shape : Shape} :
    t.reshape arg shape = .ok grown ↔ ∃ m, t.get? arg = some m ∧
      ∃ count, m.shape.count? = some count ∧ shape.count? = some count ∧
        t.push ⟨.view .reshape, m.dtype, shape, some arg, none⟩ = .ok grown := by
  simp only [reshape, Growth.reshape, Growth.outcome_operand_bind, Growth.outcome_ofExcept_bind,
    bind_eq_ok, operand_eq_ok_iff, Shape.count_eq_ok_iff]
  refine exists_congr fun m => and_congr_right fun _ => exists_congr fun input =>
    and_congr_right fun _ => ?_
  constructor
  · rintro ⟨output, hOutput, hRest⟩
    split at hRest
    · next hEq => exact ⟨hEq ▸ hOutput, hRest⟩
    · cases hRest
  · rintro ⟨hOutput, hPush⟩
    refine ⟨input, hOutput, ?_⟩
    rw [if_pos rfl]
    exact hPush

theorem transpose_eq_ok_iff :
    t.transpose arg = .ok grown ↔ ∃ m, t.get? arg = some m ∧
      t.push ⟨.view .transpose, m.dtype, m.shape.reverse, some arg, none⟩ = .ok grown := by
  simp only [transpose, Growth.transpose, Growth.outcome_operand_bind, Growth.outcome_push,
    bind_eq_ok, operand_eq_ok_iff]

theorem diagonal_eq_ok_iff :
    t.diagonal arg = .ok grown ↔ ∃ m, t.get? arg = some m ∧
      ∃ rows columns, m.shape = [rows, columns] ∧
        t.push ⟨.view .diagonal, m.dtype, [min rows columns], some arg, none⟩ = .ok grown := by
  simp only [diagonal, Growth.diagonal, Growth.outcome_operand_bind, bind_eq_ok, operand_eq_ok_iff]
  refine exists_congr fun m => and_congr_right fun _ => ?_
  constructor
  · intro h
    split at h
    · next rows columns hShape => exact ⟨rows, columns, hShape, h⟩
    · cases h
  · rintro ⟨rows, columns, hShape, hPush⟩
    rw [hShape]
    exact hPush

theorem loop_eq_ok_iff {bounds : LoopBounds} :
    t.loop arg bounds = .ok grown ↔ ∃ m, t.get? arg = some m ∧
      t.push ⟨.loop bounds, m.dtype, m.shape, some arg, none⟩ = .ok grown := by
  simp only [loop, Growth.loop, Growth.outcome_operand_bind, Growth.outcome_push, bind_eq_ok,
    operand_eq_ok_iff]

end Builders

/-- The node is one that the call asks for: it has the operation and the operands of the
call, and the type and shape that the call gives. -/
def Asks (t : Tree) : Call → Node → Prop
  | .buffer dtype shape strides start, n =>
    n.op = .buffer strides start ∧ n.dtype = dtype ∧ n.shape = shape
  | .dense dtype shape, n =>
    (∃ strides, shape.denseStrides? = some strides ∧ n.op = .buffer strides 0) ∧
      n.dtype = dtype ∧ n.shape = shape
  | .hostScalar dtype, n => n.op = .hostScalar ∧ n.dtype = dtype
  | .placeholder level, n => n.op = .placeholder level
  | .unary op arg, n =>
    n.op = .unary op ∧ n.lhs = some arg ∧ (t.get? arg).map Node.dtype = some n.dtype
  | .unaryAs op arg dtype, n => n.op = .unary op ∧ n.lhs = some arg ∧ n.dtype = dtype
  | .binary op lhs rhs, n => n.op = .binary op ∧ n.lhs = some lhs ∧ n.rhs = some rhs
  | .assign target value, n =>
    n.op = .binary .assign ∧ n.lhs = some target ∧ n.rhs = some value
  | .reduce op arg axes, n => n.op = .reduce op axes ∧ n.lhs = some arg
  | .reshape arg shape, n => n.op = .view .reshape ∧ n.lhs = some arg ∧ n.shape = shape
  | .transpose arg, n => n.op = .view .transpose ∧ n.lhs = some arg
  | .diagonal arg, n => n.op = .view .diagonal ∧ n.lhs = some arg
  | .loop body bounds, n => n.op = .loop bounds ∧ n.lhs = some body

/-- A call that succeeds appends a node that it asks for and that obeys its rule. -/
theorem exists_push_of_call {t : Tree} {c : Call} {grown : Tree × Nat}
    (h : t.call c = .ok grown) : ∃ n, t.push n = .ok grown ∧ t.Asks c n ∧ t.Formed n := by
  have hNode {c : Call} {n : Node} (hPush : t.push n = .ok grown) (hAsks : t.Asks c n)
      (hFormed : t.Formed n) : ∃ n, t.push n = .ok grown ∧ t.Asks c n ∧ t.Formed n :=
    ⟨n, hPush, hAsks, hFormed⟩
  have hBinary {op : BinaryOp} {lhs rhs : Nat} (hBin : t.binary op lhs rhs = .ok grown) :
      ∃ n, t.push n = .ok grown ∧ t.Asks (.binary op lhs rhs) n ∧ t.Formed n := by
    obtain ⟨l, hl, r, hr, shape, hShape, hPush⟩ := binary_eq_ok_iff.mp hBin
    exact hNode hPush ⟨rfl, rfl, rfl⟩ ⟨lhs, rhs, l, r, rfl, rfl, hl, hr, hShape, rfl⟩
  cases c with
  | buffer dtype shape strides start =>
      exact hNode (n := .leaf (.buffer strides start) dtype shape) h ⟨rfl, rfl, rfl⟩ ⟨rfl, rfl⟩
  | dense =>
      obtain ⟨strides, hStrides, hPush⟩ := dense_eq_ok_iff.mp h
      exact hNode hPush ⟨⟨strides, hStrides, rfl⟩, rfl, rfl⟩ ⟨rfl, rfl⟩
  | hostScalar dtype => exact hNode (n := .leaf .hostScalar dtype []) h ⟨rfl, rfl⟩ ⟨rfl, rfl, rfl⟩
  | placeholder level =>
      exact hNode (n := .leaf (.placeholder level) .int32 []) h rfl ⟨rfl, rfl, rfl, rfl⟩
  | unary op arg =>
      obtain ⟨m, hm, hPush⟩ := unary_eq_ok_iff.mp h
      exact hNode hPush ⟨rfl, rfl, by simp [hm]⟩ ⟨m, ⟨arg, rfl, rfl, hm⟩, rfl⟩
  | unaryAs op arg dtype =>
      obtain ⟨m, hm, hPush⟩ := unaryAs_eq_ok_iff.mp h
      exact hNode hPush ⟨rfl, rfl, rfl⟩ ⟨m, ⟨arg, rfl, rfl, hm⟩, rfl⟩
  | binary => exact hBinary h
  | assign => exact hBinary h
  | reduce op arg axes =>
      obtain ⟨m, hm, hAxes, hPush⟩ := reduce_eq_ok_iff.mp h
      exact hNode hPush ⟨rfl, rfl⟩ ⟨m, ⟨arg, rfl, rfl, hm⟩, hAxes, rfl, rfl⟩
  | reshape arg shape =>
      obtain ⟨m, hm, count, hInput, hOutput, hPush⟩ := reshape_eq_ok_iff.mp h
      exact hNode hPush ⟨rfl, rfl, rfl⟩ ⟨m, count, ⟨arg, rfl, rfl, hm⟩, hInput, hOutput, rfl⟩
  | transpose arg =>
      obtain ⟨m, hm, hPush⟩ := transpose_eq_ok_iff.mp h
      exact hNode hPush ⟨rfl, rfl⟩ ⟨m, ⟨arg, rfl, rfl, hm⟩, rfl, rfl⟩
  | diagonal arg =>
      obtain ⟨m, hm, rows, columns, hShape, hPush⟩ := diagonal_eq_ok_iff.mp h
      exact hNode hPush ⟨rfl, rfl⟩ ⟨m, rows, columns, ⟨arg, rfl, rfl, hm⟩, hShape, rfl, rfl⟩
  | loop body bounds =>
      obtain ⟨m, hm, hPush⟩ := loop_eq_ok_iff.mp h
      exact hNode hPush ⟨rfl, rfl⟩ ⟨m, ⟨body, rfl, rfl, hm⟩, rfl, rfl⟩

/-- Every call that succeeds appends a node that obeys its rule. -/
theorem grows_of_call {t next : Tree} {c : Call} {position : Nat}
    (h : t.call c = .ok (next, position)) : t.Grows next := by
  obtain ⟨n, hPush, -, hFormed⟩ := exists_push_of_call h
  obtain ⟨hn, hNext, -⟩ := push_eq_ok hPush
  exact ⟨n, hn, hNext, hFormed⟩

/-! ## The rules hold in every built tree -/

theorem get?_append_of_get? {t : Tree} {position : Nat} {m : Node} (h : t.get? position = some m)
    (n : Node) (hn : ∀ c ∈ n.children, c < t.size) :
    (t.append n hn).get? position = some m := by
  rw [get?_append, if_neg (Nat.ne_of_lt (lt_size_of_get? h)), h]

/-- Appending a node changes nothing for the nodes before it. -/
theorem Formed.append {t : Tree} {m : Node} (h : t.Formed m) (n : Node)
    (hn : ∀ c ∈ n.children, c < t.size) : (t.append n hn).Formed m := by
  have hWraps {o : Node} (hw : t.Wraps m o) : (t.append n hn).Wraps m o := by
    obtain ⟨position, hl, hr, hGet⟩ := hw
    exact ⟨position, hl, hr, get?_append_of_get? hGet n hn⟩
  unfold Formed at h ⊢
  split
  · simpa [*] using h
  · simpa [*] using h
  · simpa [*] using h
  · next hop =>
    rw [hop] at h
    obtain ⟨o, ho, hRest⟩ := h
    exact ⟨o, hWraps ho, hRest⟩
  · next hop =>
    rw [hop] at h
    obtain ⟨l, r, a, b, hl, hr, ha, hb, hRest⟩ := h
    exact ⟨l, r, a, b, hl, hr, get?_append_of_get? ha n hn, get?_append_of_get? hb n hn, hRest⟩
  · next hop =>
    rw [hop] at h
    obtain ⟨o, ho, hRest⟩ := h
    exact ⟨o, hWraps ho, hRest⟩
  · next hop =>
    rw [hop] at h
    obtain ⟨o, count, ho, hRest⟩ := h
    exact ⟨o, count, hWraps ho, hRest⟩
  · next hop =>
    rw [hop] at h
    obtain ⟨o, ho, hRest⟩ := h
    exact ⟨o, hWraps ho, hRest⟩
  · next hop =>
    rw [hop] at h
    obtain ⟨o, rows, columns, ho, hRest⟩ := h
    exact ⟨o, rows, columns, hWraps ho, hRest⟩
  · next hop =>
    rw [hop] at h
    obtain ⟨o, ho, hRest⟩ := h
    exact ⟨o, hWraps ho, hRest⟩

theorem formed_of_grows {t next : Tree} (hGrows : t.Grows next)
    (h : ∀ {position n}, t.get? position = some n → t.Formed n) {position : Nat} {n : Node}
    (hn : next.get? position = some n) : next.Formed n := by
  obtain ⟨m, hm, rfl, hFormed⟩ := hGrows
  rw [get?_append] at hn
  split at hn
  · cases hn
    exact hFormed.append n hm
  · exact (h hn).append m hm

/-- Every node of a built tree obeys the rule of its operation. -/
theorem Built.formed {t : Tree} (h : Built t) {position : Nat} {n : Node}
    (hn : t.get? position = some n) : t.Formed n := by
  have hCall {t next : Tree} (c : Call) {position : Nat} (hNext : t.call c = .ok (next, position))
      (ih : ∀ {position n}, t.get? position = some n → t.Formed n) {p : Nat} {n : Node}
      (hn : next.get? p = some n) : next.Formed n :=
    formed_of_grows (grows_of_call hNext) ih hn
  induction h generalizing position n with
  | empty => cases (show (none : Option Node) = some n from hn)
  | buffer _ dtype shape strides start ih => exact hCall (.buffer dtype shape strides start) rfl ih hn
  | dense _ dtype shape hNext ih => exact hCall (.dense dtype shape) hNext ih hn
  | hostScalar _ dtype ih => exact hCall (.hostScalar dtype) rfl ih hn
  | placeholder _ level ih => exact hCall (.placeholder level) rfl ih hn
  | unary _ op arg hNext ih => exact hCall (.unary op arg) hNext ih hn
  | unaryAs _ op arg dtype hNext ih => exact hCall (.unaryAs op arg dtype) hNext ih hn
  | binary _ op lhs rhs hNext ih => exact hCall (.binary op lhs rhs) hNext ih hn
  | assign _ target value hNext ih => exact hCall (.assign target value) hNext ih hn
  | reduce _ op arg axes hNext ih => exact hCall (.reduce op arg axes) hNext ih hn
  | reshape _ arg shape hNext ih => exact hCall (.reshape arg shape) hNext ih hn
  | transpose _ arg hNext ih => exact hCall (.transpose arg) hNext ih hn
  | diagonal _ arg hNext ih => exact hCall (.diagonal arg) hNext ih hn
  | loop _ body bounds hNext ih => exact hCall (.loop body bounds) hNext ih hn

/-! ## Trees from lists of calls -/

theorem Built.call {t next : Tree} (h : t.Built) {c : Call} {position : Nat}
    (hNext : t.call c = .ok (next, position)) : next.Built := by
  cases c with
  | buffer dtype shape strides start =>
      cases hNext
      exact h.buffer dtype shape strides start
  | dense dtype shape => exact h.dense dtype shape hNext
  | hostScalar dtype =>
      cases hNext
      exact h.hostScalar dtype
  | placeholder level =>
      cases hNext
      exact h.placeholder level
  | unary op arg => exact h.unary op arg hNext
  | unaryAs op arg dtype => exact h.unaryAs op arg dtype hNext
  | binary op lhs rhs => exact h.binary op lhs rhs hNext
  | assign target value => exact h.assign target value hNext
  | reduce op arg axes => exact h.reduce op arg axes hNext
  | reshape arg shape => exact h.reshape arg shape hNext
  | transpose arg => exact h.transpose arg hNext
  | diagonal arg => exact h.diagonal arg hNext
  | loop body bounds => exact h.loop body bounds hNext

/-- One more call, which may fail. -/
theorem Built.after {t : Tree} (h : t.Built) (c : Call) : (c.step.after t).Built := by
  cases hRun : c.step.run t with
  | ok position next =>
      rw [Growth.after_of_run_eq_ok hRun]
      exact h.call (Growth.outcome_eq_ok_iff.mpr hRun)
  | error e next =>
      rw [Growth.after_of_run_eq_error hRun, c.atomic_step t e next hRun]
      exact h

theorem built_ofCalls (calls : List Call) : (ofCalls calls).Built := by
  have hRun {t : Tree} (ht : t.Built) : (calls.foldl (fun t c => c.step.after t) t).Built := by
    induction calls generalizing t with
    | nil => exact ht
    | cons c calls ih => exact ih (ht.after c)
  exact hRun .empty

/-! ## A tree with views, arithmetic and a reduction -/

/-- The diagonal of a transposed matrix as a row, scaled and added to the rows of a
matrix, and the sums along its rows. -/
def rowSums : Tree :=
  let views := (((empty.buffer .float32 [2, 3] [4, 1] 5).1.append
    ⟨.view .transpose, .float32, [3, 2], some 0, none⟩ (by decide)).append
    ⟨.view .diagonal, .float32, [2], some 1, none⟩ (by decide)).append
    ⟨.view .reshape, .float32, [1, 2], some 2, none⟩ (by decide)
  let leaves := ((views.buffer .float32 [2, 2] [2, 1] 0).1.hostScalar .float32).1
  ((leaves.append ⟨.binary .mul, .float32, [1, 2], some 3, some 5⟩ (by decide)).append
    ⟨.binary .add, .float32, [2, 2], some 6, some 4⟩ (by decide)).append
    ⟨.reduce .add [1], .float32, [2], some 7, none⟩ (by decide)

theorem built_rowSums : rowSums.Built := by
  have hViews := Built.reshape
    (.diagonal (.transpose (.buffer .empty .float32 [2, 3] [4, 1] 5) 0 rfl) 1 rfl) 2 [1, 2] rfl
  have hLeaves := (hViews.buffer .float32 [2, 2] [2, 1] 0).hostScalar .float32
  exact .reduce (.binary (.binary hLeaves .mul 3 5 rfl) .add 6 4 rfl) .add 7 [1] rfl

end Tree
end ArrayKernel
