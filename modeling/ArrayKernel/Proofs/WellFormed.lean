import ArrayKernel.Proofs.Broadcast
import ArrayKernel.Proofs.Built
import Mathlib.Data.List.Basic

/-!
# Trees are well formed

Every operation has a rule: how many operands it takes, and how the type and shape of its
result follow from theirs.  After any run of the builders, with any arguments and with
calls that fail in between, every node obeys the rule of its operation and stands behind
its operands.

The checks of the builders are exact.  A call fails only if there is no node with the
operation and operands that it asks for that would obey the rule, and it then leaves the
tree as it was.
-/

namespace ArrayKernel

namespace Shape

/-- No product of the first extents leaves 64 bits, so that the elements can be counted. -/
def Countable (s : Shape) : Prop := ∀ k, volume (s.take k) < wordSize

/-- The extents of the axes that are not in a list, in order. -/
def without (s : Shape) (axes : List Nat) : Shape :=
  ((List.range s.length).filter fun k => k ∉ axes).filterMap fun k => s[k]?

/-- The extent of an axis, counted from the last one.  Axes that are not there have extent one. -/
def fromLast (s : Shape) (k : Nat) : Nat := s.reverse.getD k 1

/-- The shape of an elementwise operation on two arrays, axis by axis from the last: extents
that meet are equal or one of them is one, and the larger one is taken. -/
structure IsBroadcast (l r shape : Shape) : Prop where
  length_eq : shape.length = max l.length r.length
  agree : ∀ k, l.fromLast k = r.fromLast k ∨ l.fromLast k = 1 ∨ r.fromLast k = 1
  eq_max : ∀ k, shape.fromLast k = max (l.fromLast k) (r.fromLast k)

theorem fromLast_of_length_le {s : Shape} {k : Nat} (h : s.length ≤ k) : s.fromLast k = 1 := by
  simp [fromLast, h]

theorem fromLast_cons (extent : Nat) (s : Shape) (k : Nat) :
    fromLast (extent :: s) k = if k = s.length then extent else s.fromLast k := by
  unfold fromLast
  rw [List.reverse_cons]
  split
  · next hk => simp [hk]
  · next hk => grind

theorem fromLast_padTo (rank : Nat) (s : Shape) (k : Nat) :
    (padTo rank s).fromLast k = s.fromLast k := by
  unfold fromLast padTo
  rw [List.reverse_append, List.reverse_replicate]
  grind

theorem isBroadcast_cons {l r extent : Nat} {ls rs extents : Shape}
    (hLength : ls.length = rs.length) :
    IsBroadcast (l :: ls) (r :: rs) (extent :: extents) ↔
      (l = r ∨ l = 1 ∨ r = 1) ∧ extent = max l r ∧ IsBroadcast ls rs extents := by
  constructor
  · intro h
    have hRank : extents.length = ls.length := by
      have hEq := h.length_eq
      simp only [List.length_cons] at hEq
      omega
    have hAgree := h.agree
    have hMax := h.eq_max
    simp only [fromLast_cons, hRank, ← hLength] at hAgree hMax
    -- the first axis is the one behind all others, where the tails have extent one
    have hTails (k : Nat) (hk : k = ls.length) :
        fromLast ls k = 1 ∧ fromLast rs k = 1 ∧ fromLast extents k = 1 :=
      ⟨fromLast_of_length_le (by omega), fromLast_of_length_le (by omega),
        fromLast_of_length_le (by omega)⟩
    refine ⟨by simpa using hAgree ls.length, by simpa using hMax ls.length,
      ⟨by omega, fun k => ?_, fun k => ?_⟩⟩
    · by_cases hk : k = ls.length
      · simp [hTails k hk]
      · simpa [hk] using hAgree k
    · by_cases hk : k = ls.length
      · simp [hTails k hk]
      · simpa [hk] using hMax k
  · rintro ⟨hAgree, hExtent, h⟩
    have hRank : extents.length = ls.length := by
      have hEq := h.length_eq
      omega
    refine ⟨by simp [hRank, hLength], fun k => ?_, fun k => ?_⟩
    · simp only [fromLast_cons, ← hLength]
      split
      · exact hAgree
      · exact h.agree k
    · simp only [fromLast_cons, hRank, ← hLength]
      split
      · exact hExtent
      · exact h.eq_max k

/-- The extents of two aligned shapes are joined axis by axis. -/
theorem joinExtents?_eq_some_iff {l r shape : Shape} (hLength : l.length = r.length) :
    joinExtents? l r = some shape ↔ IsBroadcast l r shape := by
  induction l generalizing r shape with
  | nil =>
      obtain rfl : r = [] := List.length_eq_zero_iff.mp hLength.symm
      constructor
      · intro h
        cases h
        exact ⟨rfl, fun _ => .inl rfl, fun _ => by simp [fromLast]⟩
      · intro h
        obtain rfl : shape = [] := List.length_eq_zero_iff.mp h.length_eq
        rfl
  | cons x xs ih =>
      cases r with
      | nil => cases hLength
      | cons y ys =>
          have hTails : xs.length = ys.length := Nat.succ.inj hLength
          constructor
          · intro h
            obtain ⟨extents, rfl, hAgree, hExtents⟩ := joinExtents?_cons h
            exact (isBroadcast_cons hTails).mpr ⟨hAgree, rfl, (ih hTails).mp hExtents⟩
          · intro h
            cases shape with
            | nil =>
                have hEq := h.length_eq
                simp only [List.length_nil, List.length_cons] at hEq
                omega
            | cons extent extents =>
                obtain ⟨hAgree, rfl, hRest⟩ := (isBroadcast_cons hTails).mp h
                simp [joinExtents?, joinExtent?, hAgree, (ih hTails).mpr hRest]

/-- Padding plays no part in the shape of an elementwise operation. -/
theorem isBroadcast_padTo {l r shape : Shape} :
    IsBroadcast (padTo (max l.length r.length) l) (padTo (max l.length r.length) r) shape ↔
      IsBroadcast l r shape := by
  constructor
  · rintro ⟨hLength, hAgree, hMax⟩
    simp only [length_padTo, fromLast_padTo] at hLength hAgree hMax
    exact ⟨by omega, hAgree, hMax⟩
  · rintro ⟨hLength, hAgree, hMax⟩
    refine ⟨?_, ?_, ?_⟩
    · rw [length_padTo, length_padTo]
      omega
    · simpa only [fromLast_padTo] using hAgree
    · simpa only [fromLast_padTo] using hMax

theorem broadcast?_eq_some_iff {l r shape : Shape} :
    broadcast? l r = some shape ↔ IsBroadcast l r shape := by
  rw [← isBroadcast_padTo]
  refine joinExtents?_eq_some_iff ?_
  rw [length_padTo, length_padTo]
  omega

/-- The count of two shapes is the same where both can be counted and have as many
elements. -/
theorem exists_count?_iff {s u : Shape} :
    (∃ count, s.count? = some count ∧ u.count? = some count) ↔
      s.Countable ∧ u.Countable ∧ u.volume = s.volume := by
  simp only [count?_eq_some_iff]
  constructor
  · rintro ⟨count, ⟨hs, hInput⟩, hu, hOutput⟩
    exact ⟨hInput, hOutput, hu.symm.trans hs⟩
  · rintro ⟨hInput, hOutput, hSame⟩
    exact ⟨s.volume, ⟨rfl, hInput⟩, hSame.symm, hOutput⟩

end Shape

/-- The rule of an operation: its operands, left before right, and the type and shape of
its result. -/
inductive Operation.Rule : Operation → List Node → ScalarType → Shape → Prop
  | buffer (strides : List Nat) (start : Nat) (dtype : ScalarType) (shape : Shape) :
      Rule (.buffer strides start) [] dtype shape
  | hostScalar (dtype : ScalarType) : Rule .hostScalar [] dtype []
  | placeholder (level : Nat) : Rule (.placeholder level) [] .int32 []
  | unary (op : UnaryOp) (m : Node) (dtype : ScalarType) : Rule (.unary op) [m] dtype m.shape
  | assign (target value : Node) :
      Rule (.binary .assign) [target, value] target.dtype target.shape
  | binary {op : BinaryOp} {l r : Node} {shape : Shape} (hOp : op ≠ .assign)
      (hShape : l.shape.IsBroadcast r.shape shape) :
      Rule (.binary op) [l, r] (if op.isComparison then .bool else l.dtype) shape
  | reduce (op : ReduceOp) {axes : List Nat} {m : Node} (hDistinct : axes.Nodup)
      (hRange : ∀ axis ∈ axes, axis < m.shape.length) :
      Rule (.reduce op axes) [m] m.dtype (m.shape.without axes)
  | reshape {m : Node} {shape : Shape} (hInput : m.shape.Countable) (hOutput : shape.Countable)
      (hSame : shape.volume = m.shape.volume) : Rule (.view .reshape) [m] m.dtype shape
  | transpose (m : Node) : Rule (.view .transpose) [m] m.dtype m.shape.reverse
  | diagonal {m : Node} {rows columns : Nat} (hShape : m.shape = [rows, columns]) :
      Rule (.view .diagonal) [m] m.dtype [min rows columns]
  | loop (bounds : LoopBounds) (m : Node) : Rule (.loop bounds) [m] m.dtype m.shape

namespace Tree

/-- The operands of a node: none, a left one, or both. -/
inductive Operands (t : Tree) (n : Node) : List Node → Prop
  | none (hLhs : n.lhs = .none) (hRhs : n.rhs = .none) : Operands t n []
  | one {p : Nat} {m : Node} (hLhs : n.lhs = some p) (hRhs : n.rhs = .none)
      (hm : t.get? p = some m) : Operands t n [m]
  | two {p q : Nat} {l r : Node} (hLhs : n.lhs = some p) (hRhs : n.rhs = some q)
      (hl : t.get? p = some l) (hr : t.get? q = some r) : Operands t n [l, r]

/-- The node obeys the rule of its operation. -/
def Obeys (t : Tree) (n : Node) : Prop :=
  ∃ operands, t.Operands n operands ∧ n.op.Rule operands n.dtype n.shape

/-! ## The checks of the builders -/

theorem checkAxes_eq_ok_iff {rank : Nat} {seen axes : List Nat} :
    checkAxes rank seen axes = .ok () ↔
      axes.Nodup ∧ ∀ axis ∈ axes, axis < rank ∧ axis ∉ seen := by
  induction axes generalizing seen with
  | nil => simp [checkAxes]
  | cons axis axes ih =>
      rw [checkAxes]
      split
      · next hOut =>
        simp only [reduceCtorEq, List.mem_cons, forall_eq_or_imp, false_iff, not_and]
        omega
      · split
        · next hSeen => simp [hSeen]
        · next hNew =>
          rw [ih]
          simp only [List.nodup_cons, List.mem_cons, forall_eq_or_imp, not_or]
          grind

/-- The extents that are kept, with the axes numbered from any start. -/
theorem map_fst_filter_zipIdx (axes : List Nat) (shape : Shape) (start : Nat) :
    ((shape.zipIdx start).filter fun entry => entry.2 ∉ axes).map Prod.fst =
      ((List.range' start shape.length).filter fun k => k ∉ axes).filterMap
        fun k => shape[k - start]? := by
  induction shape generalizing start with
  | nil => rfl
  | cons extent extents ih =>
      have hShift : ((List.range' (start + 1) extents.length).filter fun k =>
            k ∉ axes).filterMap (fun k => (extent :: extents)[k - start]?) =
          ((List.range' (start + 1) extents.length).filter fun k => k ∉ axes).filterMap
            fun k => extents[k - (start + 1)]? := by
        refine List.filterMap_congr fun k hk => ?_
        have hLe := (List.mem_range'_1.mp (List.mem_filter.mp hk).1).1
        have hSucc : k - start = k - (start + 1) + 1 := by omega
        rw [hSucc, List.getElem?_cons_succ]
      rw [List.zipIdx_cons, List.length_cons, List.range'_succ]
      by_cases hAxis : start ∈ axes
      · simp only [List.filter_cons, hAxis, not_true_eq_false, decide_false,
          Bool.false_eq_true, if_false]
        rw [ih, hShift]
      · simp only [List.filter_cons, hAxis, not_false_eq_true, decide_true, if_true,
          List.map_cons]
        rw [ih, List.filterMap_cons_some (b := extent) (by simp), hShift]

theorem keptExtents_eq_without (shape : Shape) (axes : List Nat) :
    keptExtents shape axes = shape.without axes := by
  have hZero := map_fst_filter_zipIdx axes shape 0
  simp only [Nat.sub_zero] at hZero
  rw [keptExtents, hZero, Shape.without, List.range_eq_range']

theorem Formed.obeys {t : Tree} {n : Node} (h : t.Formed n) : t.Obeys n := by
  obtain ⟨op, dtype, shape, lhs, rhs⟩ := n
  have hOne {m : Node} (hm : t.Wraps ⟨op, dtype, shape, lhs, rhs⟩ m) :
      t.Operands ⟨op, dtype, shape, lhs, rhs⟩ [m] := by
    obtain ⟨p, hLhs, hRhs, hGet⟩ := hm
    exact .one hLhs hRhs hGet
  cases op with
  | buffer strides start =>
      obtain ⟨hLhs, hRhs⟩ := h
      exact ⟨[], .none hLhs hRhs, .buffer strides start dtype shape⟩
  | hostScalar =>
      obtain ⟨hLhs, hRhs, rfl⟩ := h
      exact ⟨[], .none hLhs hRhs, .hostScalar dtype⟩
  | placeholder level =>
      obtain ⟨hLhs, hRhs, rfl, rfl⟩ := h
      exact ⟨[], .none hLhs hRhs, .placeholder level⟩
  | unary op =>
      obtain ⟨m, hm, rfl⟩ := h
      exact ⟨[m], hOne hm, .unary op m dtype⟩
  | binary op =>
      obtain ⟨p, q, l, r, hLhs, hRhs, hl, hr, hShape, rfl⟩ := h
      refine ⟨[l, r], .two hLhs hRhs hl hr, ?_⟩
      by_cases hOp : op = .assign
      · subst hOp
        cases hShape
        exact .assign l r
      · rw [binaryShape_of_ne_assign hOp, Shape.broadcast_eq_ok_iff,
          Shape.broadcast?_eq_some_iff] at hShape
        exact .binary hOp hShape
  | reduce op axes =>
      obtain ⟨m, hm, hAxes, rfl, rfl⟩ := h
      obtain ⟨hDistinct, hRange⟩ := checkAxes_eq_ok_iff.mp hAxes
      refine ⟨[m], hOne hm, ?_⟩
      dsimp only
      rw [keptExtents_eq_without]
      exact .reduce op hDistinct fun axis hAxis => (hRange axis hAxis).1
  | view v =>
      cases v with
      | reshape =>
          obtain ⟨m, count, hm, hInput, hOutput, rfl⟩ := h
          obtain ⟨hIn, hOut, hSame⟩ := Shape.exists_count?_iff.mp ⟨count, hInput, hOutput⟩
          exact ⟨[m], hOne hm, .reshape hIn hOut hSame⟩
      | transpose =>
          obtain ⟨m, hm, rfl, rfl⟩ := h
          exact ⟨[m], hOne hm, .transpose m⟩
      | diagonal =>
          obtain ⟨m, rows, columns, hm, hShape, rfl, rfl⟩ := h
          exact ⟨[m], hOne hm, .diagonal hShape⟩
  | loop bounds =>
      obtain ⟨m, hm, rfl, rfl⟩ := h
      exact ⟨[m], hOne hm, .loop bounds m⟩

theorem Obeys.formed {t : Tree} {n : Node} (h : t.Obeys n) : t.Formed n := by
  obtain ⟨op, dtype, shape, lhs, rhs⟩ := n
  obtain ⟨operands, hOperands, hRule⟩ := h
  dsimp only at hRule
  cases hRule with
  | buffer =>
      cases hOperands with
      | none hLhs hRhs => exact ⟨hLhs, hRhs⟩
  | hostScalar =>
      cases hOperands with
      | none hLhs hRhs => exact ⟨hLhs, hRhs, rfl⟩
  | placeholder =>
      cases hOperands with
      | none hLhs hRhs => exact ⟨hLhs, hRhs, rfl, rfl⟩
  | unary =>
      cases hOperands with
      | one hLhs hRhs hm => exact ⟨_, ⟨_, hLhs, hRhs, hm⟩, rfl⟩
  | assign =>
      cases hOperands with
      | two hLhs hRhs hl hr => exact ⟨_, _, _, _, hLhs, hRhs, hl, hr, rfl, rfl⟩
  | binary hOp hShape =>
      cases hOperands with
      | two hLhs hRhs hl hr =>
          rw [← Shape.broadcast?_eq_some_iff, ← Shape.broadcast_eq_ok_iff,
            ← binaryShape_of_ne_assign hOp] at hShape
          exact ⟨_, _, _, _, hLhs, hRhs, hl, hr, hShape, rfl⟩
  | reduce op hDistinct hRange =>
      cases hOperands with
      | one hLhs hRhs hm =>
          have hAxes := checkAxes_eq_ok_iff.mpr
            ⟨hDistinct, fun axis hAxis => ⟨hRange axis hAxis, List.not_mem_nil⟩⟩
          exact ⟨_, ⟨_, hLhs, hRhs, hm⟩, hAxes, (keptExtents_eq_without _ _).symm, rfl⟩
  | reshape hInput hOutput hSame =>
      cases hOperands with
      | one hLhs hRhs hm =>
          obtain ⟨count, hIn, hOut⟩ := Shape.exists_count?_iff.mpr ⟨hInput, hOutput, hSame⟩
          exact ⟨_, count, ⟨_, hLhs, hRhs, hm⟩, hIn, hOut, rfl⟩
  | transpose =>
      cases hOperands with
      | one hLhs hRhs hm => exact ⟨_, ⟨_, hLhs, hRhs, hm⟩, rfl, rfl⟩
  | diagonal hShape =>
      cases hOperands with
      | one hLhs hRhs hm => exact ⟨_, _, _, ⟨_, hLhs, hRhs, hm⟩, hShape, rfl, rfl⟩
  | loop =>
      cases hOperands with
      | one hLhs hRhs hm => exact ⟨_, ⟨_, hLhs, hRhs, hm⟩, rfl, rfl⟩

/-- The operands of a node that obeys its rule are in the tree. -/
theorem Obeys.exists_push {t : Tree} {n : Node} (h : t.Obeys n) :
    ∃ grown, t.push n = .ok grown := by
  obtain ⟨operands, hOperands, -⟩ := h
  have hLt : ∀ c ∈ n.children, c < t.size := by
    cases hOperands with
    | none hLhs hRhs => simp [hLhs, hRhs]
    | one hLhs hRhs hm => simp [hLhs, hRhs, lt_size_of_get? hm]
    | two hLhs hRhs hl hr =>
        intro c hc
        rw [Node.mem_children, hLhs, hRhs] at hc
        rcases hc with hc | hc
        · cases hc
          exact lt_size_of_get? hl
        · cases hc
          exact lt_size_of_get? hr
  exact ⟨_, push_of_lt hLt⟩

/-- A call appends any node that it asks for and that obeys its rule. -/
theorem call_of_asks {t : Tree} {c : Call} {n : Node} {grown : Tree × Nat} (hAsks : t.Asks c n)
    (h : t.Formed n) (hPush : t.push n = .ok grown) : t.call c = .ok grown := by
  obtain ⟨op, dtype, shape, lhs, rhs⟩ := n
  have hBinary {op' : BinaryOp} {left right : Nat} (hOp : op = .binary op')
      (hLhs : lhs = some left) (hRhs : rhs = some right) :
      t.binary op' left right = .ok grown := by
    subst hOp
    obtain ⟨p, q, l, r, hl, hr, hLeft, hRight, hShape, rfl⟩ := h
    cases hLhs.symm.trans hl
    cases hRhs.symm.trans hr
    subst hLhs
    subst hRhs
    exact binary_eq_ok_iff.mpr ⟨l, hLeft, r, hRight, shape, hShape, hPush⟩
  cases c with
  | buffer =>
      obtain ⟨rfl, rfl, rfl⟩ := hAsks
      obtain ⟨rfl, rfl⟩ := h
      exact hPush
  | dense =>
      -- the call asks for strides that fit in 64 bits, which is all that it checks
      obtain ⟨⟨strides, hStrides, rfl⟩, rfl, rfl⟩ := hAsks
      obtain ⟨rfl, rfl⟩ := h
      exact dense_eq_ok_iff.mpr ⟨strides, hStrides, hPush⟩
  | hostScalar =>
      obtain ⟨rfl, rfl⟩ := hAsks
      obtain ⟨rfl, rfl, rfl⟩ := h
      exact hPush
  | placeholder =>
      obtain rfl := hAsks
      obtain ⟨rfl, rfl, rfl, rfl⟩ := h
      exact hPush
  | unary op arg =>
      obtain ⟨rfl, rfl, hType⟩ := hAsks
      obtain ⟨m, ⟨p, hLhs, rfl, hm⟩, rfl⟩ := h
      cases hLhs
      rw [hm] at hType
      cases hType
      exact unary_eq_ok_iff.mpr ⟨m, hm, hPush⟩
  | unaryAs op arg dtype =>
      obtain ⟨rfl, rfl, rfl⟩ := hAsks
      obtain ⟨m, ⟨p, hLhs, rfl, hm⟩, rfl⟩ := h
      cases hLhs
      exact unaryAs_eq_ok_iff.mpr ⟨m, hm, hPush⟩
  | binary =>
      obtain ⟨hOp, hLhs, hRhs⟩ := hAsks
      exact hBinary hOp hLhs hRhs
  | assign =>
      obtain ⟨hOp, hLhs, hRhs⟩ := hAsks
      exact hBinary hOp hLhs hRhs
  | reduce op arg axes =>
      obtain ⟨rfl, rfl⟩ := hAsks
      obtain ⟨m, ⟨p, hLhs, rfl, hm⟩, hAxes, rfl, rfl⟩ := h
      cases hLhs
      exact reduce_eq_ok_iff.mpr ⟨m, hm, hAxes, hPush⟩
  | reshape arg shape =>
      obtain ⟨rfl, rfl, rfl⟩ := hAsks
      obtain ⟨m, count, ⟨p, hLhs, rfl, hm⟩, hInput, hOutput, rfl⟩ := h
      cases hLhs
      exact reshape_eq_ok_iff.mpr ⟨m, hm, count, hInput, hOutput, hPush⟩
  | transpose arg =>
      obtain ⟨rfl, rfl⟩ := hAsks
      obtain ⟨m, ⟨p, hLhs, rfl, hm⟩, rfl, rfl⟩ := h
      cases hLhs
      exact transpose_eq_ok_iff.mpr ⟨m, hm, hPush⟩
  | diagonal arg =>
      obtain ⟨rfl, rfl⟩ := hAsks
      obtain ⟨m, rows, columns, ⟨p, hLhs, rfl, hm⟩, hShape, rfl, rfl⟩ := h
      cases hLhs
      exact diagonal_eq_ok_iff.mpr ⟨m, hm, rows, columns, hShape, hPush⟩
  | loop body bounds =>
      obtain ⟨rfl, rfl⟩ := hAsks
      obtain ⟨m, ⟨p, hLhs, rfl, hm⟩, rfl, rfl⟩ := h
      cases hLhs
      exact loop_eq_ok_iff.mpr ⟨m, hm, hPush⟩

/-! ## Runs of calls -/

/-- A call appends a node that it asks for and that obeys its rule, or there is no such node
and the call fails with the tree as it was. -/
theorem call_outcome (t : Tree) (c : Call) :
    (∃ n next, t.Asks c n ∧ t.Obeys n ∧ c.step.run t = .ok t.size next ∧
      next.nodes = t.nodes.push n) ∨
    (∃ e, c.step.run t = .error e t) ∧ ¬ ∃ n, t.Asks c n ∧ t.Obeys n := by
  cases hCall : t.call c with
  | ok grown =>
      left
      obtain ⟨next, position⟩ := grown
      obtain ⟨n, hPush, hAsks, hFormed⟩ := exists_push_of_call hCall
      obtain ⟨hn, rfl, rfl⟩ := push_eq_ok hPush
      exact ⟨n, _, hAsks, hFormed.obeys, Growth.outcome_eq_ok_iff.mp hCall, rfl⟩
  | error e =>
      right
      refine ⟨⟨e, c.atomic_step.outcome_eq_error_iff.mp hCall⟩, ?_⟩
      rintro ⟨n, hAsks, hObeys⟩
      obtain ⟨grown, hPush⟩ := hObeys.exists_push
      rw [call_of_asks hAsks hObeys.formed hPush] at hCall
      cases hCall

theorem ofCalls_concat (calls : List Call) (c : Call) :
    ofCalls (calls ++ [c]) = c.step.after (ofCalls calls) := by
  simp [ofCalls]

end Tree

/-- **The builders keep trees well formed.**  After any run of calls, a further call appends
exactly one node, behind all others, and gives the position where it stands; the node has the
operation and operands of the call and obeys the rule of its operation.  If no node does, the
call fails and leaves the tree as it was.  Every node of the tree obeys its rule, and its
operands have smaller positions. -/
theorem builder_runs_well_formed (calls : List Tree.Call) :
    (∀ c : Tree.Call,
      (∃ n, (Tree.ofCalls calls).Asks c n ∧ (Tree.ofCalls calls).Obeys n ∧
        c.step.run (Tree.ofCalls calls) =
          .ok (Tree.ofCalls calls).size (Tree.ofCalls (calls ++ [c])) ∧
        (Tree.ofCalls (calls ++ [c])).nodes = (Tree.ofCalls calls).nodes.push n) ∨
      (∃ e, c.step.run (Tree.ofCalls calls) = .error e (Tree.ofCalls calls)) ∧
        Tree.ofCalls (calls ++ [c]) = Tree.ofCalls calls ∧
        ¬ ∃ n, (Tree.ofCalls calls).Asks c n ∧ (Tree.ofCalls calls).Obeys n) ∧
    ∀ position n, (Tree.ofCalls calls).get? position = some n →
      (Tree.ofCalls calls).Obeys n ∧ ∀ c ∈ n.children, c < position := by
  constructor
  · intro c
    rw [Tree.ofCalls_concat]
    rcases Tree.call_outcome (Tree.ofCalls calls) c with
      ⟨n, next, hAsks, hObeys, hRun, hNodes⟩ | ⟨⟨e, hRun⟩, hNone⟩
    · left
      rw [Growth.after_of_run_eq_ok hRun]
      exact ⟨n, hAsks, hObeys, hRun, hNodes⟩
    · right
      exact ⟨⟨e, hRun⟩, Growth.after_of_run_eq_error hRun, hNone⟩
  · intro position n hn
    exact ⟨((Tree.built_ofCalls calls).formed hn).obeys, fun c hc => Tree.child_lt hn hc⟩

/-- A matrix, its transpose and the largest elements of the rows of the transpose, added to the
rows of the matrix.  Two calls fail: the negation of a position that is not there, and the sum
of the two matrices. -/
def Tree.mixedRun : List Tree.Call := [.dense .float32 [2, 3], .unary .neg 7, .transpose 0,
  .binary .add 0 1, .reduce .max 1 [1], .binary .add 0 2]

/-- The run leaves four nodes.  The last of them adds a row of three elements to two rows and
obeys its rule.  A further sum of the two matrices fails and changes nothing, since they have
no common shape. -/
theorem builder_runs_mixedRun :
    (Tree.ofCalls Tree.mixedRun).size = 4 ∧
    (Tree.ofCalls Tree.mixedRun).get? 2 =
      some ⟨.reduce .max [1], .float32, [3], some 1, none⟩ ∧
    (Tree.ofCalls Tree.mixedRun).get? 3 =
      some ⟨.binary .add, .float32, [2, 3], some 0, some 2⟩ ∧
    (Tree.ofCalls Tree.mixedRun).Obeys ⟨.binary .add, .float32, [2, 3], some 0, some 2⟩ ∧
    (∃ e, (Tree.Call.binary .add 0 1).step.run (Tree.ofCalls Tree.mixedRun) =
      .error e (Tree.ofCalls Tree.mixedRun)) ∧
    Tree.ofCalls (Tree.mixedRun ++ [.binary .add 0 1]) = Tree.ofCalls Tree.mixedRun ∧
    ¬ ∃ n, (Tree.ofCalls Tree.mixedRun).Asks (.binary .add 0 1) n ∧
      (Tree.ofCalls Tree.mixedRun).Obeys n := by
  obtain ⟨hCalls, hNodes⟩ := builder_runs_well_formed Tree.mixedRun
  have hGet : (Tree.ofCalls Tree.mixedRun).get? 3 =
      some ⟨.binary .add, .float32, [2, 3], some 0, some 2⟩ := rfl
  have hFails : (Tree.ofCalls Tree.mixedRun).call (.binary .add 0 1) =
      .error (.broadcastMismatch [2, 3] [3, 2]) := rfl
  refine ⟨rfl, rfl, hGet, (hNodes 3 _ hGet).1, ?_⟩
  rcases hCalls (.binary .add 0 1) with ⟨n, -, -, hOk, -⟩ | hFailed
  · rw [Tree.call, Growth.outcome_eq_ok_iff.mpr hOk] at hFails
    cases hFails
  · exact hFailed

end ArrayKernel
