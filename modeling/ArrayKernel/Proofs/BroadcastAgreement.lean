import ArrayKernel.Proofs.Rendering

/-!
# Two ways to broadcast

The builder joins the shapes of two operands, and rendering addresses an array in a loop
domain.  An array can be addressed in a domain exactly where its shape fits the domain,
and joining the shape with the domain gives back the domain in the same cases, as long as
no axis without elements meets an axis of extent one, or no axis.

Where one does, the two ways differ: the join takes the larger extent, which is one, so an
operation on a vector without elements and one with a single element is accepted with a
shape that its first operand does NOT fit.  An array of a single element fits a domain
without elements, although their join is another shape.
-/

namespace ArrayKernel

namespace Shape

variable {s t : Shape}

theorem fitsAxes_of_domainIndices? {axis : Nat} {indices : List IndexExpr}
    (hLength : s.length = t.length) (h : domainIndices? axis s t = some indices) :
    FitsAxes s t := by
  induction s generalizing t axis indices with
  | nil =>
      rw [List.length_eq_zero_iff.mp hLength.symm]
      trivial
  | cons extent extents ih =>
      cases t with
      | nil => cases h
      | cons target targets =>
          rw [domainIndices?] at h
          have hRest {rest : List IndexExpr}
              (hSome : domainIndices? (axis + 1) extents targets = some rest) :=
            ih (Nat.succ.inj hLength) hSome
          split at h
          · next hOne =>
            obtain ⟨rest, hSome, -⟩ := Option.map_eq_some_iff.mp h
            exact ⟨.inl hOne, hRest hSome⟩
          · split at h
            · next hSame =>
              obtain ⟨rest, hSome, -⟩ := Option.map_eq_some_iff.mp h
              exact ⟨.inr hSame, hRest hSome⟩
            · cases h

/-- An array can be addressed in a loop domain exactly where its shape fits it. -/
theorem exists_broadcastIndices?_iff :
    (∃ indices, broadcastIndices? s t = some indices) ↔ Fits s t := by
  refine ⟨?_, exists_broadcastIndices?⟩
  rintro ⟨indices, h⟩
  unfold broadcastIndices? at h
  split at h
  · next hLe =>
    refine ⟨hLe, fitsAxes_of_domainIndices? ?_ h⟩
    rw [List.length_drop]
    omega
  · cases h

theorem joinExtents?_of_fitsAxes (h : FitsAxes s t) (hNot : ¬ EmptyBesideUnit s t) :
    joinExtents? s t = some t := by
  induction s generalizing t with
  | nil =>
      rw [List.length_eq_zero_iff.mp h.length_eq.symm]
      rfl
  | cons l ls ih =>
      cases t with
      | nil => exact h.elim
      | cons r rs =>
          obtain ⟨hHead, hTail⟩ := h
          rw [emptyBesideUnit_cons, not_or] at hNot
          have hAgree : l = r ∨ l = 1 ∨ r = 1 := by omega
          have hMax : max l r = r := by omega
          rw [joinExtents?, joinExtent?, if_pos hAgree, hMax, ih hTail hNot.2]
          rfl

/-- Joining a shape with a domain gives the domain exactly where the shape fits it, if no
axis without elements meets one of extent one. -/
theorem broadcast?_eq_right_iff (hNot : ¬ EmptyMeetsUnit s t) :
    broadcast? s t = some t ↔ Fits s t := by
  constructor
  · intro h
    exact ((fits_iff_of_broadcast? h).mpr hNot).1
  · intro h
    have hRank : max s.length t.length = t.length := Nat.max_eq_right h.1
    have hSame : padTo t.length t = t := by
      unfold padTo
      rw [Nat.sub_self]
      rfl
    unfold EmptyMeetsUnit at hNot
    rw [hRank, hSame] at hNot
    show joinExtents? (padTo (max s.length t.length) s) (padTo (max s.length t.length) t) = some t
    rw [hRank, hSame]
    exact joinExtents?_of_fitsAxes (fits_iff_fitsAxes_padTo.mp h) hNot

end Shape

/-- An array can be rendered in a loop domain exactly where its shape fits it. -/
theorem Symbol.exists_broadcast_iff {s : Symbol} {shape domain : Shape}
    (hShape : s.shape? = some shape) :
    (∃ text, s.broadcast domain = .ok text) ↔ shape.Fits domain := by
  rw [← Shape.exists_broadcastIndices?_iff]
  constructor
  · rintro ⟨text, hText⟩
    obtain ⟨indices, hIndices, -⟩ := (broadcast_eq_ok_iff hShape).mp hText
    exact ⟨indices, hIndices⟩
  · rintro ⟨indices, hIndices⟩
    exact ⟨_, (broadcast_eq_ok_iff hShape).mpr ⟨indices, hIndices, rfl⟩⟩

/-- The node of an operation that writes no operand has the join of the shapes of its
operands. -/
theorem Tree.broadcast?_of_binary {t next : Tree} {op : BinaryOp} {lhs rhs position : Nat}
    {l r n : Node} (hNot : op ≠ .assign) (h : t.binary op lhs rhs = .ok (next, position))
    (hl : t.get? lhs = some l) (hr : t.get? rhs = some r) (hn : next.get? position = some n) :
    l.shape.broadcast? r.shape = some n.shape := by
  obtain ⟨a, ha, b, hb, shape, hShape, hPush⟩ := binary_eq_ok_iff.mp h
  rw [hl] at ha
  rw [hr] at hb
  cases ha
  cases hb
  obtain ⟨hChildren, rfl, rfl⟩ := push_eq_ok hPush
  rw [get?_append, if_pos rfl] at hn
  cases hn
  rwa [binaryShape_of_ne_assign hNot, Shape.broadcast_eq_ok_iff] at hShape

/-- **Joining and addressing agree** where no axis without elements meets one of extent one,
or none: then an array can be rendered in a domain exactly where its shape and the domain
are joined to the domain.  Where such axes meet, never both is so.

Two arrays that are the operands of an operation that writes neither can both be rendered in
its shape exactly where no such axes meet in them. -/
theorem broadcasting_agrees {x y : Symbol} {lhs rhs : Shape} (hx : x.shape? = some lhs)
    (hy : y.shape? = some rhs) :
    (∀ target : Shape,
      (¬ lhs.EmptyMeetsUnit target →
        ((∃ text, x.broadcast target = .ok text) ↔ lhs.broadcast target = .ok target)) ∧
      (lhs.EmptyMeetsUnit target →
        ¬ ((∃ text, x.broadcast target = .ok text) ∧ lhs.broadcast target = .ok target))) ∧
    ∀ {t next : Tree} {op : BinaryOp} {left right position : Nat} {l r n : Node},
      op ≠ .assign → t.binary op left right = .ok (next, position) → t.get? left = some l →
      t.get? right = some r → next.get? position = some n → l.shape = lhs → r.shape = rhs →
      (((∃ text, x.broadcast n.shape = .ok text) ∧ ∃ text, y.broadcast n.shape = .ok text) ↔
        ¬ lhs.EmptyMeetsUnit rhs) := by
  constructor
  · intro target
    rw [Symbol.exists_broadcast_iff hx, Shape.broadcast_eq_ok_iff]
    refine ⟨fun hNot => (Shape.broadcast?_eq_right_iff hNot).symm, ?_⟩
    rintro hMeets ⟨hFits, hJoin⟩
    exact (Shape.fits_iff_of_broadcast? hJoin).mp ⟨hFits, .refl target⟩ hMeets
  · rintro t next op left right position l r n hNot hBinary hl hr hn rfl rfl
    rw [Symbol.exists_broadcast_iff hx, Symbol.exists_broadcast_iff hy]
    exact Shape.fits_iff_of_broadcast? (Tree.broadcast?_of_binary hNot hBinary hl hr hn)

/-- A row and a matrix: the row can be rendered in the shape of the matrix, and both in the
shape of their product. -/
theorem broadcasting_agrees_rowSums :
    ∃ table x y next n, Table.ofTree .rowSums 8 .cpu {} = .ok table ∧
      table.get? 3 = some x ∧ x.shape? = some [1, 2] ∧
      table.get? 4 = some y ∧ y.shape? = some [2, 2] ∧
      ¬ Shape.EmptyMeetsUnit [1, 2] [2, 2] ∧ Shape.broadcast [1, 2] [2, 2] = .ok [2, 2] ∧
      (∃ text, x.broadcast [2, 2] = .ok text) ∧
      Tree.rowSums.binary .mul 3 4 = .ok (next, 9) ∧ next.get? 9 = some n ∧ n.shape = [2, 2] ∧
      (∃ text, x.broadcast n.shape = .ok text) ∧ ∃ text, y.broadcast n.shape = .ok text := by
  have hEval : ((Table.ofTree .rowSums 8 .cpu {}).toOption.bind fun table =>
      (table.get? 3).bind fun x => (table.get? 4).map fun y => (x.shape?, y.shape?)) =
      some (some [1, 2], some [2, 2]) := by
    decide +kernel
  obtain ⟨table, hOption, hGet⟩ := Option.bind_eq_some_iff.mp hEval
  obtain ⟨x, hx, hRest⟩ := Option.bind_eq_some_iff.mp hGet
  obtain ⟨y, hy, hPair⟩ := Option.map_eq_some_iff.mp hRest
  obtain ⟨hxShape, hyShape⟩ := Prod.mk.inj hPair
  have hNot : ¬ Shape.EmptyMeetsUnit [1, 2] [2, 2] := by decide
  have hJoin : Shape.broadcast [1, 2] [2, 2] = .ok [2, 2] := rfl
  obtain ⟨hDomain, hOperands⟩ := broadcasting_agrees hxShape hyShape
  have hRow := ((hDomain [2, 2]).1 hNot).mpr hJoin
  have hl : Tree.rowSums.get? 3 = some ⟨.view .reshape, .float32, [1, 2], some 2, none⟩ := rfl
  have hr : Tree.rowSums.get? 4 = some ⟨.buffer [2, 1] 0, .float32, [2, 2], none, none⟩ := rfl
  have hBinary : Tree.rowSums.binary .mul 3 4 = .ok (Tree.rowSums.append
    ⟨.binary .mul, .float32, [2, 2], some 3, some 4⟩ (by decide), 9) := rfl
  have hBoth := (hOperands (by decide) hBinary hl hr rfl rfl rfl).mpr hNot
  exact ⟨table, x, y, _, _, eq_ok_of_toOption hOption, hx, hxShape, hy, hyShape, hNot, hJoin, hRow,
    hBinary, rfl, rfl, hBoth⟩

/-- A vector without elements and one with a single element have a sum of one element, in
whose shape the first cannot be rendered, although the join of the two shapes is that
shape. -/
theorem empty_axis_joined_but_not_addressed :
    ∃ (t next : Tree) (table : Table) (x : Symbol),
      t = ((Tree.empty.buffer .float32 [0] [1] 0).1.buffer .float32 [1] [1] 0).1 ∧ t.Built ∧
      t.binary .add 0 1 = .ok (next, 2) ∧ (next.get? 2).map Node.shape = some [1] ∧
      Table.ofTree next 2 .cpu {} = .ok table ∧ table.get? 0 = some x ∧
      x.shape? = some [0] ∧ Shape.broadcast [0] [1] = .ok [1] ∧
      ¬ ∃ text, x.broadcast [1] = .ok text := by
  have hEval : ((((Tree.empty.buffer .float32 [0] [1] 0).1.buffer .float32 [1] [1] 0).1.binary
      .add 0 1).toOption.bind fun grown => (Table.ofTree grown.1 2 .cpu {}).toOption.bind
        fun table => (table.get? 0).map fun x =>
          (grown.2, (grown.1.get? 2).map Node.shape, x.shape?)) =
      some (2, some [1], some [0]) := by
    decide +kernel
  obtain ⟨⟨next, position⟩, hGrown, hRest⟩ := Option.bind_eq_some_iff.mp hEval
  obtain ⟨table, hOption, hGet⟩ := Option.bind_eq_some_iff.mp hRest
  obtain ⟨x, hx, hTriple⟩ := Option.map_eq_some_iff.mp hGet
  obtain ⟨rfl, hPair⟩ := Prod.mk.inj hTriple
  obtain ⟨hNode, hShape⟩ := Prod.mk.inj hPair
  refine ⟨_, next, table, x, rfl, .buffer (.buffer .empty .float32 [0] [1] 0) .float32 [1] [1] 0,
    eq_ok_of_toOption hGrown, hNode, eq_ok_of_toOption hOption, hx, hShape, rfl, ?_⟩
  rw [Symbol.exists_broadcast_iff hShape]
  rintro ⟨-, hAxis, -⟩
  revert hAxis
  decide

end ArrayKernel
