import ArrayKernel.Proofs.WellFormed
import Mathlib.Algebra.BigOperators.Group.List.Basic
import Mathlib.Data.List.Nodup

/-!
# Reductions conserve elements

A reduction takes a list of axes, which have to be in range and distinct.  The axes that
it keeps and the axes that it collapses are then all axes of the operand, each once, so
that the elements of the operand are those of the result times the collapsed extents.  The
order in which the axes are listed plays no part in the shape of the result.

A list that is not accepted is rejected for the first axis that does not pass.  Such an axis
is either out of range or repeats an earlier one, and NOT both: the earlier one would have
been out of range already.
-/

namespace ArrayKernel

/-- The axes are in range, and none comes twice. -/
def AxesValid (rank : Nat) (axes : List Nat) : Prop := axes.Nodup ∧ ∀ axis ∈ axes, axis < rank

instance (rank : Nat) (axes : List Nat) : Decidable (AxesValid rank axes) :=
  inferInstanceAs (Decidable (axes.Nodup ∧ ∀ axis ∈ axes, axis < rank))

/-- The error about the first axis of a list that is out of range or repeats an earlier one. -/
inductive AxisFault (rank : Nat) : List Nat → TreeError → Prop
  | outOfRange {before : List Nat} {axis : Nat} (after : List Nat)
      (hBefore : AxesValid rank before) (hAxis : rank ≤ axis) :
      AxisFault rank (before ++ axis :: after) (.axisOutOfRange axis rank)
  | repeated {before : List Nat} {axis : Nat} (after : List Nat)
      (hBefore : AxesValid rank before) (hAxis : axis ∈ before) :
      AxisFault rank (before ++ axis :: after) (.repeatedAxis axis)

theorem AxesValid.concat {rank axis : Nat} {axes : List Nat} (h : AxesValid rank axes)
    (hRange : axis < rank) (hNew : axis ∉ axes) : AxesValid rank (axes ++ [axis]) := by
  obtain ⟨hDistinct, hAll⟩ := h
  constructor
  · rw [List.nodup_append]
    refine ⟨hDistinct, List.nodup_singleton axis, ?_⟩
    rintro a ha b hb rfl
    exact hNew (List.mem_singleton.mp hb ▸ ha)
  · intro a ha
    rcases List.mem_append.mp ha with ha | ha
    · exact hAll a ha
    · exact List.mem_singleton.mp ha ▸ hRange

theorem AxesValid.perm {rank : Nat} {axes axes' : List Nat} (h : AxesValid rank axes)
    (hPerm : axes'.Perm axes) : AxesValid rank axes' :=
  ⟨hPerm.nodup_iff.mpr h.1, fun axis hAxis => h.2 axis (hPerm.mem_iff.mp hAxis)⟩

namespace Shape

variable {s : Shape} {axes : List Nat}

/-- The extents of the listed axes, in the order of the list. -/
def extentsAt (s : Shape) (axes : List Nat) : Shape := axes.filterMap fun k => s[k]?

/-- The axes that are not listed, in order. -/
def axesBeside (s : Shape) (axes : List Nat) : List Nat :=
  (List.range s.length).filter fun k => k ∉ axes

/-- What is left of a shape when the listed axes are collapsed: the extents of all other axes
in order.  No element is lost or counted twice. -/
structure Collapses (s : Shape) (axes : List Nat) (r : Shape) : Prop where
  kept_in_order : ∃ kept : List Nat, kept.Pairwise (· < ·) ∧
    (∀ k, k ∈ kept ↔ k < s.length ∧ k ∉ axes) ∧ r = s.extentsAt kept
  volume_eq : s.volume = r.volume * (s.extentsAt axes).volume
  length_add : r.length + axes.length = s.length

theorem volume_eq_prod (s : Shape) : s.volume = s.prod := by
  induction s with
  | nil => rfl
  | cons extent extents ih => rw [volume, List.prod_cons, ih]

theorem mem_axesBeside {k : Nat} : k ∈ s.axesBeside axes ↔ k < s.length ∧ k ∉ axes := by
  simp [axesBeside]

theorem extentsAt_range (s : Shape) : s.extentsAt (List.range s.length) = s := by
  induction s with
  | nil => rfl
  | cons extent extents ih =>
      have hHead : (extent :: extents)[0]? = some extent := rfl
      rw [extentsAt, List.length_cons, List.range_succ_eq_map, List.filterMap_cons_some hHead,
        List.filterMap_map]
      exact congrArg (extent :: ·) ih

theorem length_extentsAt (hRange : ∀ axis ∈ axes, axis < s.length) :
    (s.extentsAt axes).length = axes.length := by
  induction axes with
  | nil => rfl
  | cons axis axes ih =>
      have hAxis : axis < s.length := hRange axis (.head _)
      have hGet : s[axis]? = some s[axis] := List.getElem?_eq_getElem hAxis
      rw [extentsAt, List.filterMap_cons_some hGet]
      exact congrArg (· + 1) (ih fun a ha => hRange a (.tail _ ha))

/-- The axes that are kept and those that are collapsed are all axes, each once. -/
theorem axesBeside_append_perm (h : AxesValid s.length axes) :
    (s.axesBeside axes ++ axes).Perm (List.range s.length) := by
  obtain ⟨hDistinct, hRange⟩ := h
  have hNodup : (s.axesBeside axes ++ axes).Nodup := by
    rw [List.nodup_append]
    refine ⟨List.nodup_range.filter _, hDistinct, ?_⟩
    rintro a ha b hb rfl
    exact (mem_axesBeside.mp ha).2 hb
  rw [List.perm_ext_iff_of_nodup hNodup List.nodup_range]
  intro k
  rw [List.mem_append, mem_axesBeside, List.mem_range]
  constructor
  · rintro (⟨hk, -⟩ | hk)
    · exact hk
    · exact hRange k hk
  · intro hk
    by_cases hMem : k ∈ axes
    · exact .inr hMem
    · exact .inl ⟨hk, hMem⟩

theorem without_append_perm (h : AxesValid s.length axes) :
    (s.without axes ++ s.extentsAt axes).Perm s := by
  have hPerm : (s.extentsAt (s.axesBeside axes ++ axes)).Perm (s.extentsAt (List.range s.length)) :=
    (axesBeside_append_perm h).filterMap _
  rwa [extentsAt_range, extentsAt, List.filterMap_append] at hPerm

theorem collapses_without (h : AxesValid s.length axes) : s.Collapses axes (s.without axes) where
  kept_in_order :=
    ⟨s.axesBeside axes, List.pairwise_lt_range.filter _, fun _ => mem_axesBeside, rfl⟩
  volume_eq := by
    rw [volume_eq_prod, volume_eq_prod, volume_eq_prod, ← List.prod_append]
    exact (without_append_perm h).prod_eq.symm
  length_add := by
    rw [← length_extentsAt h.2, ← List.length_append]
    exact (without_append_perm h).length_eq

/-- What is left does not depend on the order of the axes. -/
theorem without_eq_of_perm {axes' : List Nat} (h : axes'.Perm axes) :
    s.without axes' = s.without axes := by
  unfold without
  congr 1
  exact List.filter_congr fun k _ => by rw [decide_not, decide_not, decide_eq_decide.mpr h.mem_iff]

end Shape

namespace Tree

/-! ## The check of the axes -/

theorem checkAxes_nil_eq_ok_iff {rank : Nat} {axes : List Nat} :
    checkAxes rank [] axes = .ok () ↔ AxesValid rank axes := by
  rw [checkAxes_eq_ok_iff]
  simp [AxesValid]

/-- The check goes on behind axes that have passed. -/
theorem checkAxes_append {rank : Nat} {seen before axes : List Nat}
    (h : checkAxes rank seen before = .ok ()) :
    checkAxes rank seen (before ++ axes) = checkAxes rank (before.reverse ++ seen) axes := by
  induction before generalizing seen with
  | nil => rfl
  | cons axis before ih =>
      rw [checkAxes] at h
      rw [List.cons_append, checkAxes]
      split at h
      · cases h
      · next hRange =>
        split at h
        · cases h
        · next hNew =>
          rw [if_neg hRange, if_neg hNew, ih h]
          simp

theorem checkAxes_of_axisFault {rank : Nat} {axes : List Nat} {e : TreeError}
    (h : AxisFault rank axes e) : checkAxes rank [] axes = .error e := by
  cases h with
  | outOfRange after hBefore hAxis =>
      rw [checkAxes_append (checkAxes_nil_eq_ok_iff.mpr hBefore), checkAxes, if_pos hAxis]
  | @repeated before axis after hBefore hAxis =>
      have hRange : ¬ rank ≤ axis := Nat.not_le.mpr (hBefore.2 axis hAxis)
      rw [checkAxes_append (checkAxes_nil_eq_ok_iff.mpr hBefore), checkAxes, if_neg hRange,
        if_pos (by simpa using hAxis)]

/-- A check that fails behind axes that have passed fails for the first fault of the whole
list. -/
theorem axisFault_of_checkAxes {rank : Nat} {before axes : List Nat} {e : TreeError}
    (hBefore : AxesValid rank before) (h : checkAxes rank before.reverse axes = .error e) :
    AxisFault rank (before ++ axes) e := by
  induction axes generalizing before with
  | nil => cases h
  | cons axis axes ih =>
      rw [checkAxes] at h
      split at h
      · next hOut =>
        cases h
        exact .outOfRange axes hBefore hOut
      · next hRange =>
        split at h
        · next hSeen =>
          cases h
          exact .repeated axes hBefore (List.mem_reverse.mp hSeen)
        · next hNew =>
          have hValid : AxesValid rank (before ++ [axis]) :=
            hBefore.concat (Nat.not_le.mp hRange) fun hMem => hNew (List.mem_reverse.mpr hMem)
          have hFault := ih hValid (by rwa [List.reverse_concat])
          rwa [List.append_assoc] at hFault

theorem checkAxes_eq_error_iff {rank : Nat} {axes : List Nat} {e : TreeError} :
    checkAxes rank [] axes = .error e ↔ AxisFault rank axes e :=
  ⟨axisFault_of_checkAxes ⟨List.nodup_nil, fun _ h => absurd h List.not_mem_nil⟩,
    checkAxes_of_axisFault⟩

/-! ## The outcome of a reduction -/

variable {t : Tree} {arg : Nat} {m : Node}

theorem reduce_of_get? (hm : t.get? arg = some m) (op : ReduceOp) (axes : List Nat) :
    t.reduce op arg axes = checkAxes m.shape.length [] axes >>= fun _ =>
      t.push ⟨.reduce op axes, m.dtype, m.shape.without axes, some arg, none⟩ := by
  rw [reduce, Growth.reduce, Growth.outcome_operand_bind, operand_eq_ok_iff.mpr hm, ok_bind,
    keptExtents_eq_without, Growth.outcome_ofExcept_bind]
  rfl

/-- A reduction along valid axes appends its node. -/
theorem reduce_of_axesValid (hm : t.get? arg = some m) (op : ReduceOp) {axes : List Nat}
    (h : AxesValid m.shape.length axes) :
    ∃ next, (Growth.reduce op arg axes).run t = .ok t.size next ∧ next.nodes =
      t.nodes.push ⟨.reduce op axes, m.dtype, m.shape.without axes, some arg, none⟩ := by
  have hOk := reduce_of_get? hm op axes
  rw [checkAxes_nil_eq_ok_iff.mpr h, ok_bind,
    push_of_lt (by simp [Node.mem_children, lt_size_of_get? hm])] at hOk
  exact ⟨_, Growth.outcome_eq_ok_iff.mp hOk, rfl⟩

theorem reduce_of_axisFault (hm : t.get? arg = some m) (op : ReduceOp) {axes : List Nat}
    {e : TreeError} (h : AxisFault m.shape.length axes e) :
    (Growth.reduce op arg axes).run t = .error e t := by
  have hError := reduce_of_get? hm op axes
  rw [checkAxes_eq_error_iff.mpr h] at hError
  exact (Growth.atomic_reduce op arg axes).outcome_eq_error_iff.mp hError

/-- The axes are valid or have a first fault. -/
theorem axesValid_or_axisFault (rank : Nat) (axes : List Nat) :
    AxesValid rank axes ∨ ∃ e, AxisFault rank axes e := by
  cases h : checkAxes rank [] axes with
  | ok => exact .inl (checkAxes_nil_eq_ok_iff.mp h)
  | error e => exact .inr ⟨e, checkAxes_eq_error_iff.mp h⟩

end Tree

/-- **Reductions conserve elements.**  A reduction of a node succeeds exactly along distinct
axes in range.  It then appends a node whose shape has the extents of all other axes in order;
its elements times those of the collapsed axes are the elements of the operand, and any order
of the axes gives the same shape.  Otherwise the error is about the first axis that is out of
range or repeats an earlier one, and the tree stays as it was. -/
theorem reduction_conserves_elements {t : Tree} {arg : Nat} {m : Node}
    (hm : t.get? arg = some m) (op : ReduceOp) (axes : List Nat) :
    ((∃ position next, (Growth.reduce op arg axes).run t = .ok position next) ↔
      AxesValid m.shape.length axes) ∧
    (AxesValid m.shape.length axes → ∃ shape, m.shape.Collapses axes shape ∧
      ∀ axes' : List Nat, axes'.Perm axes → ∃ next,
        (Growth.reduce op arg axes').run t = .ok t.size next ∧
        next.nodes = t.nodes.push ⟨.reduce op axes', m.dtype, shape, some arg, none⟩) ∧
    (¬ AxesValid m.shape.length axes → ∃ e, (Growth.reduce op arg axes).run t = .error e t ∧
      AxisFault m.shape.length axes e) := by
  have hRejected (hNot : ¬ AxesValid m.shape.length axes) :
      ∃ e, (Growth.reduce op arg axes).run t = .error e t ∧ AxisFault m.shape.length axes e := by
    obtain ⟨e, hFault⟩ := (Tree.axesValid_or_axisFault m.shape.length axes).resolve_left hNot
    exact ⟨e, Tree.reduce_of_axisFault hm op hFault, hFault⟩
  refine ⟨⟨?_, ?_⟩, ?_, hRejected⟩
  · rintro ⟨position, next, hOk⟩
    by_contra hNot
    obtain ⟨e, hError, -⟩ := hRejected hNot
    rw [hOk] at hError
    cases hError
  · intro hValid
    obtain ⟨next, hOk, -⟩ := Tree.reduce_of_axesValid hm op hValid
    exact ⟨_, _, hOk⟩
  · intro hValid
    refine ⟨m.shape.without axes, Shape.collapses_without hValid, fun axes' hPerm => ?_⟩
    rw [← Shape.without_eq_of_perm hPerm]
    exact Tree.reduce_of_axesValid hm op (hValid.perm hPerm)

/-- An array with three axes. -/
def Tree.box : Tree := (Tree.empty.buffer .float32 [2, 3, 4] [12, 4, 1] 0).1

/-- Collapsing the last and the first axis of the box leaves the middle one, whichever of them
comes first.  The axes two, zero, zero and five are rejected for the second zero. -/
theorem reduction_conserves_box :
    Shape.Collapses [2, 3, 4] [2, 0] [3] ∧
    (∃ next, (Growth.reduce .add 0 [0, 2]).run Tree.box = .ok 1 next ∧
      next.nodes = Tree.box.nodes.push ⟨.reduce .add [0, 2], .float32, [3], some 0, none⟩) ∧
    (Growth.reduce .add 0 [2, 0, 0, 5]).run Tree.box = .error (.repeatedAxis 0) Tree.box ∧
    AxisFault 3 [2, 0, 0, 5] (.repeatedAxis 0) := by
  have hBox : Tree.box.get? 0 =
      some ⟨.buffer [12, 4, 1] 0, .float32, [2, 3, 4], none, none⟩ := rfl
  obtain ⟨-, hAccepts, -⟩ := reduction_conserves_elements hBox .add [2, 0]
  obtain ⟨-, -, hRejects⟩ := reduction_conserves_elements hBox .add [2, 0, 0, 5]
  obtain ⟨shape, hShape, hOrders⟩ := hAccepts (by decide)
  obtain ⟨e, hError, hFault⟩ := hRejects (by decide)
  obtain ⟨next, hOk, hNodes⟩ := hOrders [0, 2] (by decide)
  have hLast : shape = [3] := by
    cases hOk
    have hShapes := congrArg (fun nodes => nodes[1]?.map Node.shape) hNodes
    exact (Option.some.inj hShapes).symm
  have hFirst : e = .repeatedAxis 0 := by
    cases hError
    rfl
  subst hLast hFirst
  exact ⟨hShape, ⟨next, hOk, hNodes⟩, hError, hFault⟩

end ArrayKernel
