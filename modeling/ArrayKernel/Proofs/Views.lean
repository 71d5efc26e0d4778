import ArrayKernel.Proofs.Offset

/-!
# Views and the elements under them

A view has a reference map, which takes an index of the view to the index of the same
element in the array under it.  The element reference of a view either passes the
reference map on to the helper of that array, or, for a diagonal of an array with
strides, adds a stride of its own to the pointer.

Strides that are known for an array describe it: the sum of each index times its
stride is the offset in the buffer.  After a reshape no stride is known.
-/

namespace ArrayKernel

namespace Shape

theorem inBounds_append {s t : Shape} {index other : List Nat} (h : InBounds s index) :
    InBounds (s ++ t) (index ++ other) ↔ InBounds t other := by
  induction s generalizing index with
  | nil =>
      cases index with
      | nil => exact Iff.rfl
      | cons i index => exact h.elim
  | cons extent extents ih =>
      cases index with
      | nil => exact h.elim
      | cons i index =>
          show i < extent ∧ InBounds (extents ++ t) (index ++ other) ↔ _
          rw [ih h.2]
          exact and_iff_right h.1

theorem inBounds_reverse {s : Shape} {index : List Nat} (h : InBounds s index) :
    InBounds s.reverse index.reverse := by
  induction s generalizing index with
  | nil =>
      cases index with
      | nil => exact trivial
      | cons i index => exact h.elim
  | cons extent extents ih =>
      cases index with
      | nil => exact h.elim
      | cons i index =>
          rw [List.reverse_cons, List.reverse_cons, inBounds_append (ih h.2)]
          exact ⟨h.1, trivial⟩

end Shape

/-! ## Reference maps -/

namespace View

/-- The index in the array under a view of the element with an index of the view: the
index with the same number in row-major order, the index in reverse order, or the index
along both axes of a matrix. -/
def reference (v : View) (shape source : Shape) (index : List Nat) : List Nat :=
  match v with
  | .reshape => source.ofRowMajor (shape.rowMajor index)
  | .transpose => index.reverse
  | .diagonal => index ++ index

/-- The shape of a view follows from the shape of the array under it, up to the choice
of a shape with as many elements. -/
def Relates (v : View) (shape source : Shape) : Prop :=
  match v with
  | .reshape => shape.volume = source.volume
  | .transpose => shape = source.reverse
  | .diagonal => ∃ rows columns, source = [rows, columns] ∧ shape = [min rows columns]

variable {v : View} {shape source : Shape} {index : List Nat}

theorem reference_inBounds (h : v.Relates shape source) (hIn : shape.InBounds index) :
    source.InBounds (v.reference shape source index) := by
  cases v with
  | reshape =>
      refine Shape.ofRowMajor_inBounds ?_
      have hVolume : shape.volume = source.volume := h
      rw [← hVolume]
      exact Shape.rowMajor_lt_volume hIn
  | transpose =>
      have hShape : shape = source.reverse := h
      rw [hShape] at hIn
      have hReverse := Shape.inBounds_reverse hIn
      rwa [List.reverse_reverse] at hReverse
  | diagonal =>
      obtain ⟨rows, columns, rfl, rfl⟩ := h
      match index with
      | [] => exact hIn.elim
      | _ :: _ :: _ => exact hIn.2.elim
      | [i] =>
          obtain ⟨hi, -⟩ := hIn
          exact ⟨by omega, by omega, trivial⟩

theorem relates_of_formed {t : Tree} {n m : Node} {child : Nat} (h : t.Formed n)
    (hOp : n.op = .view v) (hLhs : n.lhs = some child) (hm : t.get? child = some m) :
    v.Relates n.shape m.shape := by
  unfold Tree.Formed at h
  rw [hOp] at h
  cases v with
  | reshape =>
      obtain ⟨o, count, hWraps, hSource, hShape, -⟩ := h
      rw [hWraps.eq_of_lhs hLhs hm] at hSource
      show n.shape.volume = m.shape.volume
      rw [← Shape.volume_of_count? hSource, ← Shape.volume_of_count? hShape]
  | transpose =>
      obtain ⟨o, hWraps, hShape, -⟩ := h
      rw [hWraps.eq_of_lhs hLhs hm] at hShape
      exact hShape
  | diagonal =>
      obtain ⟨o, rows, columns, hWraps, hSource, hShape, -⟩ := h
      rw [hWraps.eq_of_lhs hLhs hm] at hSource
      exact ⟨rows, columns, hSource, hShape⟩

end View

namespace IndexExpr

theorem Denote.reverse {env : Text → Option Int} {es : List IndexExpr} {index : List Nat}
    (h : Denote env es index) : Denote env es.reverse index.reverse := by
  unfold Denote at h ⊢
  rw [List.map_reverse, h, List.map_reverse]

theorem Denote.length_eq {env : Text → Option Int} {es : List IndexExpr} {index : List Nat}
    (h : Denote env es index) : es.length = index.length := by
  simpa using congrArg List.length h

end IndexExpr

/-! ## References to elements -/

namespace View

/-- An element of a view is found through the helper of the array under it, at indices
that denote the reference map. -/
structure Passes (v : View) (shape source : Shape) (indices : List IndexExpr) : Prop where
  length_eq : indices.length = source.length
  fillable : ∀ e ∈ indices, IndexExpr.Fillable (IndexExpr.axisNames shape.length) e
  denote : ∀ {env index}, shape.InBounds index →
    IndexExpr.Denote env ((IndexExpr.axisNames shape.length).map .var) index →
      IndexExpr.Denote env indices (v.reference shape source index)

variable {v : View} {shape source : Shape}

/-- What is passed on can be read back, with arguments in place of the axes. -/
theorem Passes.isReadable_subst {indices args : List IndexExpr}
    (h : v.Passes shape source indices) (hArgs : ∀ e ∈ args, e.isReadable = true) :
    ∀ e ∈ indices.map (·.subst (IndexExpr.axisNames shape.length) args), e.isReadable = true := by
  intro e he
  obtain ⟨d, hd, rfl⟩ := List.mem_map.mp he
  have hFill := h.fillable d hd
  exact IndexExpr.isReadable_subst hFill.readable hFill.guarded hArgs

theorem fillable_axisNames {n rank : Nat} :
    ∀ e ∈ (IndexExpr.axisNames n).map IndexExpr.var,
      IndexExpr.Fillable (IndexExpr.axisNames rank) e := by
  intro e he
  obtain ⟨name, hName, rfl⟩ := List.mem_map.mp he
  exact IndexExpr.fillable_var (IndexExpr.isName_of_mem_axisNames hName)

theorem passes_reshape {place : IndexExpr} {indices : List IndexExpr}
    (hRelates : View.reshape.Relates shape source)
    (hPlace : IndexExpr.flatten? (IndexExpr.axisNames shape.length) shape = some place)
    (hIndices : IndexExpr.unflatten? place source = some indices) :
    View.reshape.Passes shape source indices where
  length_eq := IndexExpr.length_of_unflatten? hIndices
  fillable := by
    obtain ⟨hFillable, hBare⟩ := IndexExpr.fillable_of_flatten? hPlace fun _ hName =>
      IndexExpr.isName_of_mem_axisNames hName
    intro e he
    exact (IndexExpr.isTerm_of_unflatten? hFillable hBare hIndices e he).toFillable
  denote := by
    intro env index hIn hNames
    have hVolume : shape.volume = source.volume := hRelates
    have hLt := Shape.rowMajor_lt_volume hIn
    rw [hVolume] at hLt
    have hValue := IndexExpr.value?_flatten? hPlace hIn hNames
    refine IndexExpr.denote_unflatten? hIndices ?_ hValue hLt
    exact (Shape.ofRowMajor_inBounds hLt).zero_not_mem

theorem passes_transpose (hRelates : View.transpose.Relates shape source) :
    View.transpose.Passes shape source
      ((IndexExpr.axisNames shape.length).reverse.map .var) where
  length_eq := by
    have hShape : shape = source.reverse := hRelates
    simp [IndexExpr.axisNames, hShape]
  fillable := by
    intro e he
    rw [List.map_reverse, List.mem_reverse] at he
    exact fillable_axisNames e he
  denote := by
    intro env index hIn hNames
    rw [List.map_reverse]
    exact hNames.reverse

theorem passes_diagonal (hRelates : View.diagonal.Relates shape source) :
    View.diagonal.Passes shape source
      [.var (IndexExpr.axisName 0), .var (IndexExpr.axisName 0)] where
  length_eq := by
    obtain ⟨rows, columns, rfl, rfl⟩ := hRelates
    rfl
  fillable := by
    intro e he
    have hEq : e = .var (IndexExpr.axisName 0) := by simpa using he
    rw [hEq]
    exact IndexExpr.fillable_var
      (IndexExpr.isName_of_isIdentifier (IndexExpr.isIdentifier_axisName 0))
  denote := by
    intro env index hIn hNames
    obtain ⟨rows, columns, rfl, rfl⟩ := hRelates
    match index with
    | [] => exact hIn.elim
    | _ :: _ :: _ => exact hIn.2.elim
    | [i] =>
        have hValue := (IndexExpr.denote_cons.mp hNames).1
        exact IndexExpr.denote_cons.mpr ⟨hValue, hNames⟩

/-- The element of a view goes through the helper of the array under it, or the view is
a diagonal with a stride. -/
theorem elementRef?_cases {helper : Text} {storage : Storage} {element : ElementRef}
    (h : v.elementRef? helper storage shape source = some element)
    (hRelates : v.Relates shape source) :
    (∃ indices, element = .through helper indices ∧ v.Passes shape source indices) ∨
      ∃ stride, v = .diagonal ∧ storage.shared = some stride ∧
        element = .stored storage.pointer (.add (.var storage.start)
          (.mul (.group (.var (IndexExpr.axisName 0))) stride)) := by
  cases v with
  | reshape =>
      obtain ⟨place, hPlace, hRest⟩ := Option.bind_eq_some_iff.mp h
      obtain ⟨indices, hIndices, hEq⟩ := Option.bind_eq_some_iff.mp hRest
      cases hEq
      exact .inl ⟨indices, rfl, passes_reshape hRelates hPlace hIndices⟩
  | transpose =>
      cases h
      exact .inl ⟨_, rfl, passes_transpose hRelates⟩
  | diagonal =>
      unfold elementRef? at h
      dsimp only at h
      split at h
      · next stride hStride =>
        cases h
        exact .inr ⟨stride, rfl, hStride, rfl⟩
      · cases h
        exact .inl ⟨_, rfl, passes_diagonal hRelates⟩

end View

/-! ## Known strides -/

theorem weightedSum_append {index other strides others : List Nat}
    (h : index.length = strides.length) :
    weightedSum (index ++ other) (strides ++ others) =
      weightedSum index strides + weightedSum other others := by
  induction index generalizing strides with
  | nil =>
      have hNil : strides = [] := List.length_eq_zero_iff.mp h.symm
      rw [hNil]
      simp [weightedSum]
  | cons i index ih =>
      cases strides with
      | nil => cases h
      | cons stride strides =>
          rw [List.cons_append, List.cons_append, weightedSum, weightedSum,
            ih (Nat.succ.inj h)]
          omega

theorem weightedSum_reverse {index strides : List Nat} (h : index.length = strides.length) :
    weightedSum index.reverse strides = weightedSum index strides.reverse := by
  induction index generalizing strides with
  | nil =>
      have hNil : strides = [] := List.length_eq_zero_iff.mp h.symm
      rw [hNil]
      rfl
  | cons i index ih =>
      -- the last stride belongs to the first component
      obtain ⟨front, last, rfl⟩ : ∃ front last, strides = front ++ [last] := by
        cases hStrides : strides.reverse with
        | nil =>
            rw [List.reverse_eq_nil_iff] at hStrides
            rw [hStrides] at h
            exact nomatch h
        | cons last front =>
            refine ⟨front.reverse, last, ?_⟩
            rw [← List.reverse_reverse strides, hStrides, List.reverse_cons]
      have hLength : index.length = front.length := by simpa using h
      rw [List.reverse_cons, List.reverse_append, weightedSum_append (by simpa using hLength),
        ih hLength]
      simp only [List.reverse_singleton, List.singleton_append, weightedSum]
      omega

/-- A stride expression that can be a factor in the body of an access helper. -/
structure IndexExpr.IsStride (e : IndexExpr) : Prop where
  operand : e.isOperand = true
  term : ∀ rank, IsTerm (axisNames rank) e

/-- The offset in a diagonal with a stride of its own. -/
theorem IndexExpr.IsStride.fillable_offset {e : IndexExpr} (he : e.IsStride) {start : Text}
    (hStart : Text.isIdentifier start = true) (rank : Nat) :
    Fillable (axisNames rank) (.add (.var start) (.mul (.group (.var (axisName 0))) e)) := by
  have hIndex := isName_of_isIdentifier (isIdentifier_axisName 0)
  have hTerm := (fillable_var hIndex).group.factor (he.term rank) he.operand .times
  have hTerms : ∀ d ∈ [mul (.group (.var (axisName 0))) e], IsTerm (axisNames rank) d := by
    intro d hd
    rw [List.mem_singleton.mp hd]
    exact hTerm
  exact fillable_foldl_add (fillable_var (isName_of_isIdentifier hStart)) hTerms

/-- The pointer and offset of a storage are those of a buffer, and the strides, where they
are known for all axes, lead to the elements of the buffer. -/
structure Storage.Describes (storage : Storage) (l : Layout) (handle : Text) (shape : Shape)
    (toBuffer : List Nat → List Nat) : Prop where
  pointer : storage.pointer = handle
  start : storage.start = Layout.startName handle
  length_strides : storage.strides = [] ∨ storage.strides.length = shape.length
  isStride : ∀ {es : List IndexExpr}, storage.strides = es.map some → ∀ e ∈ es, e.IsStride
  denote : ∀ {es : List IndexExpr}, storage.strides = es.map some → es ≠ [] →
    ∀ {env : Text → Option Int}, l.BoundIn handle env → ∃ values, IndexExpr.Denote env es values ∧
      ∀ {index}, shape.InBounds index →
        weightedSum (toBuffer index) l.strides = weightedSum index values

namespace Layout

/-- The storage of a buffer describes it. -/
theorem storage_describes {l : Layout} {handle : Text}
    (hHandle : Text.isIdentifier handle = true) :
    (l.storage handle).Describes l handle l.shape id where
  pointer := rfl
  start := rfl
  length_strides := by
    right
    show ((l.strideNames handle).map _).length = _
    rw [List.length_map, length_strideNames]
    rfl
  isStride := by
    intro es hEs e he
    have hMem : some e ∈ (l.strideNames handle).map fun stride => some (IndexExpr.var stride) := by
      show some e ∈ (l.storage handle).strides
      rw [hEs]
      exact List.mem_map_of_mem he
    obtain ⟨name, hName, hEq⟩ := List.mem_map.mp hMem
    cases hEq
    obtain ⟨k, hk⟩ := List.mem_iff_getElem?.mp hName
    exact ⟨rfl, isTerm_strideName hHandle hk⟩
  denote := by
    intro es hEs _ env hBound
    have hVars : es = (l.strideNames handle).map .var := by
      have hMap : es.map some = ((l.strideNames handle).map IndexExpr.var).map some := by
        rw [← hEs, List.map_map]
        rfl
      exact (List.map_inj_right fun _ _ h => Option.some.inj h).mp hMap
    exact ⟨l.strides, hVars ▸ hBound.strides, fun _ => rfl⟩

end Layout

namespace View

variable {under : Storage} {l : Layout} {handle : Text} {source shape : Shape}
  {toBuffer : List Nat → List Nat}

theorem describes_reshape (h : under.Describes l handle source toBuffer) :
    (View.reshape.storage under source.length).Describes l handle shape
      (toBuffer ∘ View.reshape.reference shape source) where
  pointer := h.pointer
  start := h.start
  length_strides := .inl rfl
  isStride := by
    intro es hEs e he
    have hNil : es = [] := List.map_eq_nil_iff.mp hEs.symm
    rw [hNil] at he
    exact nomatch he
  denote := by
    intro es hEs hne
    exact absurd (List.map_eq_nil_iff.mp hEs.symm) hne

theorem reverse_strides {strides : List (Option IndexExpr)} {n : Nat} (h : strides.length = n) :
    ((List.range n).map fun axis => strides.getD (n - 1 - axis) none) = strides.reverse := by
  subst h
  apply List.ext_getElem
  · simp
  · intro k hk _
    have hLt : k < strides.length := by simpa using hk
    have hBack : strides.length - 1 - k < strides.length := by omega
    simp [List.getD_eq_getElem?_getD, hBack]

theorem describes_transpose (h : under.Describes l handle source toBuffer)
    (hRelates : View.transpose.Relates shape source) :
    (View.transpose.storage under source.length).Describes l handle shape
      (toBuffer ∘ View.transpose.reference shape source) := by
  have hShape : shape = source.reverse := hRelates
  -- strides that are known come from the strides under the view, in reverse order
  have hUnder {es : List IndexExpr} (hne : es ≠ [])
      (hEs : (View.transpose.storage under source.length).strides = es.map some) :
      under.strides = es.reverse.map some := by
    have hMap : ((List.range source.length).map fun axis =>
        under.strides.getD (source.length - 1 - axis) none) = es.map some := hEs
    rcases h.length_strides with hNil | hLength
    · rw [hNil] at hMap
      have hMem : some (es.head hne) ∈ es.map some := List.mem_map_of_mem (List.head_mem hne)
      rw [← hMap] at hMem
      obtain ⟨axis, -, hAxis⟩ := List.mem_map.mp hMem
      simp at hAxis
    · rw [reverse_strides hLength] at hMap
      rw [List.map_reverse, ← hMap, List.reverse_reverse]
  refine ⟨h.pointer, h.start, ?_, ?_, ?_⟩
  · right
    show ((List.range source.length).map _).length = _
    simp [hShape]
  · intro es hEs e he
    have hne : es ≠ [] := List.ne_nil_of_mem he
    exact h.isStride (hUnder hne hEs) e (List.mem_reverse.mpr he)
  · intro es hEs hne env hBound
    have hReverse : es.reverse ≠ [] := by simpa using hne
    obtain ⟨values, hValues, hSum⟩ := h.denote (hUnder hne hEs) hReverse hBound
    refine ⟨values.reverse, ?_, ?_⟩
    · have hDenote := hValues.reverse
      rwa [List.reverse_reverse] at hDenote
    · intro index hIn
      have hLength : index.length = values.length := by
        rw [hIn.length_eq, ← hValues.length_eq, hShape]
        have hCount := congrArg List.length hEs
        have hRange : ((List.range source.length).map fun axis =>
          under.stride? (source.length - 1 - axis)).length = (es.map some).length := hCount
        simpa using hRange
      have hRef := hSum (View.reference_inBounds hRelates hIn)
      show weightedSum (toBuffer index.reverse) l.strides = _
      rw [← weightedSum_reverse hLength]
      exact hRef

/-- A diagonal has a stride where the matrix under it has strides for both axes. -/
theorem storage_diagonal_cases (h : under.Describes l handle source toBuffer)
    (hLength : source.length = 2) :
    (∃ rows columns, under.strides = [rows, columns].map some ∧
      View.diagonal.storage under source.length =
        { under with
          strides := [some (.group (.add rows columns))]
          shared := some (.group (.add rows columns)) }) ∨
      View.diagonal.storage under source.length = { under with strides := [], shared := none } := by
  unfold View.storage
  dsimp only
  split
  · next rows columns hRows hColumns =>
    left
    refine ⟨rows, columns, ?_, rfl⟩
    rcases h.length_strides with hNil | hCount
    · unfold Storage.stride? at hRows
      rw [hNil] at hRows
      exact nomatch hRows
    · rw [hLength] at hCount
      unfold Storage.stride? at hRows hColumns
      match hStrides : under.strides with
      | [] =>
          rw [hStrides] at hCount
          exact nomatch hCount
      | [_] =>
          rw [hStrides] at hCount
          exact nomatch hCount
      | _ :: _ :: _ :: _ =>
          rw [hStrides] at hCount
          simp at hCount
      | [first, second] =>
          rw [hStrides] at hRows hColumns
          cases hRows
          cases hColumns
          rfl
  · exact .inr rfl

/-- The stride of a diagonal is the sum of the strides of the matrix. -/
theorem describes_diagonal_stride (h : under.Describes l handle source toBuffer)
    (hRelates : View.diagonal.Relates shape source) {rows columns : IndexExpr}
    (hStrides : under.strides = [rows, columns].map some) :
    (IndexExpr.group (.add rows columns)).IsStride ∧
      ∀ {env : Text → Option Int}, l.BoundIn handle env → ∃ stride : Nat,
        (IndexExpr.group (.add rows columns)).value? env = some (stride : Int) ∧
          ∀ {i : Nat}, shape.InBounds [i] →
            weightedSum (toBuffer [i, i]) l.strides = i * stride := by
  have hRows := h.isStride hStrides rows (.head _)
  have hColumns := h.isStride hStrides columns (.tail _ (.head _))
  refine ⟨⟨rfl, fun rank => ?_⟩, ?_⟩
  · have hLast : ∀ d ∈ [columns], IndexExpr.IsTerm (IndexExpr.axisNames rank) d := by
      simpa using hColumns.term rank
    exact (IndexExpr.fillable_foldl_add (hRows.term rank).toFillable hLast).group
  · intro env hBound
    obtain ⟨values, hValues, hSum⟩ := h.denote hStrides (by simp) hBound
    match values, hValues.length_eq with
    | [first, second], _ =>
        rw [IndexExpr.denote_cons, IndexExpr.denote_cons] at hValues
        refine ⟨first + second, ?_, ?_⟩
        · show ((rows.value? env).bind fun x => (columns.value? env).map (x + ·)) = _
          rw [hValues.1, hValues.2.1]
          simp
        · intro i hIn
          have hPair := hSum (View.reference_inBounds hRelates hIn)
          have hWeights : weightedSum [i, i] [first, second] = i * (first + second) := by
            simp [weightedSum, Nat.mul_add]
          exact hPair.trans hWeights

theorem isStride_of_diagonal (h : under.Describes l handle source toBuffer)
    (hRelates : View.diagonal.Relates shape source) {stride : IndexExpr}
    (hShared : (View.diagonal.storage under source.length).shared = some stride) :
    stride.IsStride := by
  have hLength : source.length = 2 := by
    obtain ⟨rows, columns, rfl, -⟩ := hRelates
    rfl
  rcases storage_diagonal_cases h hLength with ⟨rows, columns, hStrides, hStorage⟩ | hStorage
  · rw [hStorage] at hShared
    cases hShared
    exact (describes_diagonal_stride h hRelates hStrides).1
  · rw [hStorage] at hShared
    cases hShared

theorem describes_diagonal (h : under.Describes l handle source toBuffer)
    (hRelates : View.diagonal.Relates shape source) :
    (View.diagonal.storage under source.length).Describes l handle shape
      (toBuffer ∘ View.diagonal.reference shape source) := by
  have hLength : source.length = 2 := by
    obtain ⟨rows, columns, rfl, -⟩ := hRelates
    rfl
  rcases storage_diagonal_cases h hLength with ⟨rows, columns, hStrides, hStorage⟩ | hStorage
  · obtain ⟨hIsStride, hDenote⟩ := describes_diagonal_stride h hRelates hStrides
    rw [hStorage]
    have hOne {es : List IndexExpr}
        (hEs : [some (IndexExpr.group (.add rows columns))] = es.map some) :
        es = [.group (.add rows columns)] :=
      (List.map_inj_right fun _ _ hSome => Option.some.inj hSome).mp hEs.symm
    refine ⟨h.pointer, h.start, ?_, ?_, ?_⟩
    · right
      obtain ⟨_, _, -, rfl⟩ := hRelates
      rfl
    · intro es hEs e he
      rw [hOne hEs, List.mem_singleton] at he
      exact he ▸ hIsStride
    · intro es hEs _ env hBound
      obtain ⟨stride, hValue, hSum⟩ := hDenote hBound
      refine ⟨[stride], ?_, ?_⟩
      · rw [hOne hEs, IndexExpr.denote_cons]
        exact ⟨hValue, rfl⟩
      · intro index hIn
        obtain ⟨_, _, -, rfl⟩ := hRelates
        match index with
        | [] => exact hIn.elim
        | _ :: _ :: _ => exact hIn.2.elim
        | [i] => exact hSum hIn
  · rw [hStorage]
    refine ⟨h.pointer, h.start, .inl rfl, ?_, ?_⟩
    · intro es hEs e he
      have hNil : es = [] := List.map_eq_nil_iff.mp hEs.symm
      rw [hNil] at he
      exact nomatch he
    · intro es hEs hne
      exact absurd (List.map_eq_nil_iff.mp hEs.symm) hne

/-- The storage of a view describes it if the storage under it does. -/
theorem describes {v : View} (h : under.Describes l handle source toBuffer)
    (hRelates : v.Relates shape source) :
    (v.storage under source.length).Describes l handle shape
      (toBuffer ∘ v.reference shape source) := by
  cases v with
  | reshape => exact describes_reshape h
  | transpose => exact describes_transpose h hRelates
  | diagonal => exact describes_diagonal h hRelates

end View

end ArrayKernel
