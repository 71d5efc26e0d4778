import ArrayKernel.Proofs.Arguments
import ArrayKernel.Proofs.Reshape

/-!
# The offset of an element of a buffer

The offset expression of a buffer evaluates to the offset of its first element plus
the sum of each index times its stride, whichever access path is taken: the path
without the last stride is chosen only where that stride is one.

The parameters of access helpers are the letter `i` and digits.  Names with an
underscore are never among them, so the names of offsets and strides are safe; the
name of a pointer is safe if the stem of names is not itself such a parameter.
-/

namespace ArrayKernel

namespace Text

/-- A name with an underscore is no parameter of an access helper. -/
theorem isAxisLike_of_underscore {name : Text} (h : '_' ∈ name) : isAxisLike name = false := by
  cases hAxis : isAxisLike name with
  | false => rfl
  | true =>
      unfold isAxisLike at hAxis
      split at hAxis
      · next digits =>
        have hMem : '_' ∈ digits := by simpa using h
        exact absurd (List.all_eq_true.mp hAxis '_' hMem) (by decide)
      · exact nomatch hAxis

/-- A stem that is no parameter of an access helper stays so with digits behind it. -/
theorem isAxisLike_append_ofNat {stem : Text} (hne : stem ≠ []) (h : isAxisLike stem = false)
    (n : Nat) : isAxisLike (stem ++ ofNat n) = false := by
  cases hAxis : isAxisLike (stem ++ ofNat n) with
  | false => rfl
  | true =>
      cases stem with
      | nil => exact absurd rfl hne
      | cons c stem =>
          unfold isAxisLike at hAxis
          split at hAxis
          · next digits hEq =>
            obtain ⟨rfl, rfl⟩ := List.cons.inj hEq
            have hAll : (stem ++ ofNat n).all Char.isDigit = true := hAxis
            have hStem : stem.all Char.isDigit = true := by
              rw [List.all_append, Bool.and_eq_true] at hAll
              exact hAll.1
            exact hStem.symm.trans h
          · exact hAxis.symm

end Text

namespace IndexExpr

theorem isName_of_isIdentifier {name : Text} (h : Text.isIdentifier name = true) :
    isName name = true := by
  unfold isName
  split
  · exact absurd (Text.startsIdentifier_of_isIdentifier h) (by simp [Text.startsIdentifier]; decide)
  · exact h

theorem isIdentifier_axisName (axis : Nat) : Text.isIdentifier (axisName axis) = true :=
  Text.isIdentifier_append (w := ['i']) (by decide) (Text.all_isWordChar_ofNat axis)

theorem isName_of_mem_axisNames {name : Text} {rank : Nat} (h : name ∈ axisNames rank) :
    isName name = true := by
  obtain ⟨axis, -, rfl⟩ := List.mem_map.mp h
  exact isName_of_isIdentifier (isIdentifier_axisName axis)

theorem not_mem_axisNames {name : Text} (h : Text.isAxisLike name = false) (rank : Nat) :
    name ∉ axisNames rank := by
  intro hMem
  obtain ⟨axis, -, rfl⟩ := List.mem_map.mp hMem
  have hAxis : Text.isAxisLike (axisName axis) = true := Text.all_isDigit_ofNat axis
  rw [hAxis] at h
  exact nomatch h

theorem axisName_injective {j k : Nat} (h : axisName j = axisName k) : j = k :=
  Text.ofNat_injective (List.cons.inj h).2

end IndexExpr

/-! ## The value of an offset -/

/-- The sum of each index times its stride. -/
def weightedSum : List Nat → List Nat → Nat
  | i :: index, stride :: strides => i * stride + weightedSum index strides
  | _, _ => 0

/-- The sum of each index times its stride, for indices of either sign. -/
def signedSum : List Int → List Nat → Int
  | i :: index, stride :: strides => i * stride + signedSum index strides
  | _, _ => 0

theorem signedSum_natCast (index strides : List Nat) :
    signedSum (index.map fun i : Nat => (i : Int)) strides = weightedSum index strides := by
  induction index generalizing strides with
  | nil => rfl
  | cons i index ih =>
      cases strides with
      | nil => rfl
      | cons stride strides =>
          rw [List.map_cons, signedSum, ih, weightedSum]
          simp

namespace Layout

/-- Where the element with an index is. -/
def elementOffset (l : Layout) (index : List Nat) : Nat := l.start + weightedSum index l.strides

/-- The names of the layout have its numbers as values. -/
structure BoundIn (l : Layout) (handle : Text) (env : Text → Option Int) : Prop where
  start : env (startName handle) = some (l.start : Int)
  strides : IndexExpr.Denote env ((l.strideNames handle).map .var) l.strides

variable {l : Layout} {handle : Text} {env : Text → Option Int} {index : List Nat}

/-- The last axis is written without a stride only if the stride is one. -/
theorem stride_of_contiguous {contiguous : Bool} {axis stride : Nat}
    (hPath : l.accessPath contiguous = .contiguous) (hLast : axis + 1 = l.rank)
    (hStride : l.strides[axis]? = some stride) : stride = 1 := by
  unfold accessPath at hPath
  split at hPath
  · next h =>
    have hUnit := h.2.2
    unfold isUnitInner at hUnit
    have hIndex : l.strides.length - 1 = axis := by
      rw [l.length_strides]
      unfold rank at hLast
      omega
    rw [List.getLast?_eq_getElem?, hIndex, hStride] at hUnit
    simpa using hUnit
  · exact nomatch hPath

theorem value?_axisTerm {contiguous : Bool} {axis stride : Nat} {i : Int} {name : Text}
    (hStride : l.strides[axis]? = some stride)
    (hIndex : env (IndexExpr.axisName axis) = some i)
    (hName : env name = some (stride : Int)) :
    (l.axisTerm (l.accessPath contiguous) name axis).value? env = some (i * stride) := by
  unfold axisTerm
  dsimp only
  split
  · next h =>
    rw [stride_of_contiguous h.1 h.2 hStride, Int.natCast_one, Int.mul_one]
    exact hIndex
  · show ((env (IndexExpr.axisName axis)).bind fun x => (env name).map (x * ·)) = _
    rw [hIndex, hName]
    rfl

/-- The axes from some axis on contribute their part of the sum. -/
theorem totalValue?_axisTerms {contiguous : Bool} {names : List Text} {strides : List Nat}
    {index : List Int} {first : Nat} (hStrides : l.strides.drop first = strides)
    (hNames : IndexExpr.Denote env (names.map .var) strides)
    (hIndex : ∀ (k : Nat) (i : Int), index[k]? = some i →
      env (IndexExpr.axisName (first + k)) = some i)
    (hLength : index.length = strides.length) :
    IndexExpr.totalValue? env ((names.zipIdx first).map fun entry =>
      l.axisTerm (l.accessPath contiguous) entry.1 entry.2) =
        some (signedSum index strides) := by
  induction names generalizing strides index first with
  | nil =>
      have hNil : strides = [] := by simpa [IndexExpr.Denote] using hNames.symm
      subst hNil
      have hIndexNil : index = [] := List.length_eq_zero_iff.mp hLength
      subst hIndexNil
      rfl
  | cons name names ih =>
      cases strides with
      | nil => cases hNames
      | cons stride strides =>
          obtain ⟨i, index, rfl⟩ := List.exists_cons_of_length_eq_add_one hLength
          rw [List.map_cons, IndexExpr.denote_cons] at hNames
          have hStride : l.strides[first]? = some stride := by
            have hHead := congrArg List.head? hStrides
            rwa [List.head?_drop] at hHead
          have hRest : l.strides.drop (first + 1) = strides := by
            rw [← List.drop_drop, hStrides]
            rfl
          have hShift : ∀ (k : Nat) (j : Int), index[k]? = some j →
              env (IndexExpr.axisName (first + 1 + k)) = some j := by
            intro k j hk
            have hSum : first + 1 + k = first + (k + 1) := by omega
            rw [hSum]
            exact hIndex (k + 1) j hk
          have hTail := ih hRest hNames.2 hShift (Nat.succ.inj hLength)
          have hHead : (l.axisTerm (l.accessPath contiguous) name first).value? env =
              some (i * stride) :=
            value?_axisTerm hStride (hIndex 0 i rfl) hNames.1
          rw [List.zipIdx_cons, List.map_cons, signedSum, IndexExpr.totalValue?, hHead, hTail]
          rfl

/-- The offset in the body of an access helper, for any values of its parameters. -/
theorem value?_offset_signed (hBound : l.BoundIn handle env) {index : List Int}
    (hIndex : ∀ (k : Nat) (i : Int), index[k]? = some i → env (IndexExpr.axisName k) = some i)
    (hLength : index.length = l.rank) (contiguous : Bool) :
    (l.offset handle (l.accessPath contiguous)).value? env =
      some (l.start + signedSum index l.strides) := by
  have hAxis : ∀ (k : Nat) (i : Int), index[k]? = some i →
      env (IndexExpr.axisName (0 + k)) = some i := by
    intro k i hk
    rw [Nat.zero_add]
    exact hIndex k i hk
  have hTerms : IndexExpr.totalValue? env (((l.strideNames handle).zipIdx 0).map fun entry =>
      l.axisTerm (l.accessPath contiguous) entry.1 entry.2) = some (signedSum index l.strides) :=
    totalValue?_axisTerms rfl hBound.strides hAxis (hLength.trans l.length_strides.symm)
  have hStart : (IndexExpr.var (startName handle)).value? env = some (l.start : Int) :=
    hBound.start
  unfold offset
  rw [IndexExpr.value?_sum, IndexExpr.totalValue?, hStart, hTerms]
  rfl

/-- The offset of an element evaluates to where the element is. -/
theorem value?_offset (hBound : l.BoundIn handle env)
    (hIndex : IndexExpr.Denote env ((IndexExpr.axisNames l.rank).map .var) index)
    (contiguous : Bool) :
    (l.offset handle (l.accessPath contiguous)).value? env =
      some (l.elementOffset index : Int) := by
  have hLength : (index.map fun i : Nat => (i : Int)).length = l.rank := by
    have hEq := congrArg List.length hIndex
    simpa [IndexExpr.axisNames, rank] using hEq.symm
  have hAxis : ∀ (k : Nat) (i : Int), (index.map fun i : Nat => (i : Int))[k]? = some i →
      env (IndexExpr.axisName k) = some i := by
    intro k i hk
    have hLt : k < l.rank := hLength ▸ (List.getElem?_eq_some_iff.mp hk).1
    have hBoth := congrArg (fun values : List (Option Int) => values[k]?) hIndex
    rw [List.getElem?_map, Option.map_eq_some_iff] at hk
    obtain ⟨j, hj, rfl⟩ := hk
    simpa [IndexExpr.axisNames, hj, hLt, IndexExpr.value?] using hBoth
  rw [value?_offset_signed hBound hAxis hLength contiguous, signedSum_natCast, elementOffset]
  simp

/-! ## The form of an offset -/

theorem underscore_mem_startName (handle : Text) : '_' ∈ startName handle :=
  List.mem_append_right _ (by decide)

theorem underscore_mem_strideName {k : Nat} {name : Text}
    (h : (l.strideNames handle)[k]? = some name) : '_' ∈ name := by
  obtain ⟨rest, hRest⟩ := l.strideSuffix_eq_cons k
  rw [strideName_eq h, hRest]
  exact List.mem_append_right _ (.head _)

theorem isIdentifier_startName (hHandle : Text.isIdentifier handle = true) :
    Text.isIdentifier (startName handle) = true :=
  Text.isIdentifier_append hHandle (by decide)

theorem isIdentifier_strideName (hHandle : Text.isIdentifier handle = true) {k : Nat} {name : Text}
    (h : (l.strideNames handle)[k]? = some name) : Text.isIdentifier name = true := by
  have hShared : Text.isIdentifier (sharedStride handle) = true :=
    Text.isIdentifier_append hHandle (by decide)
  rcases strideName_cases h with ⟨-, rfl⟩ | ⟨-, rfl⟩
  · exact hShared
  · exact Text.isIdentifier_append hShared (Text.all_isWordChar_ofNat k)

/-- The name of a stride is a factor that no argument replaces. -/
theorem isTerm_strideName (hHandle : Text.isIdentifier handle = true) {k : Nat} {name : Text}
    (h : (l.strideNames handle)[k]? = some name) (rank : Nat) :
    IndexExpr.IsTerm (IndexExpr.axisNames rank) (.var name) := by
  have hName := IndexExpr.isName_of_isIdentifier (isIdentifier_strideName hHandle h)
  have hNot : name ∉ IndexExpr.axisNames rank :=
    IndexExpr.not_mem_axisNames (Text.isAxisLike_of_underscore (underscore_mem_strideName h)) rank
  refine ⟨IndexExpr.fillable_var hName, rfl, ?_⟩
  simpa [IndexExpr.isBare] using hNot

theorem isTerm_axisTerm (hHandle : Text.isIdentifier handle = true) {k : Nat} {name : Text}
    (h : (l.strideNames handle)[k]? = some name) (path : AccessPath) (axis rank : Nat) :
    IndexExpr.IsTerm (IndexExpr.axisNames rank) (l.axisTerm path name axis) := by
  have hIndex : IndexExpr.IsTerm (IndexExpr.axisNames rank)
      (.group (.var (IndexExpr.axisName axis))) := by
    refine IndexExpr.Fillable.group (IndexExpr.fillable_var ?_)
    exact IndexExpr.isName_of_isIdentifier (IndexExpr.isIdentifier_axisName axis)
  unfold axisTerm
  dsimp only
  split
  · exact hIndex
  · exact hIndex.factor (isTerm_strideName hHandle h rank) rfl .times

theorem fillable_offset (hHandle : Text.isIdentifier handle = true) (path : AccessPath)
    (rank : Nat) :
    IndexExpr.Fillable (IndexExpr.axisNames rank) (l.offset handle path) := by
  have hStart := IndexExpr.isName_of_isIdentifier (isIdentifier_startName hHandle)
  refine IndexExpr.fillable_foldl_add (IndexExpr.fillable_var hStart) ?_
  intro e he
  obtain ⟨⟨name, axis⟩, hEntry, rfl⟩ := List.mem_map.mp he
  have hName : (l.strideNames handle)[axis]? = some name := by
    simpa using List.mem_zipIdx_iff_getElem?.mp hEntry
  exact isTerm_axisTerm hHandle hName path axis rank

end Layout

end ArrayKernel
