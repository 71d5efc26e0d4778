import ArrayKernel.Proofs.Reshape
import ArrayKernel.Symbol.Fragment

/-!
# Broadcasting

A shape fits a loop domain when, with the last axes aligned, each of its extents is
one or the extent of the domain.  `project` is the index of such an array at an index
of the domain: the components of the aligned axes, zero along the axes of extent one.
Fitting is transitive and projections compose, so it makes no difference whether an
array is broadcast at once or through the shapes in between.

The shape of an elementwise operation has room for both operands only where no extent
is zero: an axis of extent zero meets one of extent one in an axis of extent one.
-/

namespace ArrayKernel
namespace Shape

/-- Every extent is one or the extent of the axis at its side. -/
def FitsAxes : Shape → Shape → Prop
  | [], [] => True
  | extent :: extents, target :: targets =>
    (extent = 1 ∨ extent = target) ∧ FitsAxes extents targets
  | _, _ => False

/-- The shape fits the last axes of a loop domain. -/
def Fits (s domain : Shape) : Prop :=
  s.length ≤ domain.length ∧ FitsAxes s (domain.drop (domain.length - s.length))

/-- The components of an index, zero along the axes of extent one. -/
def projectAxes : Shape → List Nat → List Nat
  | extent :: extents, i :: index => (if extent = 1 then 0 else i) :: projectAxes extents index
  | _, _ => []

/-- The index of an array at an index of a loop domain. -/
def project (s : Shape) (index : List Nat) : List Nat :=
  projectAxes s (index.drop (index.length - s.length))

variable {s t u : Shape} {index : List Nat}

/-! ## Fitting -/

theorem FitsAxes.length_eq (h : FitsAxes s t) : s.length = t.length := by
  fun_induction FitsAxes s t with
  | case1 => rfl
  | case2 extent extents target targets ih => exact congrArg (· + 1) (ih h.2)
  | case3 => exact h.elim

theorem FitsAxes.refl (s : Shape) : FitsAxes s s := by
  induction s with
  | nil => trivial
  | cons extent extents ih => exact ⟨.inr rfl, ih⟩

theorem FitsAxes.trans (hst : FitsAxes s t) (htu : FitsAxes t u) : FitsAxes s u := by
  induction s generalizing t u with
  | nil =>
      have ht : t = [] := List.length_eq_zero_iff.mp hst.length_eq.symm
      rw [ht] at htu
      exact htu
  | cons extent extents ih =>
      match t, u with
      | [], _ => exact hst.elim
      | _ :: _, [] => exact htu.elim
      | middle :: middles, target :: targets =>
          obtain ⟨hHead, hTail⟩ := hst
          obtain ⟨hHead', hTail'⟩ := htu
          refine ⟨?_, ih hTail hTail'⟩
          omega

theorem FitsAxes.drop (h : FitsAxes s t) (n : Nat) : FitsAxes (s.drop n) (t.drop n) := by
  induction n generalizing s t with
  | zero => exact h
  | succ n ih =>
      match s, t with
      | [], [] => exact h
      | [], _ :: _ => exact h.elim
      | _ :: _, [] => exact h.elim
      | _ :: _, _ :: _ => exact ih h.2

theorem Fits.refl (s : Shape) : Fits s s := by
  refine ⟨Nat.le_refl _, ?_⟩
  rw [Nat.sub_self]
  exact FitsAxes.refl s

theorem Fits.trans (hst : Fits s t) (htu : Fits t u) : Fits s u := by
  obtain ⟨hLe, hAxes⟩ := hst
  obtain ⟨hLe', hAxes'⟩ := htu
  refine ⟨Nat.le_trans hLe hLe', ?_⟩
  have hLast := hAxes.trans (hAxes'.drop (t.length - s.length))
  rw [List.drop_drop] at hLast
  have hOffset : u.length - t.length + (t.length - s.length) = u.length - s.length := by omega
  rwa [hOffset] at hLast

/-! ## Projecting -/

theorem projectAxes_eq_self (h : InBounds s index) : projectAxes s index = index := by
  induction s generalizing index with
  | nil =>
      cases index with
      | nil => rfl
      | cons i index => exact h.elim
  | cons extent extents ih =>
      cases index with
      | nil => exact h.elim
      | cons i index =>
          obtain ⟨hi, hIndex⟩ := h
          rw [projectAxes, ih hIndex]
          by_cases hOne : extent = 1
          · have hZero : i = 0 := by omega
            rw [if_pos hOne, hZero]
          · rw [if_neg hOne]

/-- An index of the array itself stays as it is. -/
theorem project_eq_self (h : InBounds s index) : project s index = index := by
  unfold project
  rw [h.length_eq, Nat.sub_self]
  exact projectAxes_eq_self h

theorem projectAxes_projectAxes (h : FitsAxes s t) :
    projectAxes s (projectAxes t index) = projectAxes s index := by
  induction s generalizing t index with
  | nil => rfl
  | cons extent extents ih =>
      match t, index with
      | [], _ => exact h.elim
      | _ :: _, [] => rfl
      | target :: targets, i :: index =>
          obtain ⟨hHead, hTail⟩ := h
          rw [projectAxes, projectAxes, projectAxes, ih hTail]
          by_cases hOne : extent = 1
          · rw [if_pos hOne, if_pos hOne]
          · -- an axis that is not pinned has the extent of its target
            have hTarget : target ≠ 1 := by omega
            rw [if_neg hOne, if_neg hTarget, if_neg hOne]

theorem drop_projectAxes (n : Nat) :
    (projectAxes t index).drop n = projectAxes (t.drop n) (index.drop n) := by
  induction n generalizing t index with
  | zero => rfl
  | succ n ih =>
      match t, index with
      | [], _ => rfl
      | _ :: _, [] =>
          rw [List.drop_nil]
          cases List.drop (n + 1) (_ :: _) <;> rfl
      | _ :: targets, _ :: index => exact ih

theorem length_projectAxes (h : index.length = t.length) :
    (projectAxes t index).length = t.length := by
  induction t generalizing index with
  | nil => rfl
  | cons target targets ih =>
      cases index with
      | nil => exact nomatch h
      | cons i index => exact congrArg (· + 1) (ih (Nat.succ.inj h))

/-- Projecting through a shape in between gives the same index. -/
theorem project_project (h : Fits s t) (ht : t.length ≤ index.length) :
    project s (project t index) = project s index := by
  obtain ⟨hLe, hAxes⟩ := h
  have hLength : (project t index).length = t.length := by
    refine length_projectAxes ?_
    rw [List.length_drop]
    omega
  have hOffset : index.length - t.length + (t.length - s.length) = index.length - s.length := by
    omega
  unfold project at hLength ⊢
  rw [hLength, drop_projectAxes, List.drop_drop, hOffset]
  exact projectAxes_projectAxes hAxes

theorem projectAxes_inBounds (h : FitsAxes s t) (hIn : InBounds t index) :
    InBounds s (projectAxes s index) := by
  induction s generalizing t index with
  | nil => trivial
  | cons extent extents ih =>
      match t, index with
      | [], _ => exact h.elim
      | _ :: _, [] => exact hIn.elim
      | target :: targets, i :: index =>
          obtain ⟨hHead, hTail⟩ := h
          obtain ⟨hi, hIndex⟩ := hIn
          refine ⟨?_, ih hTail hIndex⟩
          split <;> omega

theorem InBounds.drop (h : InBounds t index) (n : Nat) : InBounds (t.drop n) (index.drop n) := by
  induction n generalizing t index with
  | zero => exact h
  | succ n ih =>
      match t, index with
      | [], [] => exact h
      | [], _ :: _ => exact h.elim
      | _ :: _, [] => exact h.elim
      | _ :: _, _ :: _ => exact ih h.2

theorem project_inBounds (h : Fits s t) (hIn : InBounds t index) :
    InBounds s (project s index) := by
  unfold project
  rw [hIn.length_eq]
  exact projectAxes_inBounds h.2 (hIn.drop _)

/-! ## The indices of an array in a loop domain -/

/-- The names of the loop domain have the components of an index as values. -/
def BindsDomain (env : Text → Option Int) (index : List Nat) : Prop :=
  ∀ (k i : Nat), index[k]? = some i → env ('$' :: Text.ofNat k) = some (i : Int)

theorem isReadable_domainIndex (axis : Nat) : (IndexExpr.domainIndex axis).isReadable = true := by
  show IndexExpr.isName ('$' :: Text.ofNat axis) = true
  simp [IndexExpr.isName, Text.all_isDigit_ofNat]

/-- An array has one index for each axis, which can be read back. -/
theorem isReadable_of_domainIndices? {axis : Nat} {indices : List IndexExpr}
    (h : domainIndices? axis s t = some indices) :
    indices.length = s.length ∧ ∀ e ∈ indices, e.isReadable = true := by
  induction s generalizing t axis indices with
  | nil =>
      cases h
      exact ⟨rfl, fun _ he => absurd he List.not_mem_nil⟩
  | cons extent extents ih =>
      cases t with
      | nil => exact nomatch h
      | cons target targets =>
          have hCons {e : IndexExpr} {rest : List IndexExpr} (he : e.isReadable = true)
              (hRest : domainIndices? (axis + 1) extents targets = some rest) :
              (e :: rest).length = (extent :: extents).length ∧
                ∀ d ∈ e :: rest, d.isReadable = true := by
            obtain ⟨hLength, hReadable⟩ := ih hRest
            exact ⟨congrArg (· + 1) hLength, List.forall_mem_cons.mpr ⟨he, hReadable⟩⟩
          rw [domainIndices?] at h
          split at h
          · obtain ⟨rest, hRest, rfl⟩ := Option.map_eq_some_iff.mp h
            exact hCons rfl hRest
          · split at h
            · obtain ⟨rest, hRest, rfl⟩ := Option.map_eq_some_iff.mp h
              exact hCons (isReadable_domainIndex axis) hRest
            · exact nomatch h

theorem exists_domainIndices? (h : FitsAxes s t) (axis : Nat) :
    ∃ indices, domainIndices? axis s t = some indices := by
  induction s generalizing t axis with
  | nil => exact ⟨[], by cases t <;> rfl⟩
  | cons extent extents ih =>
      cases t with
      | nil => exact h.elim
      | cons target targets =>
          obtain ⟨hHead, hTail⟩ := h
          obtain ⟨rest, hRest⟩ := ih hTail (axis + 1)
          rw [domainIndices?, hRest]
          by_cases hOne : extent = 1
          · rw [if_pos hOne]
            exact ⟨_, rfl⟩
          · rw [if_neg hOne, if_pos (hHead.resolve_left hOne)]
            exact ⟨_, rfl⟩

theorem denote_domainIndices? {env : Text → Option Int} {axis : Nat} {indices : List IndexExpr}
    (h : domainIndices? axis s t = some indices) (hLength : index.length = t.length)
    (hEnv : ∀ (k i : Nat), index[k]? = some i →
      env ('$' :: Text.ofNat (axis + k)) = some (i : Int)) :
    IndexExpr.Denote env indices (projectAxes s index) := by
  induction s generalizing t index axis indices with
  | nil =>
      cases h
      rfl
  | cons extent extents ih =>
      match t, index with
      | [], _ => exact nomatch h
      | _ :: _, [] => exact nomatch hLength
      | target :: targets, i :: index =>
          have hRestEnv : ∀ (k j : Nat), index[k]? = some j →
              env ('$' :: Text.ofNat (axis + 1 + k)) = some (j : Int) := by
            intro k j hk
            have hShift : axis + 1 + k = axis + (k + 1) := by omega
            rw [hShift]
            exact hEnv (k + 1) j hk
          rw [domainIndices?] at h
          rw [projectAxes]
          split at h
          · next hOne =>
            obtain ⟨rest, hRest, rfl⟩ := Option.map_eq_some_iff.mp h
            rw [if_pos hOne, IndexExpr.denote_cons]
            exact ⟨rfl, ih hRest (Nat.succ.inj hLength) hRestEnv⟩
          · next hOne =>
            split at h
            · obtain ⟨rest, hRest, rfl⟩ := Option.map_eq_some_iff.mp h
              rw [if_neg hOne, IndexExpr.denote_cons]
              exact ⟨hEnv 0 i rfl, ih hRest (Nat.succ.inj hLength) hRestEnv⟩
            · exact nomatch h

theorem isReadable_of_broadcastIndices? {indices : List IndexExpr}
    (h : broadcastIndices? s t = some indices) :
    indices.length = s.length ∧ ∀ e ∈ indices, e.isReadable = true := by
  unfold broadcastIndices? at h
  split at h
  · exact isReadable_of_domainIndices? h
  · exact nomatch h

/-- An array whose shape fits the loop domain can be addressed in it. -/
theorem exists_broadcastIndices? (h : Fits s t) :
    ∃ indices, broadcastIndices? s t = some indices := by
  unfold broadcastIndices?
  rw [if_pos h.1]
  exact exists_domainIndices? h.2 _

/-- The indices of an array denote the projection of the index of the loop domain. -/
theorem denote_broadcastIndices? {env : Text → Option Int} {indices : List IndexExpr}
    (h : broadcastIndices? s t = some indices) (hIn : InBounds t index)
    (hEnv : BindsDomain env index) : IndexExpr.Denote env indices (project s index) := by
  unfold broadcastIndices? at h
  split at h
  · have hLength : (index.drop (t.length - s.length)).length =
        (t.drop (t.length - s.length)).length := by
      rw [List.length_drop, List.length_drop, hIn.length_eq]
    unfold project
    rw [hIn.length_eq]
    refine denote_domainIndices? h hLength ?_
    intro k i hk
    rw [List.getElem?_drop] at hk
    exact hEnv _ i hk
  · exact nomatch h

/-! ## The shape of an elementwise operation -/

/-- In aligned shapes, an axis without elements stands beside one of extent one. -/
def EmptyBesideUnit (s t : Shape) : Prop := ∃ pair ∈ s.zip t, pair = (0, 1) ∨ pair = (1, 0)

/-- With the last axes aligned, an axis without elements stands beside one of extent one, or
beside none. -/
def EmptyMeetsUnit (s t : Shape) : Prop :=
  EmptyBesideUnit (padTo (max s.length t.length) s) (padTo (max s.length t.length) t)

instance (s t : Shape) : Decidable (EmptyBesideUnit s t) :=
  inferInstanceAs (Decidable (∃ pair ∈ s.zip t, pair = (0, 1) ∨ pair = (1, 0)))

instance (s t : Shape) : Decidable (EmptyMeetsUnit s t) :=
  inferInstanceAs (Decidable (EmptyBesideUnit _ _))

theorem emptyBesideUnit_cons {l r : Nat} :
    EmptyBesideUnit (l :: s) (r :: t) ↔
      (l = 0 ∧ r = 1 ∨ l = 1 ∧ r = 0) ∨ EmptyBesideUnit s t := by
  simp [EmptyBesideUnit]

theorem joinExtents?_cons {l r : Nat} (h : joinExtents? (l :: s) (r :: t) = some u) :
    ∃ extents, u = max l r :: extents ∧ (l = r ∨ l = 1 ∨ r = 1) ∧
      joinExtents? s t = some extents := by
  rw [joinExtents?] at h
  obtain ⟨extent, hExtent, hRest⟩ := Option.bind_eq_some_iff.mp h
  obtain ⟨extents, hExtents, hEq⟩ := Option.bind_eq_some_iff.mp hRest
  cases hEq
  unfold joinExtent? at hExtent
  split at hExtent
  · next hAgree =>
    cases hExtent
    exact ⟨extents, rfl, hAgree, hExtents⟩
  · exact nomatch hExtent

/-- The join of two shapes has room for both, unless zero stands beside one: their join is
the larger extent, which zero does not fit. -/
theorem fitsAxes_joinExtents?_iff (hLength : s.length = t.length)
    (h : joinExtents? s t = some u) :
    FitsAxes s u ∧ FitsAxes t u ↔ ¬ EmptyBesideUnit s t := by
  induction s generalizing t u with
  | nil =>
      have htNil : t = [] := List.length_eq_zero_iff.mp hLength.symm
      rw [htNil] at h ⊢
      cases h
      simp [FitsAxes, EmptyBesideUnit]
  | cons l ls ih =>
      match t with
      | [] => exact nomatch hLength
      | r :: rs =>
          obtain ⟨extents, rfl, hAgree, hExtents⟩ := joinExtents?_cons h
          have hRest := ih (Nat.succ.inj hLength) hExtents
          have hAxis : (l = 1 ∨ l = max l r) ∧ (r = 1 ∨ r = max l r) ↔
              ¬ (l = 0 ∧ r = 1 ∨ l = 1 ∧ r = 0) := by
            omega
          rw [emptyBesideUnit_cons, not_or, ← hRest, ← hAxis]
          simp only [FitsAxes]
          exact and_and_and_comm

theorem length_joinExtents? (hLength : s.length = t.length) (h : joinExtents? s t = some u) :
    u.length = s.length := by
  induction s generalizing t u with
  | nil =>
      cases h
      rfl
  | cons l ls ih =>
      match t with
      | [] => exact nomatch hLength
      | r :: rs =>
          obtain ⟨extents, rfl, -, hExtents⟩ := joinExtents?_cons h
          exact congrArg (· + 1) (ih (Nat.succ.inj hLength) hExtents)

theorem FitsAxes.fits_of_padTo {rank : Nat} (h : FitsAxes (padTo rank s) t) : Fits s t := by
  have hLength := h.length_eq
  rw [length_padTo] at hLength
  refine ⟨by omega, ?_⟩
  have hDrop := h.drop (rank - s.length)
  unfold padTo at hDrop
  rw [List.drop_left' List.length_replicate] at hDrop
  have hOffset : rank - s.length = t.length - s.length := by omega
  rwa [hOffset] at hDrop

theorem fitsAxes_replicate_append {k : Nat} (hk : k ≤ t.length) (h : FitsAxes s (t.drop k)) :
    FitsAxes (List.replicate k 1 ++ s) t := by
  induction k generalizing t with
  | zero => exact h
  | succ k ih =>
      match t with
      | [] => exact nomatch hk
      | target :: targets => exact ⟨.inl rfl, ih (Nat.le_of_succ_le_succ hk) h⟩

/-- Axes of extent one in front make no difference to whether a shape fits. -/
theorem fits_iff_fitsAxes_padTo : Fits s t ↔ FitsAxes (padTo t.length s) t :=
  ⟨fun h => fitsAxes_replicate_append (Nat.sub_le _ _) h.2, FitsAxes.fits_of_padTo⟩

/-- Both operands of an elementwise operation fit its shape, unless an axis without elements
meets one of extent one. -/
theorem fits_iff_of_broadcast? (h : broadcast? s t = some u) :
    Fits s u ∧ Fits t u ↔ ¬ EmptyMeetsUnit s t := by
  have hLength : (padTo (max s.length t.length) s).length =
      (padTo (max s.length t.length) t).length := by
    rw [length_padTo, length_padTo]
    omega
  have hRank : u.length = max s.length t.length := by
    rw [length_joinExtents? hLength h, length_padTo]
    omega
  rw [fits_iff_fitsAxes_padTo, fits_iff_fitsAxes_padTo, hRank]
  exact fitsAxes_joinExtents?_iff hLength h

theorem zero_not_mem_padTo (hs : 0 ∉ s) (rank : Nat) : 0 ∉ padTo rank s := by
  simp [padTo, hs]

theorem not_emptyMeetsUnit (hs : 0 ∉ s) (ht : 0 ∉ t) : ¬ EmptyMeetsUnit s t := by
  rintro ⟨pair, hMem, rfl | rfl⟩
  · exact zero_not_mem_padTo hs _ (List.of_mem_zip hMem).1
  · exact zero_not_mem_padTo ht _ (List.of_mem_zip hMem).2

/-- Both operands of an elementwise operation without axes of extent zero fit its shape. -/
theorem fits_of_broadcast? (h : broadcast? s t = some u) (hs : 0 ∉ s) (ht : 0 ∉ t) :
    Fits s u ∧ Fits t u :=
  (fits_iff_of_broadcast? h).mpr (not_emptyMeetsUnit hs ht)

end Shape
end ArrayKernel
