import ArrayKernel.Proofs.Built
import ArrayKernel.Proofs.Identifier
import ArrayKernel.Symbol.Fragment
import ArrayKernel.Table.Argument

/-!
# The names that attributes give

The attributes of a symbol are a list in which the first entry of a name counts.  An array
has the attributes of its storage, a reduction those of its accumulators and of the helper
that combines, and every symbol has its own name.

So the look-ups of the arguments of a kernel and of the fragments of scalars and reductions
never fail, and their results can be written down.
-/

namespace ArrayKernel

/-! ## The attributes of a storage -/

namespace Storage

theorem strideKey_ne {j k : Nat} (h : j ≠ k) :
    (("stride" ++ Text.ofNat k : Text) == "stride" ++ Text.ofNat j) = false := by
  refine beq_false_of_ne fun hEq => h ?_
  exact (Text.ofNat_injective (List.append_cancel_left hEq)).symm

theorem lookup_strideAttribute_of_ne {name key : Text} (h : (name == key) = false)
    (stride : Option IndexExpr) : (strideAttribute key stride).lookup name = none := by
  cases stride with
  | none => rfl
  | some e =>
      simp only [strideAttribute, Option.map_some, Option.toList_some, List.lookup_cons, h]
      rfl

/-- The strides of the axes from some axis on, as attributes. -/
theorem lookup_axisAttributes (strides : List (Option IndexExpr)) (first k : Nat) :
    ((strides.zipIdx first).flatMap fun entry =>
      strideAttribute ("stride" ++ Text.ofNat entry.2) entry.1).lookup
        ("stride" ++ Text.ofNat k) =
      if first ≤ k then (strides.getD (k - first) none).map IndexExpr.text else none := by
  induction strides generalizing first with
  | nil => simp
  | cons stride strides ih =>
      rw [List.zipIdx_cons, List.flatMap_cons, List.lookup_append, ih]
      by_cases hk : first = k
      · subst hk
        have hNext : ¬ first + 1 ≤ first := by omega
        rw [if_neg hNext, if_pos (Nat.le_refl _), Nat.sub_self]
        cases stride with
        | none => rfl
        | some e => simp [strideAttribute]
      · rw [lookup_strideAttribute_of_ne (strideKey_ne hk), Option.none_or]
        by_cases hLe : first ≤ k
        · have hIndex : k - first = (k - (first + 1)) + 1 := by omega
          rw [if_pos hLe, if_pos (by omega), hIndex]
          rfl
        · rw [if_neg hLe, if_neg (by omega)]

/-- The attribute of an axis is the text of its stride, where there is one. -/
theorem get?_attributes_stride (s : Storage) (k : Nat) :
    s.attributes.get? ("stride" ++ Text.ofNat k) = (s.stride? k).map IndexExpr.text := by
  have hShared : (("stride" ++ Text.ofNat k : Text) == "stride") = false := by
    refine beq_false_of_ne fun hEq => Text.ofNat_ne_nil k ?_
    exact List.append_right_eq_self.mp hEq
  have hLookup : s.axisAttributes.lookup ("stride" ++ Text.ofNat k) =
      (s.stride? k).map IndexExpr.text := by
    unfold axisAttributes
    rw [lookup_axisAttributes, if_pos (Nat.zero_le k)]
    rfl
  -- the shared stride stands before those of the axes and the leading dimension behind them
  show List.lookup ("stride" ++ Text.ofNat k)
    (strideAttribute "stride" s.shared ++ s.axisAttributes ++ strideAttribute "ld" s.leading?) = _
  rw [List.lookup_append, List.lookup_append, lookup_strideAttribute_of_ne hShared,
    lookup_strideAttribute_of_ne rfl, hLookup]
  simp

theorem lookup_axisAttributes_of_ne {name : Text}
    (h : ∀ k, (name == "stride" ++ Text.ofNat k) = false) (s : Storage) :
    s.axisAttributes.lookup name = none := by
  have hFrom (strides : List (Option IndexExpr)) (first : Nat) :
      ((strides.zipIdx first).flatMap fun entry =>
        strideAttribute ("stride" ++ Text.ofNat entry.2) entry.1).lookup name = none := by
    induction strides generalizing first with
    | nil => rfl
    | cons stride strides ih =>
        rw [List.zipIdx_cons, List.flatMap_cons, List.lookup_append, ih,
          lookup_strideAttribute_of_ne (h first)]
        rfl
  exact hFrom s.strides 0

/-- The leading dimension is the stride between the rows. -/
theorem get?_attributes_ld (s : Storage) :
    s.attributes.get? "ld" = s.leading?.map IndexExpr.text := by
  have hAxes : s.axisAttributes.lookup ("ld" : Text) = none :=
    lookup_axisAttributes_of_ne (fun _ => rfl) s
  show List.lookup ("ld" : Text)
    (strideAttribute "stride" s.shared ++ s.axisAttributes ++ strideAttribute "ld" s.leading?) = _
  rw [List.lookup_append, List.lookup_append, lookup_strideAttribute_of_ne rfl, hAxes]
  cases s.leading? with
  | none => rfl
  | some e => simp [strideAttribute]

end Storage

namespace Symbol

variable {s : Symbol} {shape : Shape} {storage : Storage} {name value : Text}

theorem attr_eq_ok_iff : s.attr name = .ok value ↔ s.attributes.get? name = some value := by
  unfold attr
  split
  · next found hFound => simp [hFound]
  · next hNone => simp [hNone]

theorem lookup_accessAttribute_of_ne {name : Text} (h : (name == "access") = false)
    (access : Option AccessPath) : (accessAttribute access).lookup name = none := by
  cases access with
  | none => rfl
  | some path =>
      show List.lookup name [("access".toList, path.name)] = none
      rw [List.lookup_cons, h]
      rfl

/-- The attributes of an array are those of its storage, a few apart. -/
theorem get?_attributes_of_array? (hArray : s.array? = some (shape, storage))
    (hName : ∀ key ∈ (["handle", "name", "scalartype", "dim", "access"] : List Text),
      (name == key) = false) :
    s.attributes.get? name = storage.attributes.get? name := by
  have hHead : s.attributes.get? name = s.kindAttributes.get? name := by
    unfold attributes Attributes.get?
    rw [List.lookup_cons, hName "handle" (by decide), List.lookup_cons,
      hName "name" (by decide), List.lookup_cons, hName "scalartype" (by decide)]
  rw [hHead]
  unfold array? at hArray
  unfold kindAttributes
  cases hKind : s.kind with
  | buffer layout written access =>
      rw [hKind] at hArray
      cases hArray
      dsimp only
      unfold Attributes.get?
      rw [List.lookup_cons, hName "dim" (by decide), List.lookup_append,
        lookup_accessAttribute_of_ne (hName "access" (by decide)), Option.none_or]
  | view links v viewShape viewStorage =>
      rw [hKind] at hArray
      cases hArray
      rfl
  | hostScalar | placeholder | binary | unary | reduction | loop =>
      rw [hKind] at hArray
      exact nomatch hArray

theorem get?_attributes_stride (hArray : s.array? = some (shape, storage)) (k : Nat) :
    s.attributes.get? ("stride" ++ Text.ofNat k) = (storage.stride? k).map IndexExpr.text := by
  rw [get?_attributes_of_array? hArray, Storage.get?_attributes_stride]
  intro key hKey
  simp only [List.mem_cons, List.not_mem_nil, or_false] at hKey
  rcases hKey with rfl | rfl | rfl | rfl | rfl <;> rfl

theorem attr_pointer_of_array? (hArray : s.array? = some (shape, storage)) :
    s.attr "pointer" = .ok storage.pointer := by
  rw [attr_eq_ok_iff, get?_attributes_of_array? hArray (by decide)]
  rfl

theorem get?_attributes_start (hArray : s.array? = some (shape, storage)) :
    s.attributes.get? "start" = some storage.start := by
  rw [get?_attributes_of_array? hArray (by decide)]
  rfl

/-! ## The attributes by the kind of the symbol -/

section Buffer

variable {layout : Layout} {written : Bool} {access : Option AccessPath}

theorem array?_of_buffer (h : s.kind = .buffer layout written access) :
    s.array? = some (layout.shape, layout.storage s.handle) := by
  unfold array?
  rw [h]
  rfl

theorem attr_pointer (h : s.kind = .buffer layout written access) :
    s.attr "pointer" = .ok s.handle := attr_pointer_of_array? (array?_of_buffer h)

theorem attr_start (h : s.kind = .buffer layout written access) :
    s.attr "start" = .ok (Layout.startName s.handle) :=
  attr_eq_ok_iff.mpr (get?_attributes_start (array?_of_buffer h))

theorem attr_stride (h : s.kind = .buffer layout written access) {k : Nat}
    (hName : (layout.strideNames s.handle)[k]? = some name) :
    s.attr ("stride" ++ Text.ofNat k) = .ok name := by
  rw [attr_eq_ok_iff, get?_attributes_stride (array?_of_buffer h)]
  unfold Storage.stride? Layout.storage
  simp [hName, IndexExpr.text]

end Buffer

/-- A symbol that is no array has its handle as its name. -/
theorem attr_name (h : s.shape? = none) : s.attr "name" = .ok s.handle := by
  have hArray : s.array? = none := by
    unfold shape? at h
    unfold array?
    cases hKind : s.kind with
    | buffer | view =>
        rw [hKind] at h
        exact nomatch h
    | hostScalar | placeholder | binary | unary | reduction | loop => rfl
  have hName : s.attr "name" = .ok s.storageName := rfl
  rw [hName, storageName, hArray]

theorem attr_name_of_hostScalar (h : s.kind = .hostScalar) : s.attr "name" = .ok s.handle := by
  refine attr_name ?_
  unfold shape?
  rw [h]
  rfl

section Reduction

variable {links : Links} {op : ReduceOp} {scopes : Nat}

theorem attr_acc (h : s.kind = .reduction links op scopes) :
    s.attr "acc" = .ok (accumulator s.handle 1) := by
  unfold attr attributes kindAttributes
  rw [h]
  rfl

/-- Only a reduction over two axes has an inner accumulator. -/
theorem attr_acc_inner (h : s.kind = .reduction links op scopes)
    (hName : s.attr "acc_inner" = .ok name) : name = accumulator s.handle 2 := by
  unfold attr attributes kindAttributes at hName
  rw [h] at hName
  by_cases hScopes : scopes = 2
  · simp only [hScopes, if_true] at hName
    cases hName
    rfl
  · simp only [if_neg hScopes] at hName
    exact nomatch hName

theorem attr_combine (h : s.kind = .reduction links op scopes) :
    s.attr "combine" = .ok (op.helperName s.dtype) := by
  unfold attr attributes kindAttributes
  rw [h]
  rfl

/-- The accumulator that a reduction over a number of axes updates. -/
def target (s : Symbol) (scopes : Nat) : Text :=
  accumulator s.handle (if scopes = 2 then 2 else 1)

theorem attr_target (h : s.kind = .reduction links op scopes) :
    s.attr (if s.hasAttr "acc_inner" then "acc_inner" else "acc") = .ok (s.target scopes) := by
  unfold attr hasAttr attributes kindAttributes target
  rw [h]
  by_cases hScopes : scopes = 2
  · simp only [hScopes, if_true]
    rfl
  · simp only [if_neg hScopes]
    rfl

end Reduction

end Symbol

/-! ## The arguments of a kernel -/

theorem mapM_eq_ok {ε α β : Type} {f : α → Except ε β} {g : α → β} {l : List α}
    (h : ∀ a ∈ l, f a = .ok (g a)) : l.mapM f = .ok (l.map g) := by
  induction l with
  | nil => rfl
  | cons a l ih =>
      rw [List.mapM_cons, h a (.head _), ih fun b hb => h b (.tail _ hb)]
      rfl

/-- The names of the strides are those that the attributes give. -/
theorem Symbol.mapM_strideArgument {s : Symbol} {layout : Layout} {written : Bool}
    {access : Option AccessPath} (h : s.kind = .buffer layout written access) :
    (layout.strides.zipIdx.mapM fun entry => s.strideArgument entry.1 entry.2) =
      .ok (List.zipWith (.ofLayout 0) (layout.strideNames s.handle) layout.strides) := by
  have hLength : (layout.strideNames s.handle).length = layout.strides.length := by
    rw [Layout.length_strideNames, layout.length_strides]
    rfl
  have hName {axis : Nat} (hAxis : axis < layout.strides.length) :
      (layout.strideNames s.handle)[axis]? =
        some ((layout.strideNames s.handle).getD axis []) := by
    rw [← hLength] at hAxis
    rw [List.getD_eq_getElem?_getD, List.getElem?_eq_getElem hAxis]
    rfl
  have hEach : ∀ entry ∈ layout.strides.zipIdx, s.strideArgument entry.1 entry.2 =
      .ok (.ofLayout 0 ((layout.strideNames s.handle).getD entry.2 []) entry.1) := by
    intro entry hEntry
    obtain ⟨-, hAxis, -⟩ := List.mem_zipIdx hEntry
    unfold strideArgument
    rw [attr_stride h (hName (by omega))]
    rfl
  rw [mapM_eq_ok hEach]
  -- axis by axis: there are as many names as strides
  refine congrArg Except.ok (List.ext_getElem (by simp [hLength]) fun k hk hk' => ?_)
  simp only [List.length_zipWith, hLength, Nat.min_self] at hk'
  have hGet := hName hk'
  rw [List.getElem?_eq_getElem (by omega)] at hGet
  simp only [List.getElem_map, List.getElem_zipIdx, List.getElem_zipWith, Nat.zero_add]
  rw [← Option.some.inj hGet]

theorem Symbol.collectArguments_eq (s : Symbol) : s.collectArguments = .ok s.arguments := by
  unfold collectArguments arguments
  cases hKind : s.kind with
  | buffer layout written access =>
      dsimp only
      rw [attr_pointer hKind, attr_start hKind, mapM_strideArgument hKind]
      rfl
  | hostScalar =>
      dsimp only
      rw [attr_name_of_hostScalar hKind]
      rfl
  | placeholder | binary | unary | reduction | view | loop => rfl

/-- Looking the names up gives the arguments of the kernel, without an error. -/
theorem Table.collectArguments_eq (t : Table) : t.collectArguments = .ok t.kernelArguments := by
  unfold collectArguments kernelArguments
  rw [mapM_eq_ok fun e _ => e.2.collectArguments_eq, ok_bind, List.flatMap_def]
  rfl

end ArrayKernel
