import ArrayKernel.Proofs.Addressing

/-!
# The bodies of access helpers

The access helper of an array refers to storage by itself, or calls the access helper
of the array under it, which has a smaller number, with one index for each of its
axes.  Apart from that helper, its body names its own parameters and arguments of the
kernel and nothing else.

This holds of every built tree, also where an array has no elements and its helper is
never called with an index in bounds.
-/

namespace ArrayKernel

namespace IndexExpr

/-- Every name in the expression satisfies the predicate. -/
def NamesIn (P : Text → Prop) : IndexExpr → Prop
  | const _ => True
  | var name => P name
  | group e => e.NamesIn P
  | add a b | mul a b | div a b | mod a b => a.NamesIn P ∧ b.NamesIn P

variable {P Q : Text → Prop} {e : IndexExpr} {es : List IndexExpr}

theorem NamesIn.mono (h : e.NamesIn P) (hPQ : ∀ name, P name → Q name) : e.NamesIn Q := by
  induction e with
  | const n => trivial
  | var name => exact hPQ name h
  | group e ih => exact ih h
  | add a b iha ihb => exact ⟨iha h.1, ihb h.2⟩
  | mul a b iha ihb => exact ⟨iha h.1, ihb h.2⟩
  | div a b iha ihb => exact ⟨iha h.1, ihb h.2⟩
  | mod a b iha ihb => exact ⟨iha h.1, ihb h.2⟩

theorem namesIn_foldl_add (he : e.NamesIn P) (hes : ∀ d ∈ es, d.NamesIn P) :
    (es.foldl add e).NamesIn P := by
  induction es generalizing e with
  | nil => exact he
  | cons d es ih => exact ih ⟨he, hes d (.head _)⟩ fun c hc => hes c (.tail _ hc)

theorem namesIn_sum (h : ∀ e ∈ es, e.NamesIn P) : (sum es).NamesIn P := by
  cases es with
  | nil => trivial
  | cons e es => exact namesIn_foldl_add (h e (.head _)) fun d hd => h d (.tail _ hd)

theorem namesIn_grouped (h : e.NamesIn P) : e.grouped.NamesIn P := by
  cases e <;> exact h

/-! ## Names of reshaped indices -/

theorem namesIn_flattenTerms? {names : List Text} {shape : Shape}
    (hNames : ∀ name ∈ names, P name) (h : flattenTerms? names shape = some es) :
    ∀ e ∈ es, e.NamesIn P := by
  fun_induction flattenTerms? names shape generalizing es with
  | case1 name names extents ih => exact ih (fun n hn => hNames n (.tail _ hn)) h
  | case2 name names extent extents hExtent ih =>
      obtain ⟨factor, -, hRest⟩ := Option.bind_eq_some_iff.mp h
      obtain ⟨terms, hTerms, hEq⟩ := Option.bind_eq_some_iff.mp hRest
      cases hEq
      have hName : P name := hNames name (.head _)
      intro e he
      rcases List.mem_cons.mp he with rfl | he
      · split
        · exact hName
        · exact ⟨hName, trivial⟩
      · exact ih (fun n hn => hNames n (.tail _ hn)) hTerms e he
  | case3 =>
      cases h
      exact fun _ he => absurd he List.not_mem_nil

theorem namesIn_flatten? {names : List Text} {shape : Shape} (hNames : ∀ name ∈ names, P name)
    (h : flatten? names shape = some e) : e.NamesIn P := by
  unfold flatten? at h
  split at h
  · cases h
    trivial
  · obtain ⟨terms, hTerms, rfl⟩ := Option.map_eq_some_iff.mp h
    exact namesIn_sum (namesIn_flattenTerms? hNames hTerms)

theorem namesIn_axisIndex (h : e.NamesIn P) (isFirst : Bool) (extent divisor : Nat) :
    (axisIndex e isFirst extent divisor).NamesIn P := by
  unfold axisIndex
  split
  · trivial
  · split
    · split
      · exact h
      · exact ⟨h, trivial⟩
    · split
      · exact ⟨h, trivial⟩
      · exact ⟨⟨h, trivial⟩, trivial⟩

theorem namesIn_unflattenAxes? {isFirst : Bool} {shape : Shape} (hPlace : e.NamesIn P)
    (h : unflattenAxes? e isFirst shape = some es) : ∀ d ∈ es, d.NamesIn P := by
  induction shape generalizing isFirst es with
  | nil =>
      cases h
      exact fun _ hd => absurd hd List.not_mem_nil
  | cons extent extents ih =>
      obtain ⟨divisor, -, hRest⟩ := Option.bind_eq_some_iff.mp h
      obtain ⟨indices, hIndices, hEq⟩ := Option.bind_eq_some_iff.mp hRest
      cases hEq
      intro d hd
      rcases List.mem_cons.mp hd with rfl | hd
      · exact namesIn_axisIndex hPlace isFirst extent divisor
      · exact ih hIndices d hd

theorem namesIn_unflatten? {shape : Shape} (hPlace : e.NamesIn P)
    (h : unflatten? e shape = some es) : ∀ d ∈ es, d.NamesIn P := by
  unfold unflatten? at h
  split at h
  · cases h
    intro d hd
    rw [List.eq_of_mem_replicate hd]
    trivial
  · exact namesIn_unflattenAxes? (namesIn_grouped hPlace) h

end IndexExpr

theorem View.rank_pos_of_diagonal {v : View} {shape source : Shape}
    (hRelates : v.Relates shape source) (hView : v = .diagonal) : 0 < shape.length := by
  subst hView
  obtain ⟨rows, columns, -, rfl⟩ := hRelates
  exact Nat.zero_lt_one

/-- The indices that a view passes on name its own axes only. -/
theorem View.namesIn_of_through {v : View} {helper callee : Text} {storage : Storage}
    {shape source : Shape} {indices : List IndexExpr}
    (h : v.elementRef? helper storage shape source = some (.through callee indices))
    (hShape : v = .diagonal → 0 < shape.length) :
    ∀ e ∈ indices, e.NamesIn (· ∈ IndexExpr.axisNames shape.length) := by
  cases v with
  | reshape =>
      obtain ⟨place, hPlace, hRest⟩ := Option.bind_eq_some_iff.mp h
      obtain ⟨found, hFound, hEq⟩ := Option.bind_eq_some_iff.mp hRest
      cases hEq
      exact IndexExpr.namesIn_unflatten? (IndexExpr.namesIn_flatten? (fun _ hn => hn) hPlace) hFound
  | transpose =>
      cases h
      intro e he
      obtain ⟨name, hName, rfl⟩ := List.mem_map.mp he
      exact List.mem_reverse.mp hName
  | diagonal =>
      have hFirst : IndexExpr.axisName 0 ∈ IndexExpr.axisNames shape.length :=
        List.mem_map_of_mem (List.mem_range.mpr (hShape rfl))
      unfold View.elementRef? at h
      dsimp only at h
      split at h
      · cases h
      · cases h
        intro e he
        have hVar : e = .var (IndexExpr.axisName 0) := by simpa using he
        rw [hVar]
        exact hFirst

/-! ## Names of storage -/

/-- Every name by which the storage is known satisfies the predicate. -/
structure Storage.NamesIn (P : Text → Prop) (storage : Storage) : Prop where
  pointer : P storage.pointer
  start : P storage.start
  strides : ∀ e, some e ∈ storage.strides → e.NamesIn P
  shared : ∀ e, storage.shared = some e → e.NamesIn P

theorem Storage.mem_of_stride? {storage : Storage} {axis : Nat} {e : IndexExpr}
    (h : storage.stride? axis = some e) : some e ∈ storage.strides := by
  unfold Storage.stride? at h
  rw [List.getD_eq_getElem?_getD] at h
  cases hGet : storage.strides[axis]? with
  | none =>
      rw [hGet] at h
      exact nomatch h
  | some stride =>
      rw [hGet] at h
      have hStride : stride = some e := h
      rw [← hStride]
      exact List.mem_of_getElem? hGet

/-- A view has no names that the array under it does not have. -/
theorem View.namesIn_storage {P : Text → Prop} {under : Storage} (h : under.NamesIn P) (v : View)
    (rank : Nat) : (v.storage under rank).NamesIn P := by
  have hNone {found : Storage} (hFound : found = { under with strides := [], shared := none }) :
      found.NamesIn P := by
    subst hFound
    exact ⟨h.pointer, h.start, fun _ he => absurd he List.not_mem_nil, fun _ he => nomatch he⟩
  cases v with
  | reshape => exact hNone rfl
  | transpose =>
      refine ⟨h.pointer, h.start, ?_, fun _ he => nomatch he⟩
      intro e he
      obtain ⟨axis, -, hAxis⟩ := List.mem_map.mp he
      exact h.strides e (Storage.mem_of_stride? hAxis)
  | diagonal =>
      unfold View.storage
      dsimp only
      split
      · next rows columns hRows hColumns =>
        have hSum : (IndexExpr.group (.add rows columns)).NamesIn P :=
          ⟨h.strides rows (Storage.mem_of_stride? hRows),
            h.strides columns (Storage.mem_of_stride? hColumns)⟩
        refine ⟨h.pointer, h.start, ?_, ?_⟩
        · intro e he
          rw [Option.some.inj (List.mem_singleton.mp he)]
          exact hSum
        · intro e he
          rw [← Option.some.inj he]
          exact hSum
      · exact hNone rfl

/-- The names of a buffer are its pointer, its offset and its strides. -/
theorem Layout.namesIn_storage {P : Text → Prop} {l : Layout} {handle : Text} (hHandle : P handle)
    (hStart : P (startName handle)) (hStrides : ∀ name ∈ l.strideNames handle, P name) :
    (l.storage handle).NamesIn P := by
  refine ⟨hHandle, hStart, ?_, ?_⟩
  · intro e he
    obtain ⟨name, hName, hEq⟩ := List.mem_map.mp he
    cases hEq
    exact hStrides name hName
  · intro e he
    unfold Layout.storage at he
    dsimp only at he
    split at he
    · next hUniform =>
      cases he
      refine hStrides _ ?_
      unfold strideNames
      rw [if_pos hUniform.2]
      exact List.mem_replicate.mpr ⟨Nat.ne_of_gt hUniform.1, rfl⟩
    · exact nomatch he

/-- The offset of an element of a buffer names the axes, the offset of the first element
and the strides. -/
theorem Layout.namesIn_offset {P : Text → Prop} {l : Layout} {handle : Text}
    (hStart : P (startName handle)) (hStrides : ∀ name ∈ l.strideNames handle, P name)
    (path : AccessPath) :
    (l.offset handle path).NamesIn fun name => name ∈ IndexExpr.axisNames l.rank ∨ P name := by
  refine IndexExpr.namesIn_foldl_add (.inr hStart) fun e he => ?_
  obtain ⟨⟨name, axis⟩, hEntry, rfl⟩ := List.mem_map.mp he
  have hName : (l.strideNames handle)[axis]? = some name := by
    simpa using List.mem_zipIdx_iff_getElem?.mp hEntry
  have hAxis : IndexExpr.axisName axis ∈ IndexExpr.axisNames l.rank := by
    obtain ⟨hLt, -⟩ := List.getElem?_eq_some_iff.mp hName
    rw [length_strideNames] at hLt
    exact List.mem_map_of_mem (List.mem_range.mpr hLt)
  unfold axisTerm
  dsimp only
  split
  · exact .inl hAxis
  · exact ⟨.inl hAxis, .inr (hStrides name (List.mem_of_getElem? hName))⟩

/-! ## Access helpers and what they refer to -/

namespace Table

/-- The kernel has an argument of the name. -/
def IsArgument (table : Table) (name : Text) : Prop := ∃ a ∈ table.kernelArguments, a.name = name

theorem HasArgument.isArgument {table : Table} {name : Text} {dtype : ScalarType}
    {role : ArgumentRole} (h : table.HasArgument name dtype role) : table.IsArgument name := by
  obtain ⟨index, hFilter⟩ := h
  have hMem : (⟨index, name, dtype, role⟩ : KernelArgument) ∈
      table.kernelArguments.filter fun a => a.name = name := by
    rw [hFilter]
    exact .head _
  exact ⟨_, (List.mem_filter.mp hMem).1, rfl⟩

/-- What the body of the access helper of the array at a position refers to. -/
inductive AccessBody (table : Table) (number : Nat → Nat) (p : Nat) (h : Helper) : Prop
  /-- The helper refers to storage. -/
  | stored (pointer : Text) (offset : IndexExpr)
      (hBody : h.body = (ElementRef.stored pointer offset).text)
      (hPointer : Text.isIdentifier pointer = true) (hReadable : offset.isReadable = true)
      (hArgument : table.IsArgument pointer)
      (hNames : offset.NamesIn fun name => name ∈ h.params ∨ table.IsArgument name)
  /-- The helper calls the helper of the array under it. -/
  | through (q : Nat) (g : Helper) (indices : List IndexExpr) (hOwns : table.Owns q g)
      (hNumber : number q < number p) (hMem : ∀ s, table.get? p = some s → g ∈ s.helpers)
      (hBody : h.body = (ElementRef.through g.name indices).text)
      (hArity : indices.length = g.arity) (hReadable : ∀ e ∈ indices, e.isReadable = true)
      (hNames : ∀ e ∈ indices, e.NamesIn (· ∈ h.params))

end Table

namespace Lowered

variable {t : Tree} {usage : Usage} {device : Device} {settings : Settings} {order : List Nat}
  {table : Table} {p : Nat} {s : Symbol} {h : Helper}

/-- The pointer, the offset and the strides of a buffer are arguments. -/
theorem isArgument_of_buffer (hL : Lowered t usage device settings order table)
    (hs : table.get? p = some s) {layout : Layout} {written : Bool} {access : Option AccessPath}
    (hKind : s.kind = .buffer layout written access) :
    table.IsArgument s.handle ∧ table.IsArgument (Layout.startName s.handle) ∧
      ∀ name ∈ layout.strideNames s.handle, table.IsArgument name := by
  have hAsked {a : KernelArgument} (ha : a ∈ s.arguments) : table.IsArgument a.name :=
    (hL.hasArgument hs ha).isArgument
  refine ⟨?_, ?_, fun name hName => ?_⟩
  · exact hAsked (Symbol.mem_arguments.mpr (.inl ⟨layout, written, access, hKind, .inl rfl⟩))
  · exact hAsked (Symbol.mem_arguments.mpr (.inl ⟨layout, written, access, hKind, .inr (.inl rfl)⟩))
  · obtain ⟨k, hk⟩ := List.mem_iff_getElem?.mp hName
    obtain ⟨hLt, -⟩ := List.getElem?_eq_some_iff.mp hk
    have hStride : k < layout.strides.length := by
      rw [Layout.length_strideNames] at hLt
      rw [layout.length_strides]
      exact hLt
    exact hAsked (Symbol.mem_arguments.mpr (.inl ⟨layout, written, access, hKind,
      .inr (.inr ⟨k, name, _, hk, List.getElem?_eq_getElem hStride, rfl⟩)⟩))

/-- What is known by name about the memory behind an array are arguments. -/
theorem namesIn_storage (hL : Lowered t usage device settings order table)
    (hs : table.get? p = some s) {shape : Shape} {storage : Storage}
    (hArray : s.array? = some (shape, storage)) : storage.NamesIn table.IsArgument := by
  induction p using Nat.strongRecOn generalizing s shape storage with
  | _ p ih =>
      cases hL.arrayEntry hs (isArray_of_array? hArray) with
      | buffer n layout written hNode hOp hShape hKind hHelpers =>
          obtain ⟨hHandle, hStart, hStrides⟩ := hL.isArgument_of_buffer hs hKind
          unfold Symbol.array? at hArray
          rw [hKind] at hArray
          cases hArray
          exact Layout.namesIn_storage hHandle hStart hStrides
      | view n m v child operand under element hNode hOp hLhs hChild hOperand hUnder hMatrix
          hElement hNumber hKind hHelpers =>
          have hLt : child < p := Tree.child_lt hNode (Node.mem_children.mpr (.inl hLhs))
          unfold Symbol.array? at hArray
          rw [hKind] at hArray
          cases hArray
          exact View.namesIn_storage (ih child hLt hOperand hUnder) v m.shape.length

/-- The access helper of an array has one parameter for each of its axes. -/
theorem params_of_owns (hL : Lowered t usage device settings order table)
    (hOwns : table.Owns p h) (hs : table.get? p = some s) {shape : Shape}
    (hShape : s.shape? = some shape) : h.params = IndexExpr.axisNames shape.length := by
  obtain ⟨u, hu, hArray, hMem, hName⟩ := hOwns
  rw [hs] at hu
  cases hu
  cases hL.arrayEntry hs hArray with
  | buffer n layout written hNode hOp hRank hKind hHelpers =>
      unfold Symbol.shape? at hShape
      rw [hKind] at hShape
      cases hShape
      rw [(hHelpers h).mp hMem]
      rfl
  | view n m v child operand under element hNode hOp hLhs hChild hOperand hUnder hMatrix hElement
      hNumber hKind hHelpers =>
      unfold Symbol.shape? at hShape
      rw [hKind] at hShape
      cases hShape
      have hOwn := hL.owns_unique ⟨s, hs, hArray, hMem, hName⟩
        ⟨s, hs, hArray, (hHelpers _).mpr (.inl rfl), rfl⟩
      rw [hOwn]

/-- Every array has a helper named after it, with one parameter for each axis. -/
theorem exists_own_helper (hL : Lowered t usage device settings order table)
    (hs : table.get? p = some s) {shape : Shape} (hShape : s.shape? = some shape) :
    ∃ h, table.Owns p h ∧ h ∈ s.helpers ∧ h.name = s.accessName ∧ h.arity = shape.length := by
  obtain ⟨h, hOwns⟩ := hL.exists_owns hs (Symbol.isArray_of_shape? hShape)
  have hParams := hL.params_of_owns hOwns hs hShape
  obtain ⟨u, hu, -, hMem, hName⟩ := id hOwns
  rw [hs] at hu
  cases hu
  refine ⟨h, hOwns, hMem, hName, ?_⟩
  rw [Helper.arity, hParams]
  simp [IndexExpr.axisNames]

/-- A diagonal with a stride of its own refers to the storage of the buffer behind it. -/
theorem accessBody_diagonal (hL : Lowered t usage device settings order table)
    (hStem : Text.isIdentifier settings.nameStem = true) {child : Nat} {operand : Symbol}
    {shape source : Shape} {under : Storage} (hOperand : table.get? child = some operand)
    (hUnder : operand.array? = some (source, under))
    (hRelates : View.diagonal.Relates shape source) {stride : IndexExpr}
    (hShared : (View.diagonal.storage under source.length).shared = some stride)
    (hParams : h.params = IndexExpr.axisNames shape.length)
    (hBody : h.body = (ElementRef.stored (View.diagonal.storage under source.length).pointer
      (.add (.var (View.diagonal.storage under source.length).start)
        (.mul (.group (.var (IndexExpr.axisName 0))) stride))).text) :
    table.AccessBody (t.numberIn order) p h := by
  have hNames := View.namesIn_storage (hL.namesIn_storage hOperand hUnder) .diagonal source.length
  obtain ⟨depth, b, toBuffer, hBacked, -, buffer, layout, written, -, -, -, hb, hKind⟩ :=
    hL.exists_backed hOperand (isArray_of_array? hUnder)
  have hHandle := hL.isIdentifier_handle hStem hb (isArray_of_buffer hKind)
  have hDescribes := hL.describes hStem hBacked hb hKind hOperand hUnder
  have hDiagonal := View.describes hDescribes hRelates
  have hIsStride := View.isStride_of_diagonal hDescribes hRelates hShared
  have hStart : Text.isIdentifier (View.diagonal.storage under source.length).start = true := by
    rw [hDiagonal.start]
    exact Layout.isIdentifier_startName hHandle
  have hAxis : IndexExpr.axisName 0 ∈ h.params := by
    obtain ⟨rows, columns, -, rfl⟩ := hRelates
    rw [hParams]
    exact .head _
  refine .stored _ _ hBody ?_ (hIsStride.fillable_offset hStart 0).readable hNames.pointer ?_
  · rw [hDiagonal.pointer]
    exact hHandle
  · refine ⟨.inr hNames.start, .inl hAxis, ?_⟩
    exact (hNames.shared stride hShared).mono fun _ hName => .inr hName

/-- What the access helper of an array refers to. -/
theorem accessBody (hL : Lowered t usage device settings order table)
    (hStem : Text.isIdentifier settings.nameStem = true) (hOwns : table.Owns p h) :
    table.AccessBody (t.numberIn order) p h := by
  obtain ⟨s, hs, hArray, hMem, hName⟩ := id hOwns
  cases hL.arrayEntry hs hArray with
  | buffer n layout written hNode hOp hShape hKind hHelpers =>
      obtain ⟨hHandle, hStart, hStrides⟩ := hL.isArgument_of_buffer hs hKind
      have hIdentifier := hL.isIdentifier_handle hStem hs hArray
      rw [(hHelpers h).mp hMem]
      exact .stored s.handle _ rfl hIdentifier (Layout.fillable_offset hIdentifier _ 0).readable
        hHandle (Layout.namesIn_offset hStart hStrides _)
  | view n m v child operand under element hNode hOp hLhs hChild hOperand hUnder hMatrix hElement
      hNumber hKind hHelpers =>
      have hOwn := hL.owns_unique hOwns ⟨s, hs, hArray, (hHelpers _).mpr (.inl rfl), rfl⟩
      subst hOwn
      have hRelates := View.relates_of_formed (hL.built.formed hNode) hOp hLhs hChild
      rcases View.elementRef?_cases hElement hRelates with
        ⟨indices, rfl, hPasses⟩ | ⟨stride, rfl, hShared, rfl⟩
      · obtain ⟨g, hg, hgMem, hgName, hArity⟩ :=
          hL.exists_own_helper hOperand (Symbol.shape?_of_array? hUnder)
        have hLength : indices.length = g.arity := hPasses.length_eq.trans hArity.symm
        refine .through child g indices hg hNumber ?_ (by rw [hgName]) hLength
          (fun e he => (hPasses.fillable e he).readable)
          (View.namesIn_of_through hElement (View.rank_pos_of_diagonal hRelates))
        -- a view takes over all helpers of its operand
        intro u hu
        rw [hs] at hu
        cases hu
        exact (hHelpers g).mpr (.inr hgMem)
      · exact hL.accessBody_diagonal hStem hOperand hUnder hRelates hShared rfl rfl

end Lowered

end ArrayKernel
