import ArrayKernel.Proofs.RenderSteps
import ArrayKernel.Proofs.Views

/-!
# Addressing the elements of arrays

An array of a lowered tree is a buffer under a chain of views.  Its text, with all
helpers expanded, is the pointer of the buffer and an offset in square brackets.  Read
as a C expression, the offset has the value that the layout of the buffer gives to the
index behind the views.

Expansion runs for 64 rounds, so a chain of more than 63 views is not followed to its
end.  A stem of names that is `i` and digits is excluded: its pointers would be taken
for parameters of the access helpers.
-/

namespace ArrayKernel

/-! ## Chains of views -/

namespace Tree

/-- The array at a position is the buffer at `buffer` under `depth` views, and
`toBuffer` is the composition of their reference maps. -/
inductive Backed (t : Tree) :
    (position depth buffer : Nat) → (toBuffer : List Nat → List Nat) → Prop
  | buffer {p : Nat} {n : Node} {strides : List Nat} {start : Nat} (hNode : t.get? p = some n)
      (hOp : n.op = .buffer strides start) : Backed t p 0 p id
  | view {p child depth b : Nat} {n m : Node} {v : View} {toBuffer : List Nat → List Nat}
      (hNode : t.get? p = some n) (hOp : n.op = .view v) (hLhs : n.lhs = some child)
      (hChild : t.get? child = some m) (hRest : Backed t child depth b toBuffer) :
      Backed t p (depth + 1) b (toBuffer ∘ v.reference n.shape m.shape)

/-- A position has one chain of views. -/
theorem Backed.unique {t : Tree} {p depth b depth' b' : Nat}
    {toBuffer toBuffer' : List Nat → List Nat} (h : t.Backed p depth b toBuffer)
    (h' : t.Backed p depth' b' toBuffer') :
    depth = depth' ∧ b = b' ∧ toBuffer = toBuffer' := by
  induction h generalizing depth' b' toBuffer' with
  | buffer hNode hOp =>
      cases h' with
      | buffer => exact ⟨rfl, rfl, rfl⟩
      | view hNode' hOp' =>
          rw [hNode] at hNode'
          cases hNode'
          rw [hOp] at hOp'
          exact nomatch hOp'
  | view hNode hOp hLhs hChild hRest ih =>
      cases h' with
      | buffer hNode' hOp' =>
          rw [hNode] at hNode'
          cases hNode'
          rw [hOp] at hOp'
          exact nomatch hOp'
      | view hNode' hOp' hLhs' hChild' hRest' =>
          rw [hNode] at hNode'
          cases hNode'
          rw [hOp] at hOp'
          cases hOp'
          rw [hLhs] at hLhs'
          cases hLhs'
          rw [hChild] at hChild'
          cases hChild'
          obtain ⟨rfl, rfl, rfl⟩ := ih hRest'
          exact ⟨rfl, rfl, rfl⟩

/-- The composed reference maps of a built tree stay inside the shape of the buffer. -/
theorem Backed.inBounds {t : Tree} (hBuilt : t.Built) {p depth b : Nat}
    {toBuffer : List Nat → List Nat} (h : t.Backed p depth b toBuffer) {n m : Node}
    (hn : t.get? p = some n) (hm : t.get? b = some m) {index : List Nat}
    (hIn : n.shape.InBounds index) : m.shape.InBounds (toBuffer index) := by
  induction h generalizing n index with
  | buffer hNode hOp =>
      rw [hn] at hm
      cases hm
      exact hIn
  | view hNode hOp hLhs hChild hRest ih =>
      rw [hNode] at hn
      cases hn
      have hRelates := View.relates_of_formed (hBuilt.formed hNode) hOp hLhs hChild
      exact ih hChild hm (View.reference_inBounds hRelates hIn)

end Tree

/-! ## Binding the parameters of access helpers -/

namespace IndexExpr

theorem parameter?_axisName {k rank : Nat} (h : k < rank) :
    Text.parameter? (axisNames rank) (axisName k) = some k := by
  have hStarts : Text.startsIdentifier (axisName k) = true :=
    Text.startsIdentifier_of_isIdentifier (isIdentifier_axisName k)
  unfold Text.parameter?
  rw [if_pos hStarts, List.idxOf?_eq_some_iff]
  refine ⟨by simpa [axisNames] using h, by simp [axisNames], ?_⟩
  intro j hj
  have hne : axisName j ≠ axisName k := fun hEq => Nat.ne_of_lt hj (axisName_injective hEq)
  simpa [axisNames] using hne

/-- The parameters have the values of the arguments. -/
theorem denote_bindArguments {env : Text → Option Int} {args : List IndexExpr} {index : List Nat}
    {rank : Nat} (hRank : args.length = rank) (h : Denote env args index) :
    Denote (bindArguments (axisNames rank) args env) ((axisNames rank).map var) index := by
  unfold Denote at h ⊢
  rw [← h]
  apply List.ext_getElem
  · simp [axisNames, hRank]
  · intro k hk hk'
    have hLt : k < rank := by simpa [axisNames] using hk
    have hArg : k < args.length := by omega
    have hSubst : (var (axisName k)).subst (axisNames rank) args = args[k] := by
      unfold subst
      rw [parameter?_axisName hLt]
      simp [List.getD_eq_getElem?_getD, hArg]
    simp only [axisNames, List.getElem_map, List.getElem_range]
    show (bindArguments ((List.range rank).map axisName) args env) (axisName k) = _
    exact congrArg (value? env) hSubst

end IndexExpr

namespace Layout

/-- The names of a layout are no parameters, so arguments do not change their values. -/
theorem BoundIn.bind {l : Layout} {handle : Text} {env : Text → Option Int}
    (h : l.BoundIn handle env) (args : List IndexExpr) (rank : Nat) :
    l.BoundIn handle (IndexExpr.bindArguments (IndexExpr.axisNames rank) args env) where
  start := by
    have hNot : startName handle ∉ IndexExpr.axisNames rank :=
      IndexExpr.not_mem_axisNames
        (Text.isAxisLike_of_underscore (underscore_mem_startName handle)) rank
    rw [IndexExpr.bindArguments_of_not_mem hNot]
    exact h.start
  strides := by
    have hStrides := h.strides
    unfold IndexExpr.Denote at hStrides ⊢
    rw [← hStrides, List.map_map, List.map_map]
    refine List.map_congr_left fun name hName => ?_
    obtain ⟨k, hk⟩ := List.mem_iff_getElem?.mp hName
    have hNot : name ∉ IndexExpr.axisNames rank :=
      IndexExpr.not_mem_axisNames
        (Text.isAxisLike_of_underscore (underscore_mem_strideName hk)) rank
    exact IndexExpr.bindArguments_of_not_mem hNot args env

end Layout

theorem Helper.refers_of_fillable {name : Text} {r : ElementRef} {rank : Nat}
    (hName : Text.isIdentifier name = true) (hHead : Text.isIdentifier r.head = true)
    (hAxis : Text.isAxisLike r.head = false)
    (hParts : ∀ e ∈ r.parts, IndexExpr.Fillable (IndexExpr.axisNames rank) e) :
    Helper.Refers ⟨name, IndexExpr.axisNames rank, r.text⟩ r where
  name_identifier := hName
  body_eq := rfl
  head_identifier := hHead
  head_not_mem := IndexExpr.not_mem_axisNames hAxis rank
  readable := fun e he => (hParts e he).readable
  guarded := fun e he => (hParts e he).guarded

/-! ## Following a chain -/

theorem Covered.isIdentifier_handle {t : Tree} {usage : Usage} {device : Device}
    {settings : Settings} {order : List Nat} {table : Table} {p : Nat} {s : Symbol}
    (hL : Covered t usage device settings order table)
    (hStem : Text.isIdentifier settings.nameStem = true) (hs : table.get? p = some s)
    (hArray : s.isArray = true) : Text.isIdentifier s.handle = true := by
  obtain ⟨shape, storage, hShape⟩ := Lowered.exists_array? hArray
  obtain ⟨n, -, -, -, hName⟩ := hL.array_node hs hShape
  unfold Symbol.handle
  rw [hName]
  exact Text.isIdentifier_append hStem (Text.all_isWordChar_ofNat _)

namespace Lowered

variable {t : Tree} {usage : Usage} {device : Device} {settings : Settings} {order : List Nat}
  {table : Table} {p depth b : Nat} {s buffer : Symbol} {toBuffer : List Nat → List Nat}
  {layout : Layout} {written : Bool} {access : Option AccessPath}

/-- Every array is a buffer under a chain of views. -/
theorem exists_backed (hL : Lowered t usage device settings order table)
    (hs : table.get? p = some s) (hArray : s.isArray = true) :
    ∃ depth b toBuffer, t.Backed p depth b toBuffer ∧
      ∃ (n : Node) (buffer : Symbol) (layout : Layout) (written : Bool),
        t.get? b = some n ∧ n.op = .buffer layout.strides layout.start ∧
          n.shape = layout.shape ∧ table.get? b = some buffer ∧
            buffer.kind =
              .buffer layout written (some (layout.accessPath settings.contiguous)) := by
  induction p using Nat.strongRecOn generalizing s with
  | _ p ih =>
      cases hL.arrayEntry hs hArray with
      | buffer n layout written hNode hOp hShape hKind hHelpers =>
          exact ⟨0, p, id, .buffer hNode hOp, n, s, layout, written, hNode, hOp, hShape, hs, hKind⟩
      | view n m v child operand under element hNode hOp hLhs hChild hOperand hUnder hMatrix
          hElement hNumber hKind hHelpers =>
          have hLt : child < p := Tree.child_lt hNode (Node.mem_children.mpr (.inl hLhs))
          obtain ⟨depth, b, toBuffer, hBacked, hBuffer⟩ :=
            ih child hLt hOperand (isArray_of_array? hUnder)
          exact ⟨depth + 1, b, _, .view hNode hOp hLhs hChild hBacked, hBuffer⟩

theorem isArray_of_buffer (hKind : buffer.kind = .buffer layout written access) :
    buffer.isArray = true := by
  unfold Symbol.isArray Symbol.shape?
  rw [hKind]
  rfl

/-- The symbol of a view, for given node and operand. -/
theorem view_entry (hL : Lowered t usage device settings order table)
    (hs : table.get? p = some s) (hArray : s.isArray = true) {n m : Node} {v : View} {child : Nat}
    (hNode : t.get? p = some n) (hOp : n.op = .view v) (hLhs : n.lhs = some child)
    (hChild : t.get? child = some m) :
    ∃ operand under element, table.get? child = some operand ∧
      operand.array? = some (m.shape, under) ∧
      v.elementRef? operand.accessName (v.storage under m.shape.length) n.shape m.shape =
        some element ∧
      s.kind = .view (n.links p) v n.shape (v.storage under m.shape.length) ∧
      ⟨s.accessName, IndexExpr.axisNames n.shape.length, element.text⟩ ∈ s.helpers := by
  cases hL.arrayEntry hs hArray with
  | buffer n' _ _ hNode' hOp' =>
      rw [hNode] at hNode'
      cases hNode'
      rw [hOp] at hOp'
      exact nomatch hOp'
  | view n' m' v' child' operand under element hNode' hOp' hLhs' hChild' hOperand hUnder hMatrix
      hElement hNumber hKind hHelpers =>
      rw [hNode] at hNode'
      cases hNode'
      rw [hOp] at hOp'
      cases hOp'
      rw [hLhs] at hLhs'
      cases hLhs'
      rw [hChild] at hChild'
      cases hChild'
      exact ⟨operand, under, element, hOperand, hUnder, hElement, hKind,
        (hHelpers _).mpr (.inl rfl)⟩

/-- The storage of an array describes it in terms of the buffer behind its views. -/
theorem describes (hL : Lowered t usage device settings order table)
    (hStem : Text.isIdentifier settings.nameStem = true) (hBacked : t.Backed p depth b toBuffer)
    (hb : table.get? b = some buffer) (hKind : buffer.kind = .buffer layout written access)
    (hs : table.get? p = some s) {shape : Shape} {storage : Storage}
    (hArray : s.array? = some (shape, storage)) :
    storage.Describes layout buffer.handle shape toBuffer := by
  induction hBacked generalizing s shape storage with
  | buffer hNode hOp =>
      rw [hb] at hs
      cases hs
      unfold Symbol.array? at hArray
      rw [hKind] at hArray
      cases hArray
      exact Layout.storage_describes (hL.isIdentifier_handle hStem hb (isArray_of_buffer hKind))
  | view hNode hOp hLhs hChild hRest ih =>
      obtain ⟨operand, under, element, hOperand, hUnder, -, hViewKind, -⟩ :=
        hL.view_entry hs (isArray_of_array? hArray) hNode hOp hLhs hChild
      unfold Symbol.array? at hArray
      rw [hViewKind] at hArray
      cases hArray
      have hRelates := View.relates_of_formed (hL.built.formed hNode) hOp hLhs hChild
      exact View.describes (ih hb hOperand hUnder) hRelates

/-- A call of an access helper leads to an offset in the buffer, whose value is that of
the element behind the views. -/
structure Locates (helpers : List Helper) (helper : Text) (args : List IndexExpr) (depth : Nat)
    (handle : Text) (layout : Layout) (shape : Shape) (toBuffer : List Nat → List Nat)
    (offset : IndexExpr) : Prop where
  resolves : ∃ k, k ≤ depth + 1 ∧
    Resolves helpers k (.through helper args) (.stored handle offset)
  readable : offset.isReadable = true
  value : ∀ {env : Text → Option Int} {index : List Nat}, layout.BoundIn handle env →
    shape.InBounds index → IndexExpr.Denote env args index →
      offset.value? env = some (layout.elementOffset (toBuffer index) : Int)

/-- Following the helper of an array that refers to storage directly. -/
theorem locates_stored {helpers : List Helper} {name handle : Text} {offset : IndexExpr}
    {shape : Shape} {args : List IndexExpr}
    (hMem : ⟨name, IndexExpr.axisNames shape.length, (ElementRef.stored handle offset).text⟩ ∈
      helpers)
    (hRefers : Helper.Refers
      ⟨name, IndexExpr.axisNames shape.length, (ElementRef.stored handle offset).text⟩
      (.stored handle offset))
    (hArgs : args.length = shape.length) (hReadable : ∀ e ∈ args, e.isReadable = true)
    (hValue : ∀ {env : Text → Option Int} {index : List Nat}, layout.BoundIn handle env →
      shape.InBounds index →
      IndexExpr.Denote env ((IndexExpr.axisNames shape.length).map .var) index →
        offset.value? env = some (layout.elementOffset (toBuffer index) : Int)) :
    Locates helpers name args depth handle layout shape toBuffer
      (offset.subst (IndexExpr.axisNames shape.length) args) := by
  have hOffset : (offset.subst (IndexExpr.axisNames shape.length) args).isReadable = true :=
    IndexExpr.isReadable_subst (hRefers.readable offset (.head _))
      (hRefers.guarded offset (.head _)) hReadable
  refine ⟨⟨1, by omega, ?_⟩, hOffset, ?_⟩
  · refine .through hMem hRefers ?_ hReadable (.stored hRefers.head_identifier hOffset)
    simpa [Helper.arity, IndexExpr.axisNames] using hArgs
  · intro env index hBound hIn hDenote
    rw [IndexExpr.value?_subst]
    exact hValue (hBound.bind args _) hIn (IndexExpr.denote_bindArguments hArgs hDenote)

/-- Following the helper of a view that calls the helper of the array under it. -/
theorem locates_through {helpers : List Helper} {name callee handle : Text} {v : View}
    {shape source : Shape} {indices args : List IndexExpr} {offset : IndexExpr}
    (hMem : ⟨name, IndexExpr.axisNames shape.length,
      (ElementRef.through callee indices).text⟩ ∈ helpers)
    (hRefers : Helper.Refers
      ⟨name, IndexExpr.axisNames shape.length, (ElementRef.through callee indices).text⟩
      (.through callee indices))
    (hPasses : v.Passes shape source indices) (hRelates : v.Relates shape source)
    (hArgs : args.length = shape.length) (hReadable : ∀ e ∈ args, e.isReadable = true)
    (hRest : Locates helpers callee
      (indices.map (·.subst (IndexExpr.axisNames shape.length) args)) depth handle layout source
      toBuffer offset) :
    Locates helpers name args (depth + 1) handle layout shape
      (toBuffer ∘ v.reference shape source) offset := by
  obtain ⟨k, hk, hResolves⟩ := hRest.resolves
  refine ⟨⟨k + 1, by omega, ?_⟩, hRest.readable, ?_⟩
  · refine .through hMem hRefers ?_ hReadable hResolves
    simpa [Helper.arity, IndexExpr.axisNames] using hArgs
  · intro env index hBound hIn hDenote
    refine hRest.value hBound (View.reference_inBounds hRelates hIn) ?_
    -- what is passed on has the value of its text before the arguments are filled in,
    -- with the parameters bound to them
    have hParams := IndexExpr.denote_bindArguments hArgs hDenote
    have hIndices := hPasses.denote hIn hParams
    unfold IndexExpr.Denote at hIndices ⊢
    rw [← hIndices, List.map_map]
    exact List.map_congr_left fun e _ => IndexExpr.value?_subst _ args env e

theorem isAxisLike_handle (hL : Lowered t usage device settings order table)
    (hStem : Text.isIdentifier settings.nameStem = true)
    (hAxis : Text.isAxisLike settings.nameStem = false) (hs : table.get? p = some s)
    (hArray : s.isArray = true) : Text.isAxisLike s.handle = false := by
  obtain ⟨shape, storage, hShape⟩ := exists_array? hArray
  obtain ⟨n, -, -, -, hName⟩ := hL.array_node hs hShape
  unfold Symbol.handle
  rw [hName]
  exact Text.isAxisLike_append_ofNat (Text.ne_nil_of_isIdentifier hStem) hAxis _

theorem isIdentifier_accessName_of (hL : Lowered t usage device settings order table)
    (hStem : Text.isIdentifier settings.nameStem = true) (hs : table.get? p = some s)
    (hArray : s.isArray = true) : Text.isIdentifier s.accessName = true := by
  rw [(hL.accessName_eq hs hArray).1]
  exact isIdentifier_accessName hStem _

theorem mem_helpers (hs : table.get? p = some s) {h : Helper} (hMem : h ∈ s.helpers) :
    h ∈ table.helpers.toList :=
  Table.mem_helpers.mpr ⟨(p, s), Table.get?_eq_some_iff.mp hs, hMem⟩

/-- The access helper of a buffer leads to its storage. -/
theorem locates_buffer (hL : Lowered t usage device settings order table)
    (hStem : Text.isIdentifier settings.nameStem = true)
    (hAxis : Text.isAxisLike settings.nameStem = false) (hb : table.get? b = some buffer)
    (hKind : buffer.kind = .buffer layout written access) {args : List IndexExpr}
    (hArgs : args.length = layout.shape.length) (hReadable : ∀ e ∈ args, e.isReadable = true) :
    ∃ offset, Locates table.helpers.toList buffer.accessName args depth buffer.handle layout
      layout.shape id offset := by
  have hArray := isArray_of_buffer hKind
  have hHandle := hL.isIdentifier_handle hStem hb hArray
  cases hL.arrayEntry hb hArray with
  | view n m v child operand under element hNode hOp hLhs hChild hOperand hUnder hMatrix hElement
      hNumber hKind' hHelpers =>
      rw [hKind] at hKind'
      exact nomatch hKind'
  | buffer n layout' written' hNode hOp hShape hKind' hHelpers =>
      rw [hKind] at hKind'
      cases hKind'
      refine ⟨_, locates_stored (mem_helpers hb ((hHelpers _).mpr rfl)) ?_ hArgs hReadable ?_⟩
      · refine Helper.refers_of_fillable (hL.isIdentifier_accessName_of hStem hb hArray) hHandle
          (hL.isAxisLike_handle hStem hAxis hb hArray) ?_
        intro e he
        rw [List.mem_singleton.mp he]
        exact Layout.fillable_offset hHandle _ _
      · intro env index hBound _ hDenote
        exact Layout.value?_offset hBound hDenote settings.contiguous

/-- The offset that a diagonal with a stride computes by itself. -/
theorem value?_diagonal {under : Storage} {handle : Text} {shape source : Shape}
    (hUnder : under.Describes layout handle source toBuffer)
    (hRelates : View.diagonal.Relates shape source) {rows columns : IndexExpr}
    (hStrides : under.strides = [rows, columns].map some) {env : Text → Option Int}
    {index : List Nat} (hBound : layout.BoundIn handle env) (hIn : shape.InBounds index)
    (hDenote : IndexExpr.Denote env ((IndexExpr.axisNames shape.length).map .var) index) :
    (IndexExpr.add (.var (Layout.startName handle))
      (.mul (.group (.var (IndexExpr.axisName 0))) (.group (.add rows columns)))).value? env =
        some (layout.elementOffset (toBuffer (index ++ index)) : Int) := by
  obtain ⟨stride, hStride, hSum⟩ :=
    (View.describes_diagonal_stride hUnder hRelates hStrides).2 hBound
  obtain ⟨_, _, -, rfl⟩ := hRelates
  match index with
  | [] => exact hIn.elim
  | _ :: _ :: _ => exact hIn.2.elim
  | [i] =>
      have hIndex : env (IndexExpr.axisName 0) = some (i : Int) :=
        (IndexExpr.denote_cons.mp hDenote).1
      have hOffset : layout.elementOffset (toBuffer ([i] ++ [i])) = layout.start + i * stride := by
        unfold Layout.elementOffset
        rw [← hSum hIn]
        rfl
      rw [hOffset]
      show ((env (Layout.startName handle)).bind fun x =>
        (((env (IndexExpr.axisName 0)).bind fun y =>
          ((IndexExpr.group (.add rows columns)).value? env).map (y * ·))).map (x + ·)) = _
      rw [hBound.start, hIndex, hStride]
      simp

/-- A diagonal with a stride of its own leads to the buffer at once. -/
theorem locates_diagonal (hL : Lowered t usage device settings order table)
    (hStem : Text.isIdentifier settings.nameStem = true)
    (hAxis : Text.isAxisLike settings.nameStem = false)
    (hb : table.get? b = some buffer) (hKind : buffer.kind = .buffer layout written access)
    {helpers : List Helper} {name : Text} (hName : Text.isIdentifier name = true)
    {under : Storage} {shape source : Shape}
    (hUnder : under.Describes layout buffer.handle source toBuffer)
    (hRelates : View.diagonal.Relates shape source) {rows columns : IndexExpr}
    (hStrides : under.strides = [rows, columns].map some)
    (hMem : ⟨name, IndexExpr.axisNames shape.length,
      (ElementRef.stored under.pointer (.add (.var under.start)
        (.mul (.group (.var (IndexExpr.axisName 0))) (.group (.add rows columns))))).text⟩ ∈
          helpers)
    {args : List IndexExpr} (hArgs : args.length = shape.length)
    (hReadable : ∀ e ∈ args, e.isReadable = true) :
    ∃ offset, Locates helpers name args (depth + 1) buffer.handle layout shape
      (toBuffer ∘ View.diagonal.reference shape source) offset := by
  have hBuffer := isArray_of_buffer hKind
  have hHandle := hL.isIdentifier_handle hStem hb hBuffer
  have hStride := (View.describes_diagonal_stride hUnder hRelates hStrides).1
  rw [hUnder.pointer, hUnder.start] at hMem
  refine ⟨_, locates_stored hMem ?_ hArgs hReadable ?_⟩
  · refine Helper.refers_of_fillable hName hHandle (hL.isAxisLike_handle hStem hAxis hb hBuffer) ?_
    intro e he
    rw [List.mem_singleton.mp he]
    exact hStride.fillable_offset (Layout.isIdentifier_startName hHandle) shape.length
  · intro env index hBound hIn hDenote
    exact value?_diagonal hUnder hRelates hStrides hBound hIn hDenote

/-- The access helper of a view refers to its elements through that of the array under it. -/
theorem refers_through (hL : Lowered t usage device settings order table)
    (hStem : Text.isIdentifier settings.nameStem = true) (hs : table.get? p = some s)
    (hArray : s.isArray = true) {child rank : Nat} {operand : Symbol}
    (hOperand : table.get? child = some operand) (hUnder : operand.isArray = true)
    {indices : List IndexExpr}
    (hFillable : ∀ e ∈ indices, IndexExpr.Fillable (IndexExpr.axisNames rank) e) :
    Helper.Refers ⟨s.accessName, IndexExpr.axisNames rank,
      (ElementRef.through operand.accessName indices).text⟩
      (.through operand.accessName indices) := by
  have hName := hL.isIdentifier_accessName_of hStem hs hArray
  have hCallee := hL.isIdentifier_accessName_of hStem hOperand hUnder
  have hCalleeAxis : Text.isAxisLike operand.accessName = false :=
    Text.isAxisLike_of_underscore (List.mem_append_right _ (by decide))
  exact Helper.refers_of_fillable hName hCallee hCalleeAxis hFillable

/-- The access helper of every array leads to the buffer behind its views. -/
theorem locates (hL : Lowered t usage device settings order table)
    (hStem : Text.isIdentifier settings.nameStem = true)
    (hAxis : Text.isAxisLike settings.nameStem = false) (hBacked : t.Backed p depth b toBuffer)
    (hb : table.get? b = some buffer) (hKind : buffer.kind = .buffer layout written access)
    (hs : table.get? p = some s) {shape : Shape} (hShape : s.shape? = some shape)
    {args : List IndexExpr} (hArgs : args.length = shape.length)
    (hReadable : ∀ e ∈ args, e.isReadable = true) :
    ∃ offset, Locates table.helpers.toList s.accessName args depth buffer.handle layout shape
      toBuffer offset := by
  induction hBacked generalizing s shape args with
  | buffer hNode hOp =>
      rw [hb] at hs
      cases hs
      unfold Symbol.shape? at hShape
      rw [hKind] at hShape
      cases hShape
      exact hL.locates_buffer hStem hAxis hb hKind hArgs hReadable
  | @view p child depth b n m v toBuffer hNode hOp hLhs hChild hRest ih =>
      have hArray := Symbol.isArray_of_shape? hShape
      obtain ⟨operand, under, element, hOperand, hUnder, hElement, hViewKind, hMem⟩ :=
        hL.view_entry hs hArray hNode hOp hLhs hChild
      have hShapeEq : shape = n.shape := by
        unfold Symbol.shape? at hShape
        rw [hViewKind] at hShape
        exact (Option.some.inj hShape).symm
      subst hShapeEq
      have hRelates := View.relates_of_formed (hL.built.formed hNode) hOp hLhs hChild
      have hName := hL.isIdentifier_accessName_of hStem hs hArray
      rcases View.elementRef?_cases hElement hRelates with
        ⟨indices, rfl, hPasses⟩ | ⟨stride, rfl, hShared, rfl⟩
      · -- the helper of the view calls that of its operand
        have hRefers := hL.refers_through hStem hs hArray hOperand (isArray_of_array? hUnder)
          hPasses.fillable
        have hOperandShape := Symbol.shape?_of_array? hUnder
        obtain ⟨offset, hOffset⟩ := ih hb hOperand hOperandShape
          ((List.length_map _).trans hPasses.length_eq) (hPasses.isReadable_subst hReadable)
        exact ⟨offset, locates_through (mem_helpers hs hMem) hRefers hPasses hRelates hArgs
          hReadable hOffset⟩
      · -- the helper of the diagonal goes to the buffer past all views in between
        have hDescribes := hL.describes hStem hRest hb hKind hOperand hUnder
        have hLength : m.shape.length = 2 := by
          obtain ⟨_, _, hSource, -⟩ := hRelates
          rw [hSource]
          rfl
        rcases View.storage_diagonal_cases hDescribes hLength with
          ⟨rows, columns, hStrides, hStorage⟩ | hStorage
        · rw [hStorage] at hShared hMem
          cases hShared
          exact hL.locates_diagonal hStem hAxis hb hKind hName hDescribes hRelates hStrides
            (mem_helpers hs hMem) hArgs hReadable
        · rw [hStorage] at hShared
          exact nomatch hShared

end Lowered

/-! ## The values of names in a kernel -/

/-- The names of the axes of a loop domain, from some axis on. -/
def domainNames (first rank : Nat) : List Text :=
  (List.range' first rank).map fun k => '$' :: Text.ofNat k

namespace Table

/-- The value of the kernel argument with a name, if it is an offset or a stride. -/
def layoutValue? (table : Table) (name : Text) : Option Nat :=
  match table.kernelArguments.find? fun a => a.name = name with
  | some ⟨_, _, _, .layout value⟩ => some value
  | _ => none

/-- The values of the names in an offset: a name of the loop domain stands for a component
of the index, any other name for a kernel argument. -/
def environment (table : Table) (index : List Nat) (name : Text) : Option Int :=
  match ((domainNames 0 index.length).zip index).lookup name with
  | some i => some (i : Int)
  | none => (table.layoutValue? name).map fun value : Nat => (value : Int)

end Table

theorem lookup_domainNames (index : List Nat) (first k : Nat) :
    ((domainNames first index.length).zip index).lookup ('$' :: Text.ofNat (first + k)) =
      index[k]? := by
  induction index generalizing first k with
  | nil => rfl
  | cons i index ih =>
      show List.lookup ('$' :: Text.ofNat (first + k)) (('$' :: Text.ofNat first, i) ::
        (domainNames (first + 1) index.length).zip index) = _
      rw [List.lookup_cons]
      cases k with
      | zero => simp
      | succ k =>
          have hne : ('$' :: Text.ofNat (first + (k + 1)) : Text) ≠ '$' :: Text.ofNat first := by
            intro hEq
            have hSame := Text.ofNat_injective (List.cons.inj hEq).2
            omega
          have hShift : first + (k + 1) = first + 1 + k := by omega
          rw [beq_false_of_ne hne, hShift]
          exact ih (first + 1) k

theorem lookup_domainNames_of_ne {name : Text} (h : ∀ digits, name ≠ '$' :: digits)
    (index : List Nat) (first : Nat) :
    ((domainNames first index.length).zip index).lookup name = none := by
  induction index generalizing first with
  | nil => rfl
  | cons i index ih =>
      show List.lookup name (('$' :: Text.ofNat first, i) ::
        (domainNames (first + 1) index.length).zip index) = _
      rw [List.lookup_cons, beq_false_of_ne (h _)]
      exact ih (first + 1)

namespace Table

variable {table : Table} {index : List Nat}

theorem bindsDomain_environment (table : Table) (index : List Nat) :
    Shape.BindsDomain (table.environment index) index := by
  intro k i hk
  have hLookup := lookup_domainNames index 0 k
  rw [Nat.zero_add, hk] at hLookup
  unfold environment
  rw [hLookup]

theorem layoutValue?_of_hasArgument {name : Text} {dtype : ScalarType} {value : Nat}
    (h : table.HasArgument name dtype (.layout value)) : table.layoutValue? name = some value := by
  obtain ⟨i, hFilter⟩ := h
  have hHead := congrArg List.head? hFilter
  rw [List.head?_filter] at hHead
  unfold layoutValue?
  rw [hHead]
  rfl

theorem environment_of_layoutValue? {name : Text} {value : Nat}
    (hName : Text.isIdentifier name = true) (h : table.layoutValue? name = some value) :
    table.environment index name = some (value : Int) := by
  have hDollar : ∀ digits, name ≠ '$' :: digits := by
    rintro digits rfl
    have hStarts : Text.startsIdentifier ('$' :: digits) = false := rfl
    rw [Text.startsIdentifier_of_isIdentifier hName] at hStarts
    exact nomatch hStarts
  unfold environment
  rw [lookup_domainNames_of_ne hDollar, h]
  rfl

end Table

namespace Covered

variable {t : Tree} {usage : Usage} {device : Device} {settings : Settings} {order : List Nat}
  {table : Table} {b : Nat} {buffer : Symbol} {layout : Layout} {written : Bool}
  {access : Option AccessPath}

/-- The names of a layout have its numbers as values wherever names with an underscore
stand for kernel arguments. -/
theorem boundIn (hL : Covered t usage device settings order table)
    (hStem : Text.isIdentifier settings.nameStem = true) (hb : table.get? b = some buffer)
    (hKind : buffer.kind = .buffer layout written access) {env : Text → Option Int}
    (hEnv : ∀ {name : Text} {value : Nat}, Text.isIdentifier name = true → '_' ∈ name →
      table.layoutValue? name = some value → env name = some (value : Int)) :
    layout.BoundIn buffer.handle env := by
  have hHandle := hL.isIdentifier_handle hStem hb (Lowered.isArray_of_buffer hKind)
  refine ⟨?_, ?_⟩
  · have hArgument := hL.hasArgument hb (Symbol.mem_arguments.mpr
      (.inl ⟨layout, written, access, hKind, .inr (.inl rfl)⟩))
    exact hEnv (Layout.isIdentifier_startName hHandle)
      (Layout.underscore_mem_startName buffer.handle)
      (Table.layoutValue?_of_hasArgument hArgument)
  · unfold IndexExpr.Denote
    apply List.ext_getElem
    · simp [layout.length_strides, Layout.rank]
    · intro k hk hk'
      have hkName : k < (layout.strideNames buffer.handle).length := by simpa using hk
      have hkStride : k < layout.strides.length := by simpa using hk'
      have hName := List.getElem?_eq_getElem hkName
      have hStride := List.getElem?_eq_getElem hkStride
      simp only [List.getElem_map]
      have hArgument := hL.hasArgument hb (Symbol.mem_arguments.mpr
        (.inl ⟨layout, written, access, hKind, .inr (.inr ⟨k, _, _, hName, hStride, rfl⟩)⟩))
      exact hEnv (Layout.isIdentifier_strideName hHandle hName)
        (Layout.underscore_mem_strideName hName) (Table.layoutValue?_of_hasArgument hArgument)

/-- The kernel arguments give the names of a layout its numbers. -/
theorem boundIn_environment (hL : Covered t usage device settings order table)
    (hStem : Text.isIdentifier settings.nameStem = true) (hb : table.get? b = some buffer)
    (hKind : buffer.kind = .buffer layout written access) (index : List Nat) :
    layout.BoundIn buffer.handle (table.environment index) :=
  hL.boundIn hStem hb hKind fun hName _ hValue => Table.environment_of_layoutValue? hName hValue

end Covered

/-! ## The text of an array -/

/-- **View addressing is correct end to end.**  Every array of a lowered tree is a buffer
under a chain of views.  If these are at most 63, its expanded text is the pointer of
the buffer and an offset in square brackets, and the offset, read as a C expression, has
the value that the start and the strides of the buffer give to the index behind the
views. -/
theorem view_addressing_correct {t : Tree} {root : Nat} {device : Device} {settings : Settings}
    {table : Table} (hBuilt : t.Built)
    (hTable : Table.ofTree t root device settings = .ok table)
    (hStem : Text.isIdentifier settings.nameStem = true)
    (hAxis : Text.isAxisLike settings.nameStem = false) {p : Nat} {s : Symbol} {shape : Shape}
    (hs : table.get? p = some s) (hShape : s.shape? = some shape) :
    ∃ depth b toBuffer, t.Backed p depth b toBuffer ∧
      ∃ n strides start buffer pointer, t.get? b = some n ∧ n.op = .buffer strides start ∧
        table.get? b = some buffer ∧ buffer.attr "pointer" = .ok pointer ∧
          (depth ≤ 63 → ∃ text offset e, table.render p = .ok text ∧
            table.expand text = some (pointer ++ "[" ++ offset ++ "]") ∧
              IndexExpr.read? offset = some e ∧
                ∀ index, shape.InBounds index → n.shape.InBounds (toBuffer index) ∧
                  e.value? (table.environment index) =
                    some ((start + weightedSum (toBuffer index) strides : Nat) : Int)) := by
  obtain ⟨usage, order, hL⟩ := Lowered.of_ofTree hBuilt hTable
  have hArray := Symbol.isArray_of_shape? hShape
  obtain ⟨depth, b, toBuffer, hBacked, n, buffer, layout, written, hn, hOp, hnShape, hb, hKind⟩ :=
    hL.exists_backed hs hArray
  refine ⟨depth, b, toBuffer, hBacked, n, layout.strides, layout.start, buffer, buffer.handle, hn,
    hOp, hb, Symbol.attr_pointer hKind, fun hDepth => ?_⟩
  obtain ⟨indices, hIndices, hRender⟩ := Table.render_array hs hShape
  obtain ⟨hLength, hReadable⟩ := Shape.isReadable_of_broadcastIndices? hIndices
  obtain ⟨offset, hOffset⟩ :=
    hL.locates hStem hAxis hBacked hb hKind hs hShape hLength hReadable
  obtain ⟨k, hk, hResolves⟩ := hOffset.resolves
  -- a chain of views under the bound takes no more rounds than `expand` makes
  have hRounds : k ≤ maxRounds := Nat.le_trans hk (Nat.succ_le_succ hDepth)
  have hExpand := hResolves.expandRounds (hL.distinctNames hStem) hRounds
  refine ⟨_, offset.text, offset, hRender, hExpand, IndexExpr.read?_text hOffset.readable, ?_⟩
  intro index hIn
  constructor
  · obtain ⟨shape', storage, hStorage⟩ := Lowered.exists_array? hArray
    obtain ⟨m, hm, hmShape, -⟩ := hL.array_node hs hStorage
    have hSame : shape = m.shape := by
      rw [Symbol.shape?_eq, hStorage] at hShape
      exact (Option.some.inj hShape).symm.trans hmShape
    exact hBacked.inBounds hBuilt hm hn (hSame ▸ hIn)
  · have hDenote := Shape.denote_broadcastIndices? hIndices hIn
      (Table.bindsDomain_environment table index)
    -- in its own shape an array is accessed at the index itself
    rw [Shape.project_eq_self hIn] at hDenote
    exact hOffset.value (hL.boundIn_environment hStem hb hKind index) hIn hDenote

/-- The second element of the row is on the diagonal of the matrix, at offset
`5 + 1 * 4 + 1 * 1`. -/
theorem view_addressing_rowSums :
    ∃ table s, Table.ofTree .rowSums 8 .cpu {} = .ok table ∧ table.get? 3 = some s ∧
      s.shape? = some [1, 2] ∧ ∃ (pointer text offset : Text) (e : IndexExpr),
        table.render 3 = .ok text ∧
        table.expand text = some (pointer ++ "[" ++ offset ++ "]") ∧
          IndexExpr.read? offset = some e ∧
            e.value? (table.environment [0, 1]) = some 10 := by
  have hEval : (((Table.ofTree .rowSums 8 .cpu {}).toOption.bind (·.get? 3)).bind
      Symbol.shape?) = some [1, 2] := by
    decide +kernel
  obtain ⟨s, hGet, hShape⟩ := Option.bind_eq_some_iff.mp hEval
  obtain ⟨table, hOption, hs⟩ := Option.bind_eq_some_iff.mp hGet
  have hTable := eq_ok_of_toOption hOption
  obtain ⟨depth, b, toBuffer, hBacked, n, strides, start, buffer, pointer, hn, hOp, -, -, hText⟩ :=
    view_addressing_correct Tree.built_rowSums hTable (by decide) (by decide) hs hShape
  have hChain : Tree.rowSums.Backed 3 3 0 _ :=
    .view rfl rfl rfl rfl (.view rfl rfl rfl rfl (.view rfl rfl rfl rfl (.buffer rfl rfl)))
  obtain ⟨rfl, rfl, rfl⟩ := hBacked.unique hChain
  obtain ⟨text, offset, e, hRender, hExpand, hRead, hValue⟩ := hText (by decide)
  cases hn
  cases hOp
  exact ⟨table, s, hTable, hs, hShape, pointer, text, offset, e, hRender, hExpand, hRead,
    (hValue [0, 1] (by decide)).2⟩

end ArrayKernel
