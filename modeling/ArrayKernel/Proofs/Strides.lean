import ArrayKernel.Proofs.Addressing
import Mathlib.Data.Set.List

/-!
# The strides that an array exposes

The attributes of an array give its pointer, its offset and strides as C expressions over
the kernel arguments.  Where an array has a stride for every axis, its access helper leads
to the element at the offset plus each index times its stride, through whatever views it
goes.  A leading dimension is the stride of the first of at least two axes.

A reshape has no strides and neither has a view of it, so nothing is said about these.  An
array without axes has all its strides; its one element is at the offset.  With the stem
`i`, alone or with digits, the name of a buffer may be that of a parameter of its helper,
and filling in an index would replace it; such stems are left out.
-/

namespace ArrayKernel

/-! ## The first element -/

namespace Shape

theorem rowMajor_zeros (s : Shape) (rank : Nat) : s.rowMajor (List.replicate rank 0) = 0 := by
  induction s generalizing rank with
  | nil => simp [rowMajor]
  | cons extent extents ih =>
      cases rank with
      | zero => rfl
      | succ rank =>
          rw [List.replicate_succ, rowMajor, ih]
          simp

theorem ofRowMajor_zero (s : Shape) : s.ofRowMajor 0 = List.replicate s.length 0 := by
  induction s with
  | nil => rfl
  | cons extent extents ih =>
      rw [ofRowMajor, Nat.zero_mod, Nat.zero_div, ih]
      rfl

end Shape

/-- The first element of a view is the first element of the array under it. -/
theorem View.reference_zeros {v : View} {shape source : Shape} (h : v.Relates shape source) :
    v.reference shape source (List.replicate shape.length 0) =
      List.replicate source.length 0 := by
  cases v with
  | reshape =>
      show source.ofRowMajor (shape.rowMajor (List.replicate shape.length 0)) = _
      rw [Shape.rowMajor_zeros, Shape.ofRowMajor_zero]
  | transpose =>
      have hShape : shape = source.reverse := h
      show (List.replicate shape.length 0).reverse = _
      rw [List.reverse_replicate, hShape, List.length_reverse]
  | diagonal =>
      obtain ⟨rows, columns, rfl, rfl⟩ := h
      rfl

/-- The first element of an array is the first element of the buffer behind its views. -/
theorem Tree.Backed.zeros {t : Tree} (hBuilt : t.Built) {p depth b : Nat}
    {toBuffer : List Nat → List Nat} (h : t.Backed p depth b toBuffer) {n m : Node}
    (hn : t.get? p = some n) (hm : t.get? b = some m) :
    toBuffer (List.replicate n.shape.length 0) = List.replicate m.shape.length 0 := by
  induction h generalizing n with
  | buffer hNode hOp =>
      rw [hn] at hm
      cases hm
      rfl
  | view hNode hOp hLhs hChild hRest ih =>
      rw [hNode] at hn
      cases hn
      have hRelates := View.relates_of_formed (hBuilt.formed hNode) hOp hLhs hChild
      rw [Function.comp_apply, View.reference_zeros hRelates]
      exact ih hChild hm

theorem weightedSum_zeros (rank : Nat) (strides : List Nat) :
    weightedSum (List.replicate rank 0) strides = 0 := by
  induction rank generalizing strides with
  | zero => rfl
  | succ rank ih =>
      cases strides with
      | nil => rfl
      | cons stride strides =>
          rw [List.replicate_succ, weightedSum, ih]
          simp

/-! ## Attributes of arrays -/

namespace Symbol

/-- The value of an attribute that is a C expression, given the values of names. -/
def attrValue? (s : Symbol) (env : Text → Option Int) (name : Text) : Option Int := do
  let text ← s.attributes.get? name
  let e ← IndexExpr.read? text
  e.value? env

variable {s : Symbol} {shape : Shape} {storage : Storage}

/-- A leading dimension is the stride of the first of at least two axes. -/
theorem leading_eq_stride (hArray : s.array? = some (shape, storage)) {ld : Text}
    (h : s.attr "ld" = .ok ld) : s.attr "stride0" = .ok ld ∧ 2 ≤ storage.strides.length := by
  rw [attr_eq_ok_iff, get?_attributes_of_array? hArray (by decide),
    Storage.get?_attributes_ld] at h
  have hStride := get?_attributes_stride hArray 0
  unfold Storage.leading? at h
  split at h
  · next hLength =>
    rw [h] at hStride
    exact ⟨attr_eq_ok_iff.mpr hStride, hLength⟩
  · exact nomatch h

end Symbol

/-! ## Strides for all axes -/

namespace Storage.Describes

variable {storage : Storage} {l : Layout} {handle : Text} {shape : Shape}
  {toBuffer : List Nat → List Nat}

/-- An array with axes that has all its strides has them in a list. -/
theorem exists_strides (h : storage.Describes l handle shape toBuffer) (hRank : 0 < shape.length)
    (hAll : ∀ k < shape.length, ∃ e, storage.stride? k = some e) :
    ∃ es : List IndexExpr, es.length = shape.length ∧ storage.strides = es.map some := by
  have hLength : storage.strides.length = shape.length := by
    refine h.length_strides.resolve_left fun hNil => ?_
    obtain ⟨e, he⟩ := hAll 0 hRank
    unfold stride? at he
    rw [hNil] at he
    exact nomatch he
  have hSome : ∀ stride ∈ storage.strides, ∃ e, some e = stride := by
    intro stride hMem
    obtain ⟨k, hk, rfl⟩ := List.mem_iff_getElem.mp hMem
    obtain ⟨e, he⟩ := hAll k (hLength ▸ hk)
    refine ⟨e, ?_⟩
    rw [← he, stride?, List.getD_eq_getElem?_getD, List.getElem?_eq_getElem hk]
    rfl
  have hRange : storage.strides ∈ Set.range (List.map some) := by
    rw [Set.range_list_map]
    exact hSome
  obtain ⟨es, hEs⟩ := hRange
  exact ⟨es, by rw [← hLength, ← hEs, List.length_map], hEs.symm⟩

end Storage.Describes

namespace Lowered

variable {t : Tree} {usage : Usage} {device : Device} {settings : Settings} {order : List Nat}
  {table : Table} {p depth b : Nat} {s buffer : Symbol} {toBuffer : List Nat → List Nat}
  {layout : Layout} {written : Bool} {access : Option AccessPath} {shape : Shape}
  {storage : Storage}

/-- The offset attribute of an array has the start of the buffer as its value. -/
theorem attrValue?_start (hL : Lowered t usage device settings order table)
    (hStem : Text.isIdentifier settings.nameStem = true) (hBacked : t.Backed p depth b toBuffer)
    (hb : table.get? b = some buffer) (hKind : buffer.kind = .buffer layout written access)
    (hs : table.get? p = some s) (hArray : s.array? = some (shape, storage)) :
    s.attrValue? (table.environment []) "start" = some (layout.start : Int) := by
  have hDescribes := hL.describes hStem hBacked hb hKind hs hArray
  have hHandle := hL.isIdentifier_handle hStem hb (isArray_of_buffer hKind)
  have hRead := IndexExpr.read?_text (e := .var (Layout.startName buffer.handle))
    (IndexExpr.isName_of_isIdentifier (Layout.isIdentifier_startName hHandle))
  have hStart := (hL.boundIn_environment hStem hb hKind []).start
  unfold Symbol.attrValue?
  rw [Symbol.get?_attributes_start hArray, hDescribes.start]
  show (IndexExpr.read? (IndexExpr.var (Layout.startName buffer.handle)).text).bind _ = _
  rw [hRead]
  exact hStart

/-- The stride attributes of an array that has all of them lead to the elements of the
buffer. -/
theorem exists_strideValues (hL : Lowered t usage device settings order table)
    (hStem : Text.isIdentifier settings.nameStem = true) (hBacked : t.Backed p depth b toBuffer)
    (hb : table.get? b = some buffer) (hKind : buffer.kind = .buffer layout written access)
    (hs : table.get? p = some s) (hArray : s.array? = some (shape, storage))
    (hAll : ∀ k < shape.length, s.hasAttr ("stride" ++ Text.ofNat k) = true) :
    ∃ values : List Nat, values.length = shape.length ∧
      (∀ k value : Nat, values[k]? = some value →
        s.attrValue? (table.environment []) ("stride" ++ Text.ofNat k) = some (value : Int)) ∧
      ∀ index, shape.InBounds index →
        weightedSum (toBuffer index) layout.strides = weightedSum index values := by
  have hDescribes := hL.describes hStem hBacked hb hKind hs hArray
  have hStrides : ∀ k < shape.length, ∃ e, storage.stride? k = some e := by
    intro k hk
    have hHas := hAll k hk
    unfold Symbol.hasAttr at hHas
    rw [Symbol.get?_attributes_stride hArray, Option.isSome_map] at hHas
    exact Option.isSome_iff_exists.mp hHas
  by_cases hRank : shape.length = 0
  · -- without axes there is one element, the first
    have hNil : shape = [] := List.length_eq_zero_iff.mp hRank
    subst hNil
    refine ⟨[], rfl, nofun, fun index hIn => ?_⟩
    have hIndex : index = [] := List.length_eq_zero_iff.mp hIn.length_eq
    obtain ⟨n, hn, hShape, -⟩ := hL.array_node hs hArray
    obtain ⟨m, hm, -⟩ := hL.entry hb
    have hZeros := hBacked.zeros hL.built hn hm
    rw [← hShape] at hZeros
    have hFirst : toBuffer [] = List.replicate m.shape.length 0 := hZeros
    rw [hIndex, hFirst, weightedSum_zeros]
    rfl
  · obtain ⟨es, hLength, hEs⟩ := hDescribes.exists_strides (Nat.pos_of_ne_zero hRank) hStrides
    have hne : es ≠ [] := by
      rintro rfl
      exact hRank hLength.symm
    obtain ⟨values, hDenote, hSum⟩ :=
      hDescribes.denote hEs hne (hL.boundIn_environment hStem hb hKind [])
    refine ⟨values, by rw [← hDenote.length_eq, hLength], fun k value hk => ?_, fun _ => hSum⟩
    have hValue := congrArg (·[k]?) (hDenote : es.map _ = values.map _)
    simp only [List.getElem?_map, hk, Option.map_some] at hValue
    obtain ⟨e, he, hEval⟩ := Option.map_eq_some_iff.mp hValue
    have hTerm := (hDescribes.isStride hEs e (List.mem_of_getElem? he)).term 0
    have hStride : storage.stride? k = some e := by
      unfold Storage.stride?
      rw [hEs, List.getD_eq_getElem?_getD, List.getElem?_map, he]
      rfl
    unfold Symbol.attrValue?
    rw [Symbol.get?_attributes_stride hArray, hStride]
    show (IndexExpr.read? e.text).bind _ = _
    rw [IndexExpr.read?_text hTerm.readable]
    exact hEval

end Lowered

/-- **Exposed strides describe the access helper.**  A leading dimension of an array is the
stride of the first of at least two axes.  Where an array, under at most 63 views, has a
stride for every axis, a call of its access helper expands to its pointer and an offset in
square brackets, and the offset, read as a C expression, is the value of its start plus
each index times the value of its stride. -/
theorem strides_describe_access {t : Tree} {root : Nat} {device : Device} {settings : Settings}
    {table : Table} (hBuilt : t.Built)
    (hTable : Table.ofTree t root device settings = .ok table)
    (hStem : Text.isIdentifier settings.nameStem = true)
    (hAxis : Text.isAxisLike settings.nameStem = false) {p : Nat} {s : Symbol} {shape : Shape}
    (hs : table.get? p = some s) (hShape : s.shape? = some shape) :
    (∀ ld, s.attr "ld" = .ok ld → s.attr "stride0" = .ok ld ∧ 2 ≤ shape.length) ∧
      ∃ depth b toBuffer, t.Backed p depth b toBuffer ∧
        (depth ≤ 63 → (∀ k < shape.length, s.hasAttr ("stride" ++ Text.ofNat k) = true) →
          ∃ (pointer : Text) (start : Nat) (strides : List Nat),
            s.attr "pointer" = .ok pointer ∧
              s.attrValue? (table.environment []) "start" = some (start : Int) ∧
              strides.length = shape.length ∧
              (∀ k stride : Nat, strides[k]? = some stride →
                s.attrValue? (table.environment []) ("stride" ++ Text.ofNat k) =
                  some (stride : Int)) ∧
              ∀ (domain : List Nat) (args : List IndexExpr) (index : List Nat),
                (∀ e ∈ args, e.isReadable = true) →
                IndexExpr.Denote (table.environment domain) args index → shape.InBounds index →
                  ∃ offset e, table.expand (ElementRef.through s.accessName args).text =
                      some (pointer ++ "[" ++ offset ++ "]") ∧
                    IndexExpr.read? offset = some e ∧
                      e.value? (table.environment domain) =
                        some ((start + weightedSum index strides : Nat) : Int)) := by
  obtain ⟨usage, order, hL⟩ := Lowered.of_ofTree hBuilt hTable
  have hIsArray := Symbol.isArray_of_shape? hShape
  obtain ⟨shape', storage, hArray⟩ := Lowered.exists_array? hIsArray
  have hSame : shape' = shape := by
    rw [Symbol.shape?_eq, hArray] at hShape
    exact Option.some.inj hShape
  subst hSame
  obtain ⟨depth, b, toBuffer, hBacked, -, buffer, layout, written, -, -, -, hb, hKind⟩ :=
    hL.exists_backed hs hIsArray
  have hDescribes := hL.describes hStem hBacked hb hKind hs hArray
  refine ⟨fun ld hLd => ?_, depth, b, toBuffer, hBacked, fun hDepth hAll => ?_⟩
  · obtain ⟨hStride, hLength⟩ := Symbol.leading_eq_stride hArray hLd
    refine ⟨hStride, ?_⟩
    rcases hDescribes.length_strides with hNil | hRank
    · rw [hNil] at hLength
      exact absurd hLength (by decide)
    · exact hRank ▸ hLength
  · obtain ⟨strides, hRank, hValues, hSum⟩ :=
      hL.exists_strideValues hStem hBacked hb hKind hs hArray hAll
    refine ⟨storage.pointer, layout.start, strides, Symbol.attr_pointer_of_array? hArray,
      hL.attrValue?_start hStem hBacked hb hKind hs hArray, hRank, hValues, ?_⟩
    intro domain args index hReadable hDenote hIn
    have hArgs : args.length = shape'.length := hDenote.length_eq.trans hIn.length_eq
    obtain ⟨offset, hOffset⟩ :=
      hL.locates hStem hAxis hBacked hb hKind hs hShape hArgs hReadable
    obtain ⟨k, hk, hResolves⟩ := hOffset.resolves
    -- a chain of views under the bound takes no more rounds than `expand` makes
    have hRounds : k ≤ maxRounds := Nat.le_trans hk (Nat.succ_le_succ hDepth)
    have hExpand := hResolves.expandRounds (hL.distinctNames hStem) hRounds
    refine ⟨offset.text, offset, ?_, IndexExpr.read?_text hOffset.readable, ?_⟩
    · rw [hDescribes.pointer]
      exact hExpand
    · rw [← hSum index hIn]
      exact hOffset.value (hL.boundIn_environment hStem hb hKind domain) hIn hDenote

/-- The diagonal of the transposed matrix has the sum of both strides as its own. -/
theorem strides_describe_rowSums :
    ∃ table s, Table.ofTree .rowSums 8 .cpu {} = .ok table ∧ table.get? 2 = some s ∧
      s.shape? = some [2] ∧ s.attrValue? (table.environment []) "start" = some 5 ∧
        s.attrValue? (table.environment []) "stride0" = some 5 ∧
        ∃ (pointer offset : Text) (e : IndexExpr), s.attr "pointer" = .ok pointer ∧
          table.expand (ElementRef.through s.accessName [.const 1]).text =
            some (pointer ++ "[" ++ offset ++ "]") ∧
          IndexExpr.read? offset = some e ∧
            e.value? (table.environment []) = some (5 + 1 * 5) := by
  have hEval : ((Table.ofTree .rowSums 8 .cpu {}).toOption.bind fun table =>
      (table.get? 2).map fun s => (s.shape?, s.attrValue? (table.environment []) "start",
        s.attrValue? (table.environment []) "stride0", s.hasAttr "stride0")) =
          some (some [2], some 5, some 5, true) := by
    decide +kernel
  obtain ⟨table, hOption, hGet⟩ := Option.bind_eq_some_iff.mp hEval
  obtain ⟨s, hs, hData⟩ := Option.map_eq_some_iff.mp hGet
  simp only [Prod.mk.injEq] at hData
  obtain ⟨hShape, hStart, hStride, hHas⟩ := hData
  have hTable := eq_ok_of_toOption hOption
  obtain ⟨-, depth, b, toBuffer, hBacked, hAccess⟩ :=
    strides_describe_access Tree.built_rowSums hTable (by decide) (by decide) hs hShape
  have hChain : Tree.rowSums.Backed 2 2 0 _ :=
    .view rfl rfl rfl rfl (.view rfl rfl rfl rfl (.buffer rfl rfl))
  obtain ⟨rfl, rfl, rfl⟩ := hBacked.unique hChain
  have hAll : ∀ k < [2].length, s.hasAttr ("stride" ++ Text.ofNat k) = true := by
    intro k hk
    obtain rfl : k = 0 := Nat.lt_one_iff.mp hk
    exact hHas
  obtain ⟨pointer, start, strides, hPointer, hStart', hLength, hStrides, hExpand⟩ :=
    hAccess (by decide) hAll
  obtain ⟨stride, rfl⟩ := List.length_eq_one_iff.mp hLength
  have hStride' := hStrides 0 stride rfl
  have hZero : s.attrValue? (table.environment []) ("stride" ++ Text.ofNat 0) = some 5 := hStride
  rw [hStart] at hStart'
  rw [hZero] at hStride'
  obtain ⟨offset, e, hText, hRead, hValue⟩ :=
    hExpand [] [.const 1] [1] (by simp [IndexExpr.isReadable]) rfl (by decide)
  refine ⟨table, s, hTable, hs, hShape, hStart, hStride, pointer, offset, e, hPointer, hText,
    hRead, ?_⟩
  -- start and stride are determined by the values of the attributes
  have hStartEq := Option.some.inj hStart'
  have hStrideEq := Option.some.inj hStride'
  rw [hValue]
  simp only [weightedSum]
  congr 1
  omega

end ArrayKernel
