import ArrayKernel.Proofs.Confluence

/-!
# Names that arguments replace

Filling the arguments of a call into the body of an access helper replaces whole words.
The layout names in the body have an underscore, so none of them is a parameter.  The name
of the pointer has none: it is a parameter if the stem of names is the letter `i`, perhaps
with digits, and the number of the buffer makes it the name of an axis of the helper.

The expanded text of an array begins with the pointer of its buffer exactly where the
pointer is no parameter of the helper that refers to the storage.  It does NOT begin with
it for every identifier as the stem of names.
-/

namespace ArrayKernel

/-! ## First letters -/

/-- The arguments that an array is rendered with name only indices of the loop domain. -/
theorem Shape.namesIn_of_domainIndices? {axis : Nat} {s t : Shape} {indices : List IndexExpr}
    (h : domainIndices? axis s t = some indices) :
    ∀ e ∈ indices, e.NamesIn fun name => name.head? = some '$' := by
  induction s generalizing t axis indices with
  | nil =>
      cases h
      exact fun _ he => absurd he List.not_mem_nil
  | cons extent extents ih =>
      cases t with
      | nil => cases h
      | cons target targets =>
          rw [domainIndices?] at h
          have hCons {first : IndexExpr} {rest : List IndexExpr}
              (hFirst : first.NamesIn fun name => name.head? = some '$')
              (hRest : domainIndices? (axis + 1) extents targets = some rest) :
              ∀ e ∈ first :: rest, e.NamesIn fun name => name.head? = some '$' := by
            intro e he
            rcases List.mem_cons.mp he with rfl | he
            · exact hFirst
            · exact ih hRest e he
          split at h
          · obtain ⟨rest, hRest, rfl⟩ := Option.map_eq_some_iff.mp h
            exact hCons trivial hRest
          · split at h
            · obtain ⟨rest, hRest, rfl⟩ := Option.map_eq_some_iff.mp h
              exact hCons rfl hRest
            · cases h

theorem Shape.namesIn_of_broadcastIndices? {s t : Shape} {indices : List IndexExpr}
    (h : broadcastIndices? s t = some indices) :
    ∀ e ∈ indices, e.NamesIn fun name => name.head? = some '$' := by
  unfold broadcastIndices? at h
  split at h
  · exact namesIn_of_domainIndices? h
  · cases h

theorem Text.head?_append_ne {c : Char} {s t : Text} (hs : s.head? ≠ some c)
    (ht : t.head? ≠ some c) : (s ++ t).head? ≠ some c := by
  cases s with
  | nil => exact ht
  | cons d s => exact hs

/-- An expression in indices of the loop domain does not begin as the name of an axis. -/
theorem IndexExpr.head?_text_ne {e : IndexExpr}
    (h : e.NamesIn fun name => name.head? = some '$') : e.text.head? ≠ some 'i' := by
  induction e with
  | const n =>
      intro hHead
      have hMem : 'i' ∈ Text.ofNat n := List.mem_of_head? hHead
      exact absurd (List.all_eq_true.mp (Text.all_isDigit_ofNat n) 'i' hMem) (by decide)
  | var name =>
      have hName : name.head? = some '$' := h
      rw [text, hName]
      decide
  | group e ih => exact (by decide : some '(' ≠ some 'i')
  | add a b iha ihb | mul a b iha ihb | div a b iha ihb | mod a b iha ihb =>
      rw [text, List.append_assoc]
      exact Text.head?_append_ne (iha h.1) (by simp)

theorem IndexExpr.head?_of_mem_axisNames {name : Text} {rank : Nat} (h : name ∈ axisNames rank) :
    name.head? = some 'i' := by
  obtain ⟨k, -, rfl⟩ := List.mem_map.mp h
  rfl

/-! ## Pointers in front -/

namespace Table.Fetches

variable {table : Table} {p depth : Nat} {name pointer : Text} {args passed : List IndexExpr}
  {last : Helper} {offset : IndexExpr}

/-- What a call leads to begins with the pointer, unless the pointer is replaced. -/
theorem pointer_isPrefix_iff
    (hFetches : table.Fetches p name args depth last pointer offset passed)
    (hPointer : Text.isIdentifier pointer = true)
    (hArgs : ∀ e ∈ args, e.NamesIn fun name => name.head? = some '$') :
    (pointer ++ ['[']) <+: last.fill (passed.map IndexExpr.text) ↔ pointer ∉ last.params := by
  rw [Helper.fill_stored hFetches.body hPointer hFetches.offset_readable]
  constructor
  · intro hStarts hMem
    obtain ⟨rank, hParams⟩ := hFetches.params
    rw [hParams] at hMem hStarts
    -- the argument in place of the pointer begins otherwise than a parameter
    have hBase : ((IndexExpr.var pointer).subst (IndexExpr.axisNames rank) passed).NamesIn
        fun name => name.head? = some '$' := by
      refine IndexExpr.namesIn_subst hMem ?_ (hFetches.names hArgs)
      rw [hFetches.length_eq, Helper.arity, hParams]
      simp [IndexExpr.axisNames]
    obtain ⟨rest, hRest⟩ := hStarts
    have hOther : (pointer ++ ['['] ++ rest).head? ≠ some 'i' := by
      rw [hRest]
      exact Text.head?_append_ne (IndexExpr.head?_text_ne hBase) (by simp)
    rw [List.append_assoc, List.head?_append, IndexExpr.head?_of_mem_axisNames hMem] at hOther
    exact hOther rfl
  · intro hNot
    have hSame : (IndexExpr.var pointer).subst last.params passed = .var pointer := by
      unfold IndexExpr.subst
      rw [Text.parameter?_eq_none_of_not_mem hNot]
    rw [hSame]
    refine ⟨(offset.subst last.params passed).text ++ [']'], ?_⟩
    rw [List.append_assoc]
    rfl

end Table.Fetches

namespace Lowered

variable {t : Tree} {usage : Usage} {device : Device} {settings : Settings} {order : List Nat}
  {table : Table} {p depth : Nat} {name pointer : Text} {args passed : List IndexExpr}
  {last : Helper} {offset : IndexExpr}

/-- A call that leads to storage through few enough arrays is expanded to the end. -/
theorem expand_of_fetches (hL : Lowered t usage device settings order table)
    (hStem : Text.isIdentifier settings.nameStem = true)
    (hFetches : table.Fetches p name args depth last pointer offset passed) (hDepth : depth ≤ 63) :
    table.expand (ElementRef.through name args).text =
      some (last.fill (passed.map IndexExpr.text)) := by
  have hNames := hL.formedNames hStem
  obtain ⟨rounds, hRounds, hTakes⟩ := hFetches.settles.exists_takes hNames.toDistinctNames
    (fun _ hg => absurd hg List.not_mem_nil)
  have hReaches : Reaches table.helpers.toList [] maxRounds (ElementRef.through name args).text
      (last.fill (passed.map IndexExpr.text)) :=
    .expression (.access (Nat.le_trans hRounds (Nat.succ_le_succ hDepth)) hTakes)
  exact (hReaches.expandRounds_eq hNames).1

end Lowered

/-- **What inlining replaces.**  Every array of a lowered tree is a buffer under a chain of
views, and its access helpers lead to one that refers to the storage of the buffer.  The
parameters of that helper are the names of axes, and no layout name is one of them; nor is
the pointer, if the stem of names is not the letter `i` with digits.  Under at most
sixty-three views, the expanded text of the array begins with the pointer and an opening
bracket exactly where the pointer is no parameter. -/
theorem access_hygienic_iff {t : Tree} {root : Nat} {device : Device} {settings : Settings}
    {table : Table} (hBuilt : t.Built)
    (hTable : Table.ofTree t root device settings = .ok table)
    (hStem : Text.isIdentifier settings.nameStem = true) {p : Nat} {s : Symbol}
    (hs : table.get? p = some s) (hArray : s.isArray = true) :
    ∃ depth b toBuffer buffer pointer last, t.Backed p depth b toBuffer ∧
      table.get? b = some buffer ∧ buffer.attr "pointer" = .ok pointer ∧
      table.Stores p last ∧ last.params = IndexExpr.axisNames last.arity ∧
      Layout.startName pointer ∉ last.params ∧
      (∀ layout : Layout, ∀ stride ∈ layout.strideNames pointer, stride ∉ last.params) ∧
      (Text.isAxisLike settings.nameStem = false → pointer ∉ last.params) ∧
      (depth ≤ 63 → ∃ text result, table.render p = .ok text ∧
        table.expand text = some result ∧
        ((pointer ++ ['[']) <+: result ↔ pointer ∉ last.params)) := by
  obtain ⟨usage, order, hL⟩ := Lowered.of_ofTree hBuilt hTable
  obtain ⟨depth, b, toBuffer, hBacked, -, buffer, layout, written, -, -, -, hb, hKind⟩ :=
    hL.exists_backed hs hArray
  obtain ⟨shape, hShape⟩ := Option.isSome_iff_exists.mp hArray
  obtain ⟨indices, hIndices, hRender⟩ := Table.render_array hs hShape
  obtain ⟨hLength, hReadable⟩ := Shape.isReadable_of_broadcastIndices? hIndices
  obtain ⟨last, offset, passed, hFetches⟩ :=
    hL.fetches hStem hBacked hb hKind hs hShape hLength hReadable
  obtain ⟨rank, hParams⟩ := hFetches.params
  have hArity : last.params = IndexExpr.axisNames last.arity := by
    rw [Helper.arity, hParams]
    simp [IndexExpr.axisNames]
  have hBuffer := Lowered.isArray_of_buffer hKind
  have hHandle := hL.isIdentifier_handle hStem hb hBuffer
  have hNot {name : Text} (hName : Text.isAxisLike name = false) : name ∉ last.params := by
    rw [hParams]
    exact IndexExpr.not_mem_axisNames hName rank
  refine ⟨depth, b, toBuffer, buffer, buffer.handle, last, hBacked, hb,
    Symbol.attr_pointer hKind, hFetches.stores, hArity,
    hNot (Text.isAxisLike_of_underscore (Layout.underscore_mem_startName buffer.handle)), ?_,
    fun hAxis => hNot (hL.isAxisLike_handle hStem hAxis hb hBuffer), fun hDepth => ?_⟩
  · intro layout stride hStride
    obtain ⟨k, hk⟩ := List.getElem?_of_mem hStride
    exact hNot (Text.isAxisLike_of_underscore (Layout.underscore_mem_strideName hk))
  · exact ⟨_, _, hRender, hL.expand_of_fetches hStem hFetches hDepth,
      hFetches.pointer_isPrefix_iff hHandle (Shape.namesIn_of_broadcastIndices? hIndices)⟩

/-- The row of the sums along rows is a buffer under three views, and its expanded text begins
with the pointer of that buffer. -/
theorem access_hygienic_rowSums :
    ∃ table s buffer text result, Table.ofTree .rowSums 8 .cpu {} = .ok table ∧
      table.get? 3 = some s ∧ s.isArray = true ∧
      (∃ toBuffer, Tree.rowSums.Backed 3 3 0 toBuffer) ∧ table.get? 0 = some buffer ∧
      buffer.attr "pointer" = .ok "obj0".toList ∧ table.render 3 = .ok text ∧
      table.expand text = some result ∧ "obj0[".toList <+: result := by
  have hEval : ((Table.ofTree .rowSums 8 .cpu {}).toOption.bind fun table =>
      (table.get? 3).bind fun s => (table.get? 0).bind fun buffer =>
        (buffer.attr "pointer").toOption.map fun pointer => (s.isArray, pointer)) =
      some (true, "obj0".toList) := by
    decide +kernel
  obtain ⟨table, hOption, hGet⟩ := Option.bind_eq_some_iff.mp hEval
  obtain ⟨s, hs, hBuffer⟩ := Option.bind_eq_some_iff.mp hGet
  obtain ⟨buffer, hb, hPointer⟩ := Option.bind_eq_some_iff.mp hBuffer
  obtain ⟨pointer, hAttr, hPair⟩ := Option.map_eq_some_iff.mp hPointer
  obtain ⟨hArray, rfl⟩ := Prod.mk.inj hPair
  have hTable := eq_ok_of_toOption hOption
  obtain ⟨depth, b, toBuffer, buffer', pointer, last, hBacked, hb', hAttr', -, -, -, -, hStem,
    hText⟩ := access_hygienic_iff Tree.built_rowSums hTable (by decide) hs hArray
  have hChain : Tree.rowSums.Backed 3 3 0 _ :=
    .view rfl rfl rfl rfl (.view rfl rfl rfl rfl (.view rfl rfl rfl rfl (.buffer rfl rfl)))
  obtain ⟨rfl, rfl, -⟩ := hBacked.unique hChain
  rw [hb] at hb'
  cases hb'
  rw [eq_ok_of_toOption hAttr] at hAttr'
  cases hAttr'
  obtain ⟨text, result, hRender, hExpand, hStarts⟩ := hText (by decide)
  exact ⟨table, s, buffer, text, result, hTable, hs, hArray, ⟨_, hChain⟩, hb,
    eq_ok_of_toOption hAttr, hRender, hExpand, hStarts.mpr (hStem (by decide))⟩

/-- With the letter `i` as the stem of names, the first buffer has the name of the first
axis, and the index takes the place of its pointer. -/
theorem pointer_replaced_by_index :
    ∃ (settings : Settings) (table : Table) (buffer : Symbol) (text : Text),
      Text.isIdentifier settings.nameStem = true ∧
      (Tree.empty.buffer .float32 [2] [1] 0).1.Built ∧
      Table.ofTree (Tree.empty.buffer .float32 [2] [1] 0).1 0 .cpu settings = .ok table ∧
      (Tree.empty.buffer .float32 [2] [1] 0).1.Backed 0 0 0 id ∧
      table.get? 0 = some buffer ∧ buffer.attr "pointer" = .ok "i0".toList ∧
      table.render 0 = .ok text ∧
      table.expand text = some "$0[i0_start + ($0)]".toList ∧
      ¬ "i0[".toList <+: "$0[i0_start + ($0)]".toList := by
  have hEval : ((Table.ofTree (Tree.empty.buffer .float32 [2] [1] 0).1 0 .cpu
      { nameStem := "i" }).toOption.bind fun table => (table.get? 0).bind fun buffer =>
        (buffer.attr "pointer").toOption.bind fun pointer => (table.render 0).toOption.map
          fun text => (pointer, table.expand text)) =
      some ("i0".toList, some "$0[i0_start + ($0)]".toList) := by
    decide +kernel
  obtain ⟨table, hOption, hGet⟩ := Option.bind_eq_some_iff.mp hEval
  obtain ⟨buffer, hb, hAttr⟩ := Option.bind_eq_some_iff.mp hGet
  obtain ⟨pointer, hPointer, hRender⟩ := Option.bind_eq_some_iff.mp hAttr
  obtain ⟨text, hText, hPair⟩ := Option.map_eq_some_iff.mp hRender
  obtain ⟨rfl, hExpand⟩ := Prod.mk.inj hPair
  exact ⟨{ nameStem := "i" }, table, buffer, text, by decide, .buffer .empty .float32 [2] [1] 0,
    eq_ok_of_toOption hOption, .buffer rfl rfl, hb, eq_ok_of_toOption hPointer,
    eq_ok_of_toOption hText, hExpand, by decide⟩

end ArrayKernel
