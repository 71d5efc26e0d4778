import ArrayKernel.Proofs.Bodies
import ArrayKernel.Proofs.Depiction
import ArrayKernel.Proofs.Rendering

/-!
# The prelude is closed and acyclic

The helpers of a lowered tree have different names.  A body calls at most one access
helper, that of an array with a smaller number, so expanding calls ends.  The text of
a symbol calls access helpers and combining helpers of the table only, and passes as
many arguments as they have parameters.

Texts of symbols also contain the names of loop counters, whose stem is free.  A stem
with brackets or commas can call a helper that does NOT exist, or change what a call
around it passes; for other stems all calls are answered.
-/

namespace ArrayKernel

/-! ## Texts that refer to elements -/

namespace ElementRef

variable {wanted : Text → Nat → Prop}

theorem wellCalled_index {e : IndexExpr} (h : e.isReadable = true) :
    Text.WellCalled wanted e.text := by
  refine ⟨(IndexExpr.sealed_solid_text h).1, .of_callSites_eq_nil ?_⟩
  exact List.map_eq_nil_iff.mp (IndexExpr.callNames_text h)

theorem answered_stored {pointer : Text} {offset : IndexExpr}
    (hPointer : Text.isIdentifier pointer = true) (hOffset : offset.isReadable = true) :
    Text.CallsAnswered wanted (stored pointer offset).text :=
  .of_callSites_eq_nil (List.map_eq_nil_iff.mp (callNames_text_stored hPointer hOffset))

/-- A reference through a helper passes one argument for each index. -/
theorem wellCalled_through {helper : Text} {indices : List IndexExpr}
    (hHelper : Text.isIdentifier helper = true) (hIndices : ∀ e ∈ indices, e.isReadable = true)
    (hWanted : wanted helper indices.length) :
    Text.WellCalled wanted (through helper indices).text := by
  have hArgs : ∀ arg ∈ indices.map IndexExpr.text, Text.WellCalled wanted arg := by
    intro arg hArg
    obtain ⟨e, he, rfl⟩ := List.mem_map.mp hArg
    exact wellCalled_index (hIndices e he)
  have hBlank : ∀ arg, indices.map IndexExpr.text = [arg] → Text.trim arg ≠ [] := by
    intro arg hEq
    have hMem : arg ∈ indices.map IndexExpr.text := by
      rw [hEq]
      exact .head _
    obtain ⟨e, he, rfl⟩ := List.mem_map.mp hMem
    rw [Text.trim_of_solid (IndexExpr.sealed_solid_text (hIndices e he)).2]
    exact IndexExpr.text_ne_nil (hIndices e he)
  have hCount := Text.length_splitArguments_join (fun arg hArg => (hArgs arg hArg).sealed) hBlank
  rw [List.length_map] at hCount
  have hText : (through helper indices).text =
      helper ++ ("(" ++ Text.join ", " (indices.map IndexExpr.text) ++ ")") := by
    simp [text]
  rw [hText]
  exact .call hHelper hArgs (by rwa [hCount])

end ElementRef

/-! ## Calls in the bodies of helpers -/

namespace Table

/-- The helper accesses the elements of the array whose name has the number. -/
def OwnsNumbered (table : Table) (number : Nat) (h : Helper) : Prop :=
  ∃ p s stem, table.Owns p h ∧ table.get? p = some s ∧ s.name = .generated stem number

/-- One of the helpers has the name and the number of parameters, and belongs to an array
with a number below the bound. -/
def AnswersBelow (table : Table) (helpers : HelperSet) (bound : Nat) (name : Text)
    (count : Nat) : Prop :=
  ∃ g ∈ helpers, g.name = name ∧ g.arity = count ∧ ∃ k < bound, table.OwnsNumbered k g

end Table

namespace Lowered

variable {t : Tree} {usage : Usage} {device : Device} {settings : Settings} {order : List Nat}
  {table : Table} {p : Nat} {s : Symbol} {h : Helper}

theorem ownsNumbered (hL : Lowered t usage device settings order table)
    (hOwns : table.Owns p h) : table.OwnsNumbered (t.numberIn order p) h := by
  obtain ⟨s, hs, hArray, -⟩ := id hOwns
  obtain ⟨shape, storage, hShape⟩ := exists_array? hArray
  obtain ⟨n, -, -, -, hName⟩ := hL.array_node hs hShape
  exact ⟨p, s, settings.nameStem, hOwns, hs, hName⟩

/-- A body calls the helper of an array with a smaller number, which the array that has
the helper has too. -/
theorem answered_body (hL : Lowered t usage device settings order table)
    (hStem : Text.isIdentifier settings.nameStem = true) (hs : table.get? p = some s)
    (hArray : s.isArray = true) (hMem : h ∈ s.helpers) :
    ∃ number, table.OwnsNumbered number h ∧
      Text.CallsAnswered (table.AnswersBelow s.helpers number) h.body := by
  obtain ⟨q, u, hu, hOwns, hBrings, -⟩ := hL.owns_of_mem hs hArray hMem
  refine ⟨t.numberIn order q, hL.ownsNumbered hOwns, ?_⟩
  cases hL.accessBody hStem hOwns with
  | stored pointer offset hBody hPointer hReadable hArgument hNames =>
      rw [hBody]
      exact ElementRef.answered_stored hPointer hReadable
  | through r g indices hUnder hNumber hgMem hBody hArity hReadable hNames =>
      rw [hBody]
      -- the array whose helper this is has the callee, and has brought it along
      have hAnswer : table.AnswersBelow s.helpers (t.numberIn order q) g.name indices.length :=
        ⟨g, hBrings g (hgMem u hu), rfl, hArity.symm, t.numberIn order r, hNumber,
          hL.ownsNumbered hUnder⟩
      have hName := hL.isIdentifier_of_owns hStem hUnder
      exact (ElementRef.wellCalled_through hName hReadable hAnswer).answered

/-- No name is listed twice. -/
theorem nodup_names (hL : Lowered t usage device settings order table) :
    (table.helpers.toList.map Helper.name).Nodup := by
  rw [List.nodup_iff_pairwise_ne, List.pairwise_map]
  -- helpers of one name are equal, and the list is strictly sorted
  refine List.Pairwise.imp_of_mem ?_ table.helpers.sorted
  intro a b ha hb hBefore hName
  have hEq := hL.helper_eq_of_name_eq ha hb hName
  rw [hEq] at hBefore
  exact Helper.Before.irrefl b hBefore

end Lowered

/-! ## Calls in the texts of symbols -/

theorem Text.all_isWordChar_join {ts : List Text} (h : ∀ t ∈ ts, t.all isWordChar = true) :
    (join "_" ts).all isWordChar = true := by
  induction ts with
  | nil => rfl
  | cons t ts ih =>
      have ht := h t (.head _)
      cases ts with
      | nil => exact ht
      | cons u ts =>
          have hRest := ih fun v hv => h v (.tail _ hv)
          have hUnderscore : ("_" : Text).all isWordChar = true := by decide
          rw [join_cons_cons, List.all_append, List.all_append, ht, hUnderscore, hRest]
          rfl

/-- The name of an accumulator is an identifier if the handle is one. -/
theorem Symbol.isIdentifier_accumulator {handle : Text} (h : Text.isIdentifier handle = true)
    (depth : Nat) : Text.isIdentifier (accumulator handle depth) = true := by
  have hScopes : ∀ t ∈ (List.range depth).map reductionScope ++ ["acc".toList],
      t.all Text.isWordChar = true := by
    intro t ht
    rcases List.mem_append.mp ht with hScope | hSuffix
    · obtain ⟨k, -, rfl⟩ := List.mem_map.mp hScope
      have hLetter : Text.isWordChar 'r' = true := by decide
      show (Text.isWordChar 'r' && (Text.ofNat k).all Text.isWordChar) = true
      rw [hLetter, Text.all_isWordChar_ofNat]
      rfl
    · rw [List.mem_singleton.mp hSuffix]
      decide
  obtain ⟨u, us, hEq⟩ := List.exists_cons_of_ne_nil
    (List.append_ne_nil_of_right_ne_nil ((List.range depth).map reductionScope)
      (List.cons_ne_nil "acc".toList []))
  have hJoin : accumulator handle depth = handle ++ "_" ++ Text.join "_" (u :: us) := by
    unfold accumulator qualified
    rw [hEq, Text.join_cons_cons]
  rw [hJoin]
  refine Text.isIdentifier_append (Text.isIdentifier_append h (by decide)) ?_
  rw [← hEq]
  exact Text.all_isWordChar_join hScopes

namespace Table

/-- If the name is formed as that of a helper, then it is the name of a helper of the
table with the given number of parameters. -/
def Defines (table : Table) (name : Text) (count : Nat) : Prop :=
  isAccessName name = true ∨ isCombiningName name = true →
    ∃ h ∈ table.helpers, h.name = name ∧ h.arity = count

variable {table : Table}

theorem defines_of_function (name : Text) (count : Nat) (hAccess : isAccessName name = false)
    (hCombining : isCombiningName name = false) : table.Defines name count := by
  rintro (h | h)
  · rw [hAccess] at h
    exact nomatch h
  · rw [hCombining] at h
    exact nomatch h

end Table

namespace Lowered

variable {t : Tree} {usage : Usage} {device : Device} {settings : Settings} {order : List Nat}
  {table : Table} {p : Nat} {s : Symbol} {text : Text}

/-- An array in a loop domain is a call of its access helper. -/
theorem wellCalled_broadcast (hL : Lowered t usage device settings order table)
    (hStem : Text.isIdentifier settings.nameStem = true) (hs : table.get? p = some s)
    {shape domain : Shape} (hShape : s.shape? = some shape)
    (hText : s.broadcast domain = .ok text) : Text.WellCalled table.Defines text := by
  have hArray := Symbol.isArray_of_shape? hShape
  obtain ⟨indices, hIndices, rfl⟩ := (Symbol.broadcast_eq_ok_iff hShape).mp hText
  obtain ⟨hLength, hReadable⟩ := Shape.isReadable_of_broadcastIndices? hIndices
  obtain ⟨h, -, hMem, hName, hArity⟩ := hL.exists_own_helper hs hShape
  refine ElementRef.wellCalled_through (hL.isIdentifier_accessName_of hStem hs hArray) hReadable ?_
  intro _
  exact ⟨h, mem_helpers hs hMem, hName, hArity.trans hLength.symm⟩

/-- A reduction combines its accumulator and its operand by a helper of the table. -/
theorem wellCalled_reduction {op : ReduceOp} {dtype : ScalarType}
    (hMem : op.helper dtype device.dialect ∈ table.helpers) {target operand : Text}
    (hTarget : Text.isIdentifier target = true) (hOperand : Text.WellCalled table.Defines operand) :
    Text.WellCalled table.Defines
      (target ++ " = " ++ op.helperName dtype ++ "(" ++ target ++ ", " ++ operand ++ ")") := by
  have hAccumulator : Text.WellCalled table.Defines target := .of_isIdentifier hTarget
  have hArgs : ∀ arg ∈ [target, operand], Text.WellCalled table.Defines arg := by
    intro arg hArg
    rcases List.mem_cons.mp hArg with rfl | hArg
    · exact hAccumulator
    · rw [List.mem_singleton.mp hArg]
      exact hOperand
  have hCount : (Text.splitArguments (Text.join ", " [target, operand])).length = 2 :=
    Text.length_splitArguments_join (fun arg hArg => (hArgs arg hArg).sealed) fun _ => nofun
  have hWanted : table.Defines (op.helperName dtype)
      (Text.splitArguments (Text.join ", " [target, operand])).length := by
    intro _
    exact ⟨_, hMem, rfl, hCount.symm⟩
  have hCall := Text.WellCalled.call (op.isIdentifier_helperName dtype) hArgs hWanted
  have hEquals : ("=" : Text).all Text.isPlainChar = true := by decide
  have hWhole := hAccumulator.between hCall hEquals
  simpa using hWhole

theorem isIdentifier_handle_of_reduction (hL : Lowered t usage device settings order table)
    (hStem : Text.isIdentifier settings.nameStem = true) (hs : table.get? p = some s)
    {links : Links} {op : ReduceOp} {scopes : Nat} (hKind : s.kind = .reduction links op scopes) :
    Text.isIdentifier s.handle = true := by
  have hNot : ∀ level, s.kind ≠ .placeholder level := by
    intro level hEq
    rw [hKind] at hEq
    cases hEq
  rw [hL.handle_eq hs hNot]
  exact Text.isIdentifier_append hStem (Text.all_isWordChar_ofNat _)

theorem reduction_entry (hL : Lowered t usage device settings order table)
    (hs : table.get? p = some s) {links : Links} {op : ReduceOp} {scopes : Nat}
    (hKind : s.kind = .reduction links op scopes) :
    ∃ n axes, t.get? p = some n ∧ n.op = .reduce op axes ∧ links = n.links p ∧
      op.helper s.dtype device.dialect ∈ s.helpers := by
  obtain ⟨n, hn, ⟨layout, hOp, hShape, rfl⟩ | ⟨hNot, hMakes⟩⟩ := hL.entry hs
  · cases hKind
  · cases hMakes with
    | reduction hOp =>
        cases hKind
        exact ⟨n, _, hn, hOp, rfl, HelperSet.mem_insert.mpr (.inl rfl)⟩
    | _ => cases hKind

/-- The text of an operand is well called if the texts of symbols are. -/
theorem wellCalled_asOperand (hL : Lowered t usage device settings order table)
    (hStem : Text.isIdentifier settings.nameStem = true) {domain : Option Shape}
    (h : table.AsOperand (fun _ _ inner => Text.WellCalled table.Defines inner) domain p text) :
    Text.WellCalled table.Defines text := by
  cases h with
  | accumulator hs hKind =>
      have hHandle := hL.isIdentifier_handle_of_reduction hStem hs hKind
      exact .of_isIdentifier (Symbol.isIdentifier_accumulator hHandle 1)
  | element hs hShape hDomain hText => exact hL.wellCalled_broadcast hStem hs hShape hText
  | grouped hs hKind hGroups hText => exact hText.parenthesized
  | plain hs hExposed hArray hText => exact hText

/-- One step of rendering: the text of a symbol is well called if the texts of its operands
are. -/
theorem wellCalled_of_composes (hL : Lowered t usage device settings order table)
    (hStem : Text.isIdentifier settings.nameStem = true)
    (hInduction : settings.inductionStem.all Text.isPlainChar = true) {domain : Option Shape}
    (h : table.Composes (table.AsOperand fun _ _ inner => Text.WellCalled table.Defines inner)
      p domain text) : Text.WellCalled table.Defines text := by
  cases h with
  | array hs hShape hText => exact hL.wellCalled_broadcast hStem hs hShape hText
  | scalar hs hScalar =>
      rcases hL.name_cases hs with ⟨level, -, hHandle⟩ | ⟨-, hHandle⟩
      · -- the stem of loop counters need not be an identifier
        rw [hHandle]
        refine .of_all_isPlainChar ?_
        rw [List.all_append, hInduction]
        have hDigits := List.all_eq_true.mp (Text.all_isWordChar_ofNat level)
        exact List.all_eq_true.mpr fun c hc => Text.isPlainChar_of_isWordChar (hDigits c hc)
      · rw [hHandle]
        exact .of_isIdentifier (Text.isIdentifier_append hStem (Text.all_isWordChar_ofNat _))
  | binary hs hKind ha hb hl hr =>
      exact Form.wellCalled_binaryText
        ((hL.regular_of_binary hs hKind).admits Table.defines_of_function)
        (hL.wellCalled_asOperand hStem hl) (hL.wellCalled_asOperand hStem hr)
  | unary hs hKind ha hl =>
      exact Form.wellCalled_unaryText
        ((hL.regular_of_unary hs hKind).admits Table.defines_of_function)
        (hL.wellCalled_asOperand hStem hl)
  | reduction hs hKind ha hl =>
      obtain ⟨-, -, -, -, -, hMem⟩ := hL.reduction_entry hs hKind
      have hHandle := hL.isIdentifier_handle_of_reduction hStem hs hKind
      exact wellCalled_reduction (mem_helpers hs hMem) (Symbol.isIdentifier_accumulator hHandle _)
        (hL.wellCalled_asOperand hStem hl)
  | loop hs hKind ha hl => exact hL.wellCalled_asOperand hStem hl

/-- Every text that rendering gives, to whatever depth, is well called. -/
theorem wellCalled_renderWithin (hL : Lowered t usage device settings order table)
    (hStem : Text.isIdentifier settings.nameStem = true)
    (hInduction : settings.inductionStem.all Text.isPlainChar = true) {depth : Nat}
    {domain : Option Shape} (hText : table.renderWithin depth p domain = .ok text) :
    Text.WellCalled table.Defines text :=
  Table.renderWithin_induction (P := fun _ _ inner => Text.WellCalled table.Defines inner)
    (fun h => hL.wellCalled_of_composes hStem hInduction h) hText

end Lowered

/-- **The prelude is closed, unambiguous and acyclic.**  For a built tree and a stem of
names that is an identifier: no name is defined twice; every array has a helper of its
own, named by its handle, with one parameter for each axis; every call in the body of
one of its helpers is closed and is a call of another of its helpers, with all its
arguments, that belongs to an array with a smaller number.

If moreover no bracket and no comma is in the stem of loop counters, then in every text
that rendering gives, every call is closed, and every call of a name that is formed as
that of a helper is a call of a helper of the table, with all its arguments. -/
theorem prelude_closed_acyclic {t : Tree} {root : Nat} {device : Device} {settings : Settings}
    {table : Table} (hBuilt : t.Built) (hTable : Table.ofTree t root device settings = .ok table)
    (hStem : Text.isIdentifier settings.nameStem = true) :
    (table.helpers.toList.map Helper.name).Nodup ∧
      (∀ {p : Nat} {s : Symbol} {shape : Shape}, table.get? p = some s → s.shape? = some shape →
        (∃ h ∈ s.helpers, h.name = s.handle ++ "_at" ∧ h.arity = shape.length) ∧
          ∀ h ∈ s.helpers, ∃ number, table.OwnsNumbered number h ∧
            Text.CallsAnswered (table.AnswersBelow s.helpers number) h.body) ∧
      (settings.inductionStem.all Text.isPlainChar = true → ∀ {p : Nat} {text : Text},
        table.render p = .ok text → Text.CallsAnswered table.Defines text) := by
  obtain ⟨usage, order, hL⟩ := Lowered.of_ofTree hBuilt hTable
  refine ⟨hL.nodup_names, ?_, ?_⟩
  · intro p s shape hs hShape
    have hArray := Symbol.isArray_of_shape? hShape
    obtain ⟨h, -, hMem, hName, hArity⟩ := hL.exists_own_helper hs hShape
    exact ⟨⟨h, hMem, hName, hArity⟩, fun g hg => hL.answered_body hStem hs hArray hg⟩
  · intro hInduction p text hText
    exact (hL.wellCalled_renderWithin hStem hInduction hText).answered

/-- In the sums along rows, the row has a helper with two parameters, and the text of the
sums calls a combining helper and the access helpers of two arrays. -/
theorem prelude_closed_rowSums :
    ∃ table s text, Table.ofTree .rowSums 8 .cpu {} = .ok table ∧ table.get? 3 = some s ∧
      (table.helpers.toList.map Helper.name).Nodup ∧
      (∃ h ∈ s.helpers, h.name = s.handle ++ "_at" ∧ h.arity = 2) ∧
      (∀ h ∈ s.helpers, ∃ number, table.OwnsNumbered number h ∧
        Text.CallsAnswered (table.AnswersBelow s.helpers number) h.body) ∧
      table.render 8 = .ok text ∧
      Text.callNames (Text.pieces text) =
        ["reduce_add_f32".toList, "obj3_at".toList, "obj6_at".toList] ∧
      Text.CallsAnswered table.Defines text := by
  have hEval : ((Table.ofTree .rowSums 8 .cpu {}).toOption.bind fun table =>
      (table.get? 3).bind fun s => (table.render 8).toOption.map fun text =>
        (s.shape?, Text.callNames (Text.pieces text))) =
      some (some [1, 2], ["reduce_add_f32".toList, "obj3_at".toList, "obj6_at".toList]) := by
    decide +kernel
  obtain ⟨table, hOption, hGet⟩ := Option.bind_eq_some_iff.mp hEval
  obtain ⟨s, hs, hRender⟩ := Option.bind_eq_some_iff.mp hGet
  obtain ⟨text, hText, hCalls⟩ := Option.map_eq_some_iff.mp hRender
  obtain ⟨hShape, hNames⟩ := Prod.mk.inj hCalls
  have hTable := eq_ok_of_toOption hOption
  have hRendered := eq_ok_of_toOption hText
  obtain ⟨hNodup, hArrays, hTexts⟩ :=
    prelude_closed_acyclic Tree.built_rowSums hTable (by decide)
  obtain ⟨hOwn, hBodies⟩ := hArrays hs hShape
  exact ⟨table, s, text, hTable, hs, hNodup, hOwn, hBodies, hRendered, hNames,
    hTexts (by decide) hRendered⟩

/-- A stem of loop counters with parentheses can call a helper that does not exist. -/
theorem counter_calls_unknown_helper :
    ∃ (settings : Settings) (table : Table) (text : Text),
      Text.isIdentifier settings.nameStem = true ∧ (Tree.empty.placeholder 0).1.Built ∧
        Table.ofTree (Tree.empty.placeholder 0).1 0 .cpu settings = .ok table ∧
          table.helpers.toList = [] ∧ table.render 0 = .ok text ∧ text = "q_at()0".toList ∧
            ¬ Text.CallsAnswered table.Defines text := by
  have hEval : ((Table.ofTree (Tree.empty.placeholder 0).1 0 .cpu
      { inductionStem := "q_at()" }).toOption.bind fun table =>
        (table.render 0).toOption.map fun text => (table.helpers.toList, text)) =
      some ([], "q_at()0".toList) := by
    decide +kernel
  obtain ⟨table, hOption, hRender⟩ := Option.bind_eq_some_iff.mp hEval
  obtain ⟨text, hText, hPair⟩ := Option.map_eq_some_iff.mp hRender
  obtain ⟨hHelpers, rfl⟩ := Prod.mk.inj hPair
  refine ⟨{ inductionStem := "q_at()" }, table, _, by decide, .placeholder .empty 0,
    eq_ok_of_toOption hOption, hHelpers, eq_ok_of_toOption hText, rfl, ?_⟩
  intro hAnswered
  have hSite : ("q_at".toList, ")0".toList) ∈ Text.callSites (Text.pieces "q_at()0".toList) := by
    decide
  obtain ⟨count, -, hDefines⟩ := hAnswered _ hSite
  obtain ⟨h, hMem, -⟩ := hDefines (.inl (by decide))
  have hNone : h ∈ table.helpers.toList := hMem
  rw [hHelpers] at hNone
  exact absurd hNone List.not_mem_nil

end ArrayKernel
