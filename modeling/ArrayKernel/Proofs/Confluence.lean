import ArrayKernel.Proofs.Chains
import ArrayKernel.Proofs.Prelude

/-!
# Expanding the texts of symbols

The text of a symbol is an expression in calls of access helpers, or a statement that
combines an accumulator with one.  Expanding it leads to the same text in every order of
the helpers, and no call is left, as long as every array in it is under at most
sixty-three views: then every call settles within the rounds that are made.  A table with
at most sixty-four helpers has no deeper arrays.

Nothing is said about texts with deeper arrays: there the rounds can end before the calls
do, and what is left does NOT have to be the same in every order.
-/

namespace ArrayKernel

/-! ## Other orders of the helpers -/

theorem DistinctNames.perm {helpers gs : List Helper} (h : DistinctNames helpers)
    (hPerm : gs.Perm helpers) : DistinctNames gs where
  identifier := fun g hg => h.identifier g (hPerm.mem_iff.mp hg)
  eq_of_name_eq := fun f hf g hg => h.eq_of_name_eq f (hPerm.mem_iff.mp hf) g (hPerm.mem_iff.mp hg)

theorem FormedNames.perm {helpers gs : List Helper} (h : FormedNames helpers)
    (hPerm : gs.Perm helpers) : FormedNames gs where
  toDistinctNames := h.toDistinctNames.perm hPerm
  formed := fun g hg => h.formed g (hPerm.mem_iff.mp hg)

theorem Settles.perm {helpers gs : List Helper} {n : Nat} {x result : Text}
    (h : Settles helpers n x result) (hPerm : gs.Perm helpers) : Settles gs n x result := by
  induction h with
  | atom hAtom => exact .atom hAtom
  | call hMem hCall hRest ih => exact .call (hPerm.mem_iff.mpr hMem) hCall ih

/-- In every order of the helpers of the table, the expression leads to the result within
the given number of rounds. -/
def Table.LeadsTo (table : Table) (n : Nat) (text result : Text) : Prop :=
  ∀ gs : List Helper, gs.Perm table.helpers.toList → Leads gs [] n text result

namespace Tree

/-- Every array to which a path of elementwise nodes leads from a position is under at most
the given number of views. -/
def Shallow (t : Tree) (n start : Nat) : Prop :=
  ∀ ⦃path q toOperand depth b toBuffer⦄, t.Reached start path q toOperand →
    t.Backed q depth b toBuffer → depth ≤ n

theorem Shallow.operand {t : Tree} {k p c : Nat} {n m : Node} {slot : Slot} (h : t.Shallow k p)
    (hNode : t.get? p = some n) (hElementwise : n.op.isElementwise = true)
    (hSlot : n.operand? slot = some c) (hChild : t.get? c = some m) : t.Shallow k c :=
  fun _ _ _ _ _ _ hReached hBacked =>
    h (.operand hNode hElementwise hSlot hChild hReached) hBacked

end Tree

/-- An expression: its text leads somewhere, if it is that of no reduction and the arrays in
it are under few enough views. -/
def Table.LeadsWithin (table : Table) (t : Tree) (k p : Nat) (_ : Option Shape) (text : Text) :
    Prop :=
  (∀ s, table.get? p = some s → ∀ links op scopes, s.kind ≠ .reduction links op scopes) →
    t.Shallow k p → ∃ result, table.LeadsTo (k + 1) text result

namespace Lowered

variable {t : Tree} {usage : Usage} {device : Device} {settings : Settings} {order : List Nat}
  {table : Table} {p k : Nat} {s : Symbol} {text : Text}

theorem formedNames (hL : Lowered t usage device settings order table)
    (hStem : Text.isIdentifier settings.nameStem = true) : FormedNames table.helpers.toList where
  toDistinctNames := hL.distinctNames hStem
  formed := by
    intro h hMem
    rcases hL.helper_cases hMem with ⟨q, s, -, -, -, hName⟩ | ⟨op, dtype, rfl⟩
    · rw [hName]
      exact .inl (isAccessName_accessName s.handle)
    · have hCombining : isCombiningName (op.helperName dtype) = true := by
        unfold isCombiningName ReduceOp.helperName
        rw [List.append_assoc, List.append_assoc]
        exact List.isPrefixOf_iff_prefix.mpr (List.prefix_append _ _)
      exact .inr hCombining

/-- An array in a loop domain is a call of its access helper, which settles. -/
theorem leads_broadcast (hL : Lowered t usage device settings order table)
    (hStem : Text.isIdentifier settings.nameStem = true) (hs : table.get? p = some s)
    (hShallow : t.Shallow k p) {shape domain : Shape} (hShape : s.shape? = some shape)
    (hText : s.broadcast domain = .ok text) : ∃ result, table.LeadsTo (k + 1) text result := by
  have hArray := Symbol.isArray_of_shape? hShape
  obtain ⟨indices, hIndices, rfl⟩ := (Symbol.broadcast_eq_ok_iff hShape).mp hText
  obtain ⟨hLength, hReadable⟩ := Shape.isReadable_of_broadcastIndices? hIndices
  obtain ⟨depth, b, toBuffer, hBacked, -, buffer, layout, written, -, -, -, hb, hKind⟩ :=
    hL.exists_backed hs hArray
  obtain ⟨last, offset, passed, hFetches⟩ :=
    hL.fetches hStem hBacked hb hKind hs hShape hLength hReadable
  have hDepth := hShallow .here hBacked
  refine ⟨last.fill (passed.map IndexExpr.text), fun gs hPerm => ?_⟩
  obtain ⟨rounds, hRounds, hTakes⟩ := (hFetches.settles.perm hPerm).exists_takes
    ((hL.distinctNames hStem).perm hPerm) (fun _ hg => absurd hg List.not_mem_nil)
  exact .access (by omega) hTakes

/-- The text of an operand leads somewhere if the texts of symbols other than reductions
do. -/
theorem leads_asOperand (hL : Lowered t usage device settings order table)
    (hStem : Text.isIdentifier settings.nameStem = true) {domain : Option Shape}
    (hShallow : t.Shallow k p) (h : table.AsOperand (table.LeadsWithin t k) domain p text) :
    ∃ result, table.LeadsTo (k + 1) text result := by
  cases h with
  | accumulator hs hKind =>
      have hHandle := hL.isIdentifier_handle_of_reduction hStem hs hKind
      exact ⟨_, fun _ _ => .atom (.of_isIdentifier (Symbol.isIdentifier_accumulator hHandle 1))⟩
  | element hs hShape hDomain hText => exact hL.leads_broadcast hStem hs hShallow hShape hText
  | grouped hs hKind hGroups hText =>
      have hNot : ∀ u, table.get? p = some u → ∀ links op scopes,
          u.kind ≠ .reduction links op scopes := by
        intro u hu links op scopes hEq
        cases hs.symm.trans hu
        cases hKind.symm.trans hEq
      obtain ⟨result, hResult⟩ := hText hNot hShallow
      exact ⟨_, fun gs hPerm => .parenthesized (hResult gs hPerm)⟩
  | plain hs hExposed hArray hText =>
      refine hText (fun u hu links op scopes hEq => ?_) hShallow
      cases hs.symm.trans hu
      rw [hEq] at hExposed
      cases hExposed

/-- The paths to arrays go on from an elementwise node to its operands. -/
theorem shallow_operand (hL : Lowered t usage device settings order table)
    (hs : table.get? p = some s)
    (hNot : ∀ links op scopes, s.kind ≠ .reduction links op scopes) (hShallow : t.Shallow k p)
    {links : Links} (hLinks : s.kind.composed? = some links) {c : Nat} {u : Symbol}
    (hLink : links.lhs = some c ∨ links.rhs = some c) (hu : table.get? c = some u) :
    t.Shallow k c := by
  obtain ⟨n, hn, -⟩ := hL.entry hs
  obtain ⟨m, hm, -⟩ := hL.entry hu
  obtain ⟨rfl, -⟩ := hL.links_of_composed hs hn hLinks
  have hElementwise := (hL.isElementwise_iff hs hn).mpr ⟨by rw [hLinks]; rfl, hNot⟩
  rcases hLink with hFirst | hSecond
  · have hSlot : n.operand? .first = some c := hFirst
    exact hShallow.operand hn hElementwise hSlot hm
  · have hSlot : n.operand? .second = some c := hSecond
    exact hShallow.operand hn hElementwise hSlot hm

/-- One step of rendering: the text of a symbol leads somewhere if the texts of its operands
do. -/
theorem leads_of_composes (hL : Lowered t usage device settings order table)
    (hStem : Text.isIdentifier settings.nameStem = true)
    (hInduction : Text.isIdentifier settings.inductionStem = true) {domain : Option Shape}
    (h : table.Composes (table.AsOperand (table.LeadsWithin t k)) p domain text) :
    table.LeadsWithin t k p domain text := by
  intro hNot hShallow
  have hForeign {gs : List Helper} (hPerm : gs.Perm table.helpers.toList) :=
    ((hL.formedNames hStem).perm hPerm).foreign
  have hOperand {s : Symbol} {links : Links} {c : Nat} {inner : Option Shape} {l : Text}
      (hs : table.get? p = some s) (hLinks : s.kind.composed? = some links)
      (hLink : links.lhs = some c ∨ links.rhs = some c)
      (hl : table.AsOperand (table.LeadsWithin t k) inner c l) :
      ∃ result, table.LeadsTo (k + 1) l result := by
    obtain ⟨u, hu⟩ := hl.exists_symbol
    have hBelow := hL.shallow_operand hs (hNot s hs) hShallow hLinks hLink hu
    exact hL.leads_asOperand hStem hBelow hl
  cases h with
  | array hs hShape hText => exact hL.leads_broadcast hStem hs hShallow hShape hText
  | scalar hs hScalar =>
      refine ⟨_, fun _ _ => .atom (.of_isIdentifier ?_)⟩
      rcases hL.name_cases hs with ⟨level, -, hHandle⟩ | ⟨-, hHandle⟩
      · rw [hHandle]
        exact Text.isIdentifier_append hInduction (Text.all_isWordChar_ofNat _)
      · rw [hHandle]
        exact Text.isIdentifier_append hStem (Text.all_isWordChar_ofNat _)
  | @binary s links form a b l r hs hKind ha hb hl hr =>
      have hLinks : s.kind.composed? = some links := by
        rw [hKind]
        rfl
      have hForm := hL.regular_of_binary hs hKind
      obtain ⟨left, hLeft⟩ := hOperand hs hLinks (.inl ha) hl
      obtain ⟨right, hRight⟩ := hOperand hs hLinks (.inr hb) hr
      exact ⟨_, fun gs hPerm => .binary (hForm.admits (hForeign hPerm)) hForm.isDense
        (hLeft gs hPerm) (hRight gs hPerm)⟩
  | unary hs hKind ha hl =>
      have hForm := hL.regular_of_unary hs hKind
      obtain ⟨inner, hInner⟩ := hOperand hs (by rw [hKind]; rfl) (.inl ha) hl
      exact ⟨_, fun gs hPerm => .unary (hForm.admits (hForeign hPerm)) hForm.isDense
        (hInner gs hPerm)⟩
  | reduction hs hKind =>
      -- the text of a reduction is a statement, which no operand is
      exact absurd hKind (hNot _ hs _ _ _)
  | loop hs hKind ha hl => exact hOperand hs (by rw [hKind]; rfl) (.inl ha) hl

/-- The text of every symbol reaches a result, in every order of the helpers. -/
theorem reaches_render (hL : Lowered t usage device settings order table)
    (hStem : Text.isIdentifier settings.nameStem = true)
    (hInduction : Text.isIdentifier settings.inductionStem = true)
    (hShallow : ∀ lead start, t.DomainAt p lead start → t.Shallow k start)
    (hText : table.render p = .ok text) :
    ∃ result, ∀ gs : List Helper, gs.Perm table.helpers.toList →
      Reaches gs [] (k + 1) text result := by
  have hLeads := Table.composes_renderWithin
    (fun h => hL.leads_of_composes (k := k) hStem hInduction h) hText
  obtain ⟨s, hs⟩ := hLeads.exists_symbol
  by_cases hReduction : ∃ links op scopes, s.kind = .reduction links op scopes
  · obtain ⟨links, op, scopes, hKind⟩ := hReduction
    obtain ⟨n, axes, hn, hOp, rfl, hMem⟩ := hL.reduction_entry hs hKind
    obtain ⟨c, l, hc, hl, rfl⟩ := hLeads.of_reduction hs hKind
    have hDomain : t.DomainAt p [.first] c := by
      refine ⟨n, hn, ?_⟩
      rw [hOp]
      exact ⟨rfl, hc⟩
    obtain ⟨result, hResult⟩ := hL.leads_asOperand hStem (hShallow _ c hDomain) hl
    have hTarget : Text.isIdentifier (s.target scopes) = true :=
      Symbol.isIdentifier_accumulator (hL.isIdentifier_handle_of_reduction hStem hs hKind) _
    refine ⟨s.target scopes ++ (" = " ++
      (op.helper s.dtype device.dialect).fill [s.target scopes, result]), fun gs hPerm => ?_⟩
    have hStatement := Reaches.combined (hPerm.mem_iff.mpr (mem_helpers hs hMem))
      (.inr (Nat.succ_pos k)) hTarget (hResult gs hPerm)
    simpa [Helper.callOf, ReduceOp.helper] using hStatement
  · have hNot : ∀ u, table.get? p = some u → ∀ links op scopes,
        u.kind ≠ .reduction links op scopes := by
      intro u hu links op scopes hKind
      cases hs.symm.trans hu
      exact hReduction ⟨links, op, scopes, hKind⟩
    obtain ⟨n, hn, -⟩ := hL.entry hs
    have hDomain : t.DomainAt p [] p := by
      refine ⟨n, hn, ?_⟩
      split
      · next op axes hOp => exact absurd (hL.kind_of_reduce hn hs hOp) (hNot s hs _ _ _)
      · exact ⟨rfl, rfl⟩
    obtain ⟨result, hResult⟩ :=
      hL.leads_of_composes hStem hInduction hLeads hNot (hShallow _ p hDomain)
    exact ⟨result, fun gs hPerm => .expression (hResult gs hPerm)⟩

/-- Texts whose arrays are under few enough views have one expansion, which no helper is
left in. -/
theorem expandAll_render (hL : Lowered t usage device settings order table)
    (hStem : Text.isIdentifier settings.nameStem = true)
    (hInduction : Text.isIdentifier settings.inductionStem = true)
    (hShallow : ∀ lead start, t.DomainAt p lead start → t.Shallow 63 start)
    (hText : table.render p = .ok text) :
    ∃ result, (∀ h ∈ table.helpers, h.name ∉ Text.callNames (Text.pieces result)) ∧
      ∀ gs : List Helper, gs.Perm table.helpers.toList → expandAll gs text = some result := by
  obtain ⟨result, hReaches⟩ := hL.reaches_render hStem hInduction hShallow hText
  have hNames := hL.formedNames hStem
  refine ⟨result, ((hReaches _ (.refl _)).expandRounds_eq hNames).2, fun gs hPerm => ?_⟩
  exact ((hReaches gs hPerm).expandRounds_eq (hNames.perm hPerm)).1

end Lowered

/-! ## Counting helpers -/

namespace HelperSet

theorem nodup (helpers : HelperSet) : helpers.toList.Nodup := by
  refine helpers.sorted.imp fun {g h} hBefore hEq => ?_
  rw [hEq] at hBefore
  exact Helper.Before.irrefl h hBefore

theorem length_le_of_subset {helpers gs : HelperSet} (h : ∀ g ∈ gs, g ∈ helpers) :
    gs.toList.length ≤ helpers.toList.length :=
  gs.nodup.length_le_of_subset h

theorem length_lt_of_subset {helpers gs : HelperSet} (h : ∀ g ∈ gs, g ∈ helpers) {own : Helper}
    (hOwn : own ∈ helpers) (hNot : own ∉ gs) : gs.toList.length < helpers.toList.length := by
  have hNodup : (own :: gs.toList).Nodup := List.nodup_cons.mpr ⟨hNot, gs.nodup⟩
  refine hNodup.length_le_of_subset fun g hg => ?_
  rcases List.mem_cons.mp hg with rfl | hg
  · exact hOwn
  · exact h g hg

end HelperSet

namespace Lowered

variable {t : Tree} {usage : Usage} {device : Device} {settings : Settings} {order : List Nat}
  {table : Table} {p q : Nat} {s : Symbol}

/-- An array has more helpers than views. -/
theorem depth_lt_length_helpers (hL : Lowered t usage device settings order table)
    {depth b : Nat} {toBuffer : List Nat → List Nat} (hBacked : t.Backed p depth b toBuffer)
    (hs : table.get? p = some s) (hArray : s.isArray = true) :
    depth < s.helpers.toList.length := by
  induction hBacked generalizing s with
  | buffer hNode hOp =>
      obtain ⟨h, u, hu, -, hMem, -⟩ := hL.exists_owns hs hArray
      rw [hs] at hu
      cases hu
      exact List.length_pos_of_mem hMem
  | view hNode hOp hLhs hChild hRest ih =>
      cases hL.arrayEntry hs hArray with
      | buffer n layout written hNode' hOp' =>
          rw [hNode] at hNode'
          cases hNode'
          rw [hOp] at hOp'
          cases hOp'
      | view n m v child operand under element hNode' hOp' hLhs' hChild' hOperand hUnder hMatrix
          hElement hNumber hKind hHelpers =>
          rw [hNode] at hNode'
          cases hNode'
          rw [hLhs] at hLhs'
          cases hLhs'
          have hArrayUnder := isArray_of_array? hUnder
          have hMem := (hHelpers _).mpr (.inl rfl)
          -- the helper of the view is none of the array under it
          have hNot := hL.not_mem_of_numberIn_lt ⟨s, hs, hArray, hMem, rfl⟩ hOperand hArrayUnder
            hNumber
          have hMore := HelperSet.length_lt_of_subset
            (fun g hg => (hHelpers g).mpr (.inr hg)) hMem hNot
          exact Nat.lt_of_le_of_lt (ih hOperand hArrayUnder) hMore

theorem isArray_of_backed (hL : Lowered t usage device settings order table) {depth b : Nat}
    {toBuffer : List Nat → List Nat} (hBacked : t.Backed p depth b toBuffer)
    (hs : table.get? p = some s) : s.isArray = true := by
  obtain ⟨n, hn, ⟨layout, hOp, hShape, rfl⟩ | ⟨hNot, hMakes⟩⟩ := hL.entry hs
  · rfl
  · have hNode : (∃ strides start, n.op = .buffer strides start) ∨ ∃ v, n.op = .view v := by
      cases hBacked with
      | buffer hNode hOp =>
          rw [hn] at hNode
          cases hNode
          exact .inl ⟨_, _, hOp⟩
      | view hNode hOp =>
          rw [hn] at hNode
          cases hNode
          exact .inr ⟨_, hOp⟩
    cases hMakes with
    | buffer => exact absurd rfl (hNot _ _ _)
    | view => rfl
    | hostScalar hOp | placeholder hOp | binary hOp | unary hOp | reduction hOp | loop hOp =>
        rw [hOp] at hNode
        rcases hNode with ⟨strides, start, hEq⟩ | ⟨v, hEq⟩
        · cases hEq
        · cases hEq

theorem exists_of_reached (hL : Lowered t usage device settings order table)
    {path : List Slot} {toOperand : List Nat → List Nat} (hReached : t.Reached p path q toOperand)
    (hs : table.get? p = some s) : ∃ u, table.get? q = some u := by
  induction hReached generalizing s with
  | here => exact ⟨s, hs⟩
  | @operand p c q slot path n m toOperand hNode hElementwise hSlot hChild hRest ih =>
      have hInner : n.op.family ≠ .leaf := by
        intro hLeaf
        rw [Operation.isElementwise_eq_false (.inl hLeaf)] at hElementwise
        cases hElementwise
      obtain ⟨u, hu⟩ := hL.exists_child hs hNode hInner (Node.mem_children_of_operand? hSlot)
      exact ih hu

/-- The arrays in a text are under fewer views than the table has helpers. -/
theorem shallow_of_length_helpers (hL : Lowered t usage device settings order table)
    (hs : table.get? p = some s) {lead : List Slot} {start : Nat}
    (hDomain : t.DomainAt p lead start) {k : Nat} (hCount : table.helpers.toList.length ≤ k + 1) :
    t.Shallow k start := by
  obtain ⟨u, hu⟩ : ∃ u, table.get? start = some u := by
    obtain ⟨n, hn, hStart⟩ := hDomain
    split at hStart
    · next op axes hOp =>
      have hInner : n.op.family ≠ .leaf := by
        rw [hOp]
        intro hLeaf
        cases hLeaf
      exact hL.exists_child hs hn hInner (Node.mem_children.mpr (.inl hStart.2))
    · rw [hStart.2]
      exact ⟨s, hs⟩
  intro path q toOperand depth b toBuffer hReached hBacked
  obtain ⟨x, hx⟩ := hL.exists_of_reached hReached hu
  have hDepth := hL.depth_lt_length_helpers hBacked hx (hL.isArray_of_backed hBacked hx)
  have hFew := HelperSet.length_le_of_subset fun h hMem => mem_helpers hx hMem
  omega

end Lowered

/-- In a table with at most as many helpers as rounds are made, the order of the helpers does
not matter: the text of every symbol is expanded to one result, in which no helper is
called. -/
theorem expansion_order_irrelevant {t : Tree} {root : Nat} {device : Device}
    {settings : Settings} {table : Table} (hBuilt : t.Built)
    (hTable : Table.ofTree t root device settings = .ok table)
    (hStem : Text.isIdentifier settings.nameStem = true)
    (hInduction : Text.isIdentifier settings.inductionStem = true)
    (hCount : table.helpers.toList.length ≤ 64) {p : Nat} {text : Text}
    (hText : table.render p = .ok text) :
    ∃ result, table.expand text = some result ∧
      (∀ gs : List Helper, gs.Perm table.helpers.toList → expandAll gs text = some result) ∧
      ∀ h ∈ table.helpers, h.name ∉ Text.callNames (Text.pieces result) := by
  obtain ⟨usage, order, hL⟩ := Lowered.of_ofTree hBuilt hTable
  obtain ⟨s, hs⟩ := (Table.composes_of_renderWithin hText).exists_symbol
  obtain ⟨result, hFree, hOrders⟩ := hL.expandAll_render hStem hInduction
    (fun _ _ hDomain => hL.shallow_of_length_helpers hs hDomain hCount) hText
  exact ⟨result, hOrders _ (.refl _), hOrders, hFree⟩

/-- The text of the sums along rows has one call in another; its six helpers give the same
in their order and in the reverse order. -/
theorem expansion_order_rowSums :
    ∃ table text, Table.ofTree .rowSums 8 .cpu {} = .ok table ∧
      table.helpers.toList.length = 6 ∧ table.render 8 = .ok text ∧
      text = ("obj8_r0_acc = reduce_add_f32(obj8_r0_acc, " ++
        "((obj3_at(0, $1) * obj4) + obj6_at($0, $1)))").toList ∧
      ∃ result, result = ("obj8_r0_acc = ((obj8_r0_acc) + " ++
          "(((obj0[obj0_start + (($1))*(obj0_stride1 + obj0_stride0)] * obj4) + " ++
          "obj6[obj6_start + ($0)*obj6_stride0 + ($1)])))").toList ∧
        table.expand text = some result ∧
        expandAll table.helpers.toList.reverse text = some result := by
  have hEval : ((Table.ofTree .rowSums 8 .cpu {}).toOption.bind fun table =>
      (table.render 8).toOption.bind fun text => (table.expand text).map fun result =>
        (table.helpers.toList.length, text, result)) =
      some (6, ("obj8_r0_acc = reduce_add_f32(obj8_r0_acc, " ++
          "((obj3_at(0, $1) * obj4) + obj6_at($0, $1)))").toList,
        ("obj8_r0_acc = ((obj8_r0_acc) + " ++
          "(((obj0[obj0_start + (($1))*(obj0_stride1 + obj0_stride0)] * obj4) + " ++
          "obj6[obj6_start + ($0)*obj6_stride0 + ($1)])))").toList) := by
    decide +kernel
  obtain ⟨table, hOption, hRender⟩ := Option.bind_eq_some_iff.mp hEval
  obtain ⟨text, hText, hExpand⟩ := Option.bind_eq_some_iff.mp hRender
  obtain ⟨result, hResult, hTriple⟩ := Option.map_eq_some_iff.mp hExpand
  obtain ⟨hLength, hPair⟩ := Prod.mk.inj hTriple
  obtain ⟨hTextEq, hResultEq⟩ := Prod.mk.inj hPair
  have hTable := eq_ok_of_toOption hOption
  have hRendered := eq_ok_of_toOption hText
  obtain ⟨same, hSame, hOrders, -⟩ := expansion_order_irrelevant Tree.built_rowSums hTable
    (by decide) (by decide) (by rw [hLength]; decide) hRendered
  rw [hResult] at hSame
  cases hSame
  exact ⟨table, text, hTable, hLength, hRendered, hTextEq, result, hResultEq, hResult,
    hOrders _ (List.reverse_perm _)⟩

end ArrayKernel
