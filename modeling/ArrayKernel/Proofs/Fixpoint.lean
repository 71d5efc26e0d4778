import ArrayKernel.Proofs.Confluence

/-!
# Expanding to the end

Every round takes a call at least one helper further, so sixty-four rounds reach the
storage of every array that is under at most sixty-three views.  What they leave calls
no helper, and expanding it again changes nothing.

The bound on the views cannot be dropped, nor raised by one.  Helpers are applied in the
order of their names, and a call that leads to a helper with a smaller name waits for the
next round.  In a chain of arrays whose numbers have equally many digits every call waits,
so an array under sixty-four views can need a sixty-fifth round, and the rounds that are
made do NOT reach its storage.
-/

namespace ArrayKernel

/-! ## Views and positions -/

namespace Tree

theorem Backed.depth_le {t : Tree} {p depth b : Nat} {toBuffer : List Nat → List Nat}
    (h : t.Backed p depth b toBuffer) : depth ≤ p := by
  induction h with
  | buffer => exact Nat.zero_le _
  | view hNode hOp hLhs hChild hRest ih =>
      exact Nat.lt_of_le_of_lt ih (child_lt hNode (Node.mem_children.mpr (.inl hLhs)))

theorem Reached.le {t : Tree} {p q : Nat} {path : List Slot} {toOperand : List Nat → List Nat}
    (h : t.Reached p path q toOperand) : q ≤ p := by
  induction h with
  | here => exact Nat.le_refl _
  | operand hNode hElementwise hSlot hChild hRest ih =>
      exact Nat.le_trans ih (Nat.le_of_lt (child_lt hNode (Node.mem_children_of_operand? hSlot)))

/-- Operands stand before a node, so a chain of views is no longer than its position. -/
theorem shallow_of_le {t : Tree} {p n : Nat} (h : p ≤ n) : t.Shallow n p :=
  fun _ _ _ _ _ _ hReached hBacked =>
    Nat.le_trans hBacked.depth_le (Nat.le_trans hReached.le h)

theorem DomainAt.le {t : Tree} {p start : Nat} {lead : List Slot} (h : t.DomainAt p lead start) :
    start ≤ p := by
  obtain ⟨n, hn, hStart⟩ := h
  split at hStart
  · exact Nat.le_of_lt (child_lt hn (Node.mem_children.mpr (.inl hStart.2)))
  · exact Nat.le_of_eq hStart.2

end Tree

/-- **Expansion ends.**  If every array in the text of a symbol is under at most sixty-three
views, then expanding the text leaves no call of a helper, and expanding it again leaves it
alone. -/
theorem expansion_reaches_fixpoint {t : Tree} {root : Nat} {device : Device}
    {settings : Settings} {table : Table} (hBuilt : t.Built)
    (hTable : Table.ofTree t root device settings = .ok table)
    (hStem : Text.isIdentifier settings.nameStem = true)
    (hInduction : Text.isIdentifier settings.inductionStem = true) {p : Nat} {text : Text}
    (hText : table.render p = .ok text)
    (hShallow : ∀ lead start, t.DomainAt p lead start → t.Shallow 63 start) :
    ∃ result, table.expand text = some result ∧
      (∀ h ∈ table.helpers, h.name ∉ Text.callNames (Text.pieces result)) ∧
      table.expand result = some result := by
  obtain ⟨usage, order, hL⟩ := Lowered.of_ofTree hBuilt hTable
  obtain ⟨result, hFree, hOrders⟩ := hL.expandAll_render hStem hInduction hShallow hText
  exact ⟨result, hOrders _ (.refl _), hFree,
    expandRounds_of_not_called (hL.distinctNames hStem) hFree _⟩

/-- The text of the sums along rows calls the helper of an array under three views; nothing
is called in its expansion. -/
theorem expansion_reaches_fixpoint_rowSums :
    ∃ table text result, Table.ofTree .rowSums 8 .cpu {} = .ok table ∧
      table.render 8 = .ok text ∧
      Text.callNames (Text.pieces text) =
        ["reduce_add_f32".toList, "obj3_at".toList, "obj6_at".toList] ∧
      (∀ lead start, Tree.rowSums.DomainAt 8 lead start → Tree.rowSums.Shallow 63 start) ∧
      table.expand text = some result ∧
      (∀ h ∈ table.helpers, h.name ∉ Text.callNames (Text.pieces result)) ∧
      table.expand result = some result := by
  have hEval : ((Table.ofTree .rowSums 8 .cpu {}).toOption.bind fun table =>
      (table.render 8).toOption.map fun text => Text.callNames (Text.pieces text)) =
      some ["reduce_add_f32".toList, "obj3_at".toList, "obj6_at".toList] := by
    decide +kernel
  obtain ⟨table, hOption, hRender⟩ := Option.bind_eq_some_iff.mp hEval
  obtain ⟨text, hText, hNames⟩ := Option.map_eq_some_iff.mp hRender
  have hTable := eq_ok_of_toOption hOption
  have hRendered := eq_ok_of_toOption hText
  have hShallow : ∀ lead start, Tree.rowSums.DomainAt 8 lead start →
      Tree.rowSums.Shallow 63 start :=
    fun _ _ hDomain => Tree.shallow_of_le (Nat.le_trans hDomain.le (by decide))
  obtain ⟨result, hResult⟩ := expansion_reaches_fixpoint Tree.built_rowSums hTable (by decide)
    (by decide) hRendered hShallow
  exact ⟨table, text, result, hTable, hRendered, hNames, hShallow, hResult⟩

/-! ## Chains that are too long -/

namespace Takes

variable {helpers : List Helper} {n : Nat} {x result : Text} {g h : Helper}
  {args args' : List Text}

/-- A call at the end of a round waits for the pass of its helper in the next round. -/
theorem wait (hDistinct : DistinctNames helpers) (hMem : h ∈ helpers) (hCall : h.Accesses args)
    (hRest : ∀ before behind, helpers = before ++ h :: behind →
      Takes helpers behind n (h.fill args) result) :
    Takes helpers [] (n + 1) (h.callOf args) result := by
  obtain ⟨before, behind, hSplit, hNot⟩ := List.eq_append_cons_of_mem hMem
  have hne : ∀ g ∈ before, g.name ≠ h.name := by
    intro g hg hEq
    have hg' : g ∈ helpers := hSplit ▸ List.mem_append_left _ hg
    exact hNot (hDistinct.eq_of_name_eq g hg' h hMem hEq ▸ hg)
  have hRound : Takes helpers (before ++ h :: behind) n (h.callOf args) result :=
    .others hCall hne (.own hCall (hRest before behind hSplit))
  exact .turn hMem hCall (hSplit ▸ hRound)

/-- Where the helpers are sorted by name, a call that leads to a helper with a smaller name
takes a round of its own. -/
theorem fall (hDistinct : DistinctNames helpers) (hSorted : helpers.Pairwise Helper.Before)
    (hMem : h ∈ helpers) (hCall : h.Accesses args) (hNext : g.Accesses args')
    (hFill : h.fill args = g.callOf args') (hName : g.name < h.name)
    (hRest : Takes helpers [] n (g.callOf args') result) :
    Takes helpers [] (n + 1) (h.callOf args) result := by
  refine wait hDistinct hMem hCall fun before behind hSplit => ?_
  rw [hSplit] at hSorted
  have hBehind := (List.pairwise_cons.mp (List.pairwise_append.mp hSorted).2.1).1
  have hne : ∀ f ∈ behind, f.name ≠ g.name := by
    intro f hf hEq
    exact (hBehind f hf).not_name_lt (hEq ▸ hName)
  rw [hFill]
  have hOthers := others hNext hne hRest
  rw [List.append_nil] at hOthers
  exact hOthers

/-- Fewer rounds than a call takes leave a call. -/
theorem exists_called_of_expandRounds (hDistinct : DistinctNames helpers) {rounds : Nat}
    (hx : Takes helpers [] (rounds + (n + 1)) x result) :
    ∃ left, expandRounds helpers rounds x = some left ∧
      ∃ h ∈ helpers, h.name ∈ Text.callNames (Text.pieces left) := by
  obtain ⟨left, hRounds, hLeft⟩ := expandRounds_of_steps
    (P := fun todo n t => Takes helpers todo n t result)
    (fun hMem ht => by
      have hName := hDistinct.identifier _ hMem
      obtain ⟨next, hRewrites, hNext⟩ := ht.step hName
      exact ⟨next, hRewrites.expand_eq hName, hNext⟩)
    (fun ht => ht.next) rounds (n + 1) hx
  exact ⟨left, hRounds, hLeft.exists_called⟩

end Takes

namespace Tree

/-- A vector under sixty-four transposes, added to a scalar that is negated nine times, so
that the numbers of the vector and of its transposes have two digits. -/
def deepTranspose : Tree :=
  ofCalls ([.hostScalar .float32] ++ (List.range 9).map (.unary .neg) ++
    [.buffer .float32 [2] [1] 0] ++ (List.range' 10 64).map .transpose ++ [.binary .add 9 74])

theorem backed_deepTranspose (n : Nat) (hn : n ≤ 64) :
    ∃ toBuffer, deepTranspose.Backed (10 + n) n 10 toBuffer := by
  have hVector : deepTranspose.get? 10 = some ⟨.buffer [1] 0, .float32, [2], none, none⟩ := by
    decide +kernel
  have hTransposes : ∀ n < 64, deepTranspose.get? (10 + (n + 1)) =
      some ⟨.view .transpose, .float32, [2], some (10 + n), none⟩ := by
    decide +kernel
  induction n with
  | zero => exact ⟨id, .buffer hVector rfl⟩
  | succ n ih =>
      obtain ⟨toBuffer, hRest⟩ := ih (Nat.le_of_lt hn)
      obtain ⟨m, hm⟩ : ∃ m, deepTranspose.get? (10 + n) = some m := by
        cases hRest with
        | buffer hNode => exact ⟨_, hNode⟩
        | view hNode => exact ⟨_, hNode⟩
      exact ⟨_, .view (hTransposes n hn) rfl rfl hm hRest⟩

end Tree

namespace Helper

/-- The access helper of the array with the given number in the chain of transposes. -/
def ofTranspose (number : Nat) : Helper :=
  ⟨accessName ("obj" ++ Text.ofNat number), ["i0"],
    if number = 10 then "obj10[obj10_start + (i0)]"
    else accessName ("obj" ++ Text.ofNat (number - 1)) ++ "(i0)"⟩

theorem accesses_ofTranspose (number : Nat) : (ofTranspose number).Accesses ["$0"] where
  identifier := isIdentifier_accessName (by decide) number
  access := isAccessName_accessName _
  arity := rfl
  atom := by
    intro arg hArg
    rw [List.mem_singleton.mp hArg]
    exact .of_isReadable (e := .var "$0") (by decide)

end Helper

/-- Every transpose in the chain takes a round of its own. -/
theorem takes_transposes {helpers : List Helper} (hDistinct : DistinctNames helpers)
    (hSorted : helpers.Pairwise Helper.Before)
    (hMem : ∀ n ≤ 64, Helper.ofTranspose (10 + n) ∈ helpers) (n : Nat) (hn : n ≤ 64) :
    Takes helpers [] (n + 1) ((Helper.ofTranspose (10 + n)).callOf ["$0"])
      "obj10[obj10_start + ($0)]" := by
  have hSteps : ∀ n < 64, (Helper.ofTranspose (10 + (n + 1))).fill ["$0"] =
      (Helper.ofTranspose (10 + n)).callOf ["$0"] ∧
      (Helper.ofTranspose (10 + n)).name < (Helper.ofTranspose (10 + (n + 1))).name := by
    decide +kernel
  induction n with
  | zero =>
      have hOffset : Text.IsAtom "obj10_start + ($0)" :=
        .of_isReadable (e := .add (.var "obj10_start") (.group (.var "$0"))) (by decide)
      have hAtom : Text.IsAtom ((Helper.ofTranspose 10).fill ["$0"]) :=
        .indexed (s := "obj10") (.of_isIdentifier (by decide)) hOffset
      exact .wait hDistinct (hMem 0 hn) (Helper.accesses_ofTranspose _) fun _ _ _ => .atom hAtom
  | succ n ih =>
      obtain ⟨hFill, hName⟩ := hSteps n hn
      exact .fall hDistinct hSorted (hMem (n + 1) hn) (Helper.accesses_ofTranspose _)
        (Helper.accesses_ofTranspose _) hFill hName (ih (Nat.le_of_lt hn))

/-- An array under sixty-four views can keep a call: the rounds end at the buffer. -/
theorem deep_views_keep_call :
    ∃ table text result, Tree.deepTranspose.Built ∧
      Table.ofTree .deepTranspose 75 .cpu {} = .ok table ∧
      (∃ toBuffer, Tree.deepTranspose.Backed 74 64 10 toBuffer) ∧
      table.render 74 = .ok text ∧ table.expand text = some result ∧
      ∃ h ∈ table.helpers, h.name ∈ Text.callNames (Text.pieces result) := by
  have hEval : ((Table.ofTree .deepTranspose 75 .cpu {}).toOption.bind fun table =>
      (table.get? 74).bind fun s => (table.render 74).toOption.map fun text =>
        (s.helpers.toList, text)) =
      some ((List.range' 10 65).map Helper.ofTranspose,
        (Helper.ofTranspose 74).callOf ["$0"]) := by
    decide +kernel
  obtain ⟨table, hOption, hGet⟩ := Option.bind_eq_some_iff.mp hEval
  obtain ⟨s, hs, hRender⟩ := Option.bind_eq_some_iff.mp hGet
  obtain ⟨text, hText, hPair⟩ := Option.map_eq_some_iff.mp hRender
  obtain ⟨hHelpers, rfl⟩ := Prod.mk.inj hPair
  have hTable := eq_ok_of_toOption hOption
  have hBuilt : Tree.deepTranspose.Built := Tree.built_ofCalls _
  obtain ⟨usage, order, hL⟩ := Lowered.of_ofTree hBuilt hTable
  have hDistinct := hL.distinctNames (by decide)
  have hMem : ∀ n ≤ 64, Helper.ofTranspose (10 + n) ∈ table.helpers.toList := by
    intro n hn
    refine Lowered.mem_helpers hs ?_
    rw [HelperSet.mem_def, hHelpers]
    exact List.mem_map_of_mem (List.mem_range'_1.mpr ⟨Nat.le_add_right 10 n, by omega⟩)
  have hTakes := takes_transposes hDistinct table.helpers.sorted hMem 64 (Nat.le_refl 64)
  obtain ⟨result, hResult, hCalled⟩ :=
    Takes.exists_called_of_expandRounds (n := 0) hDistinct hTakes
  exact ⟨table, _, result, hBuilt, hTable, Tree.backed_deepTranspose 64 (Nat.le_refl 64),
    eq_ok_of_toOption hText, hResult, hCalled⟩

end ArrayKernel
