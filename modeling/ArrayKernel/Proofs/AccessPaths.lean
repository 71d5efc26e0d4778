import ArrayKernel.Proofs.Addressing
import ArrayKernel.Proofs.Depiction
import ArrayKernel.Proofs.Targets

/-!
# Contiguous and strided access

Whether contiguous access is wanted decides how the access helpers of buffers are
written, and nothing else: the tables of both lowerings are the same up to the bodies of
these helpers, also where views carry them along, and up to the attribute that tells the
path.  Both bodies subscript the pointer of the buffer with the same value, whatever the
parameters are.

The stem of names is an identifier here only for the bodies to be read as expressions.
It may look like a parameter of an access helper: a body is not filled in.
-/

namespace ArrayKernel

/-! ## Symbols without access -/

/-- The kind without the access path of a buffer. -/
def Kind.core : Kind → Kind
  | buffer layout written _ => .buffer layout written none
  | kind => kind

namespace Symbol

/-- The symbol without its helpers and the access path of a buffer. -/
def core (s : Symbol) : Symbol := { s with helpers := .empty, kind := s.kind.core }

theorem composed?_core (s : Symbol) : s.core.kind.composed? = s.kind.composed? := by
  obtain ⟨name, dtype, device, helpers, scopes, kind⟩ := s
  cases kind <;> rfl

theorem evaluate_core (s : Symbol) (lhs rhs : Option Text) :
    s.core.evaluate lhs rhs = s.evaluate lhs rhs := by
  obtain ⟨name, dtype, device, helpers, scopes, kind⟩ := s
  cases kind <;> rfl

theorem operandDomain_core (s : Symbol) (links : Links) (domain : Option Shape) :
    Table.operandDomain s.core links domain = Table.operandDomain s links domain := by
  obtain ⟨name, dtype, device, helpers, scopes, kind⟩ := s
  cases kind <;> rfl

theorem arguments_core (s : Symbol) : s.core.arguments = s.arguments := by
  obtain ⟨name, dtype, device, helpers, scopes, kind⟩ := s
  cases kind <;> rfl

/-- A symbol that is no buffer has the attributes of its core. -/
theorem attributes_core {s : Symbol} (h : ¬ s.IsBuffer) : s.core.attributes = s.attributes := by
  obtain ⟨name, dtype, device, helpers, scopes, kind⟩ := s
  cases kind with
  | buffer layout written access => exact absurd ⟨layout, written, access, rfl⟩ h
  | hostScalar | placeholder | binary | unary | reduction | view | loop => rfl

/-- The core of a symbol lacks at most the attribute that tells the access path. -/
theorem get?_attributes_core {name : Text} (h : (name == "access") = false) (s : Symbol) :
    s.core.attributes.get? name = s.attributes.get? name := by
  by_cases hBuffer : s.IsBuffer
  · obtain ⟨layout, written, access, hKind⟩ := hBuffer
    -- the access path stands behind four other attributes and before those of the storage
    have hParts : ∃ front : Attributes,
        s.attributes = front ++ (accessAttribute access ++ (layout.storage s.handle).attributes) ∧
          s.core.attributes = front ++ (layout.storage s.handle).attributes := by
      obtain ⟨symbolName, dtype, device, helpers, scopes, kind⟩ := s
      cases hKind
      exact ⟨[_, _, _, _], rfl, rfl⟩
    obtain ⟨front, hWhole, hCore⟩ := hParts
    rw [hWhole, hCore]
    unfold Attributes.get?
    rw [List.lookup_append, List.lookup_append, List.lookup_append,
      lookup_accessAttribute_of_ne h, Option.none_or]
  · rw [attributes_core hBuffer]

end Symbol

namespace Table

/-- The table of the cores of its symbols. -/
def core (t : Table) : Table where
  entries := t.entries.map fun e => (e.1, e.2.core)
  sorted := List.pairwise_map.mpr t.sorted

theorem get?_core (t : Table) (p : Nat) : t.core.get? p = (t.get? p).map Symbol.core := by
  unfold get? core
  dsimp only
  generalize t.entries = es
  induction es with
  | nil => rfl
  | cons e es ih =>
      rw [List.map_cons, List.lookup_cons, List.lookup_cons, ih]
      cases p == e.1 <;> rfl

theorem lookup_core (t : Table) (p : Nat) : t.core.lookup p = (t.lookup p).map Symbol.core := by
  unfold lookup
  rw [get?_core]
  cases t.get? p <;> rfl

theorem size_core (t : Table) : t.core.size = t.size := List.length_map _

theorem operandText_core (t : Table) (render : Nat → Option Shape → Except SymbolError Text)
    (domain : Option Shape) (p : Nat) :
    t.core.operandText render domain p = t.operandText render domain p := by
  unfold operandText
  rw [lookup_core]
  cases t.lookup p with
  | error e => rfl
  | ok s =>
      obtain ⟨name, dtype, device, helpers, scopes, kind⟩ := s
      cases kind <;> rfl

theorem operandText?_core (t : Table) (render : Nat → Option Shape → Except SymbolError Text)
    (domain : Option Shape) (link : Option Nat) :
    t.core.operandText? render domain link = t.operandText? render domain link := by
  cases link with
  | none => rfl
  | some p => exact congrArg (Except.map some) (t.operandText_core render domain p)

theorem renderWithin_core (t : Table) (depth p : Nat) (domain : Option Shape) :
    t.core.renderWithin depth p domain = t.renderWithin depth p domain := by
  induction depth generalizing p domain with
  | zero => rfl
  | succ depth ih =>
      have hRender : t.core.renderWithin depth = t.renderWithin depth := by
        funext q inner
        exact ih q inner
      unfold renderWithin
      rw [lookup_core, hRender]
      cases t.lookup p with
      | error e => rfl
      | ok s =>
          rw [Except.map, ok_bind, ok_bind, Symbol.composed?_core]
          simp only [operandText?_core, Symbol.operandDomain_core, Symbol.evaluate_core]

/-- The text of a symbol depends on no helper and no access path. -/
theorem render_core (t : Table) (p : Nat) : t.core.render p = t.render p := by
  unfold render
  rw [size_core, renderWithin_core]

theorem kernelArguments_core (t : Table) : t.core.kernelArguments = t.kernelArguments := by
  unfold kernelArguments core
  rw [List.flatMap_map]
  simp only [Symbol.arguments_core]

end Table

namespace Symbol

/-- Symbols that are alike for two targets with one device have one core. -/
theorem Alike.core_eq {x y : Target} {owned : Text → Prop} {s u : Symbol}
    (h : s.Alike x y owned u) (hDevice : x.device = y.device) : s.core = u.core := by
  obtain ⟨name, dtype, device, helpers, scopes, kind⟩ := s
  obtain ⟨name', dtype', device', helpers', scopes', kind'⟩ := u
  obtain ⟨hName, hType, hScopes, hLeft, hRight, hKind, -⟩ := h
  dsimp only at hName hType hScopes hLeft hRight hKind
  subst hName hType hScopes
  have hSame : device = device' := by rw [hLeft, hRight, hDevice]
  have hCore : kind.core = kind'.core := by
    cases hKind with
    | binary | unary =>
        rw [hDevice]
    | made | accessed | hostScalar | placeholder | reduction | view | loop => rfl
  unfold core
  rw [hSame, hCore]

end Symbol

theorem Table.Alike.core_eq {x y : Target} {owned : Text → Prop} {a b : Table}
    (h : a.Alike x y owned b) (hDevice : x.device = y.device) : a.core = b.core := by
  have hEntries : a.core.entries = b.core.entries := by
    unfold Table.Alike at h
    unfold Table.core
    dsimp only
    generalize a.entries = es at h ⊢
    generalize b.entries = fs at h ⊢
    induction h with
    | nil => rfl
    | cons hEntry _ ih =>
        rw [List.map_cons, List.map_cons, ih, hEntry.1, hEntry.2.core_eq hDevice]
  unfold Table.core at hEntries ⊢
  rwa [Table.mk.injEq]

/-! ## Helpers in order -/

/-- In two ordered lists, each with distinct names, helpers that are paired by name stand
at the same places. -/
theorem HelperSet.forall₂_of_paired {R : Helper → Helper → Prop}
    (hName : ∀ {h g}, R h g → h.name = g.name) {hs gs : List Helper}
    (hSorted : hs.Pairwise Helper.Before) (gSorted : gs.Pairwise Helper.Before)
    (hDistinct : ∀ h ∈ hs, ∀ k ∈ hs, h.name = k.name → h = k)
    (gDistinct : ∀ g ∈ gs, ∀ k ∈ gs, g.name = k.name → g = k)
    (hLeft : ∀ h ∈ hs, ∃ g ∈ gs, R h g) (hRight : ∀ g ∈ gs, ∃ h ∈ hs, R h g) :
    List.Forall₂ R hs gs := by
  induction hs generalizing gs with
  | nil =>
      cases gs with
      | nil => exact .nil
      | cons g gs =>
          obtain ⟨h, hMem, -⟩ := hRight g (.head _)
          exact nomatch hMem
  | cons h hs ih =>
      cases gs with
      | nil =>
          obtain ⟨g, hMem, -⟩ := hLeft h (.head _)
          exact nomatch hMem
      | cons g gs =>
          obtain ⟨hFirst, hRest⟩ := List.pairwise_cons.mp hSorted
          obtain ⟨gFirst, gRest⟩ := List.pairwise_cons.mp gSorted
          obtain ⟨g', hg', hR⟩ := hLeft h (.head _)
          obtain ⟨h', hh', hR'⟩ := hRight g (.head _)
          -- the first helpers have the least names, so each is paired with the other
          have hLeast : ¬ g.name < h.name := by
            rw [← hName hR']
            rcases List.mem_cons.mp hh' with rfl | hMem
            · exact List.lt_irrefl _
            · exact (hFirst h' hMem).not_name_lt
          have gLeast : ¬ h.name < g.name := by
            rw [hName hR]
            rcases List.mem_cons.mp hg' with rfl | hMem
            · exact List.lt_irrefl _
            · exact (gFirst g' hMem).not_name_lt
          have hSame : h.name = g.name :=
            List.le_antisymm (List.not_lt.mp hLeast) (List.not_lt.mp gLeast)
          obtain rfl : g' = g := gDistinct g' hg' g (.head _) ((hName hR).symm.trans hSame)
          refine .cons hR (ih hRest gRest ?_ ?_ ?_ ?_)
          · exact fun k hk l hl => hDistinct k (.tail _ hk) l (.tail _ hl)
          · exact fun k hk l hl => gDistinct k (.tail _ hk) l (.tail _ hl)
          · intro k hk
            obtain ⟨l, hl, hPair⟩ := hLeft k (.tail _ hk)
            rcases List.mem_cons.mp hl with rfl | hl
            · have hEq := hDistinct k (.tail _ hk) h (.head _) ((hName hPair).trans hSame.symm)
              exact absurd (hEq ▸ hFirst k hk) (Helper.Before.irrefl h)
            · exact ⟨l, hl, hPair⟩
          · intro l hl
            obtain ⟨k, hk, hPair⟩ := hRight l (.tail _ hl)
            rcases List.mem_cons.mp hk with rfl | hk
            · have hEq := gDistinct l (.tail _ hl) _ (.head _) ((hName hPair).symm.trans hSame)
              exact absurd (hEq ▸ gFirst l hl) (Helper.Before.irrefl _)
            · exact ⟨k, hk, hPair⟩

/-- Two helpers that differ at most in their bodies, and there only under given names. -/
def Helper.SameButBody (named : Text → Prop) (h g : Helper) : Prop :=
  h.name = g.name ∧ h.params = g.params ∧ (h.body = g.body ∨ named h.name)

theorem Helper.Alike.sameButBody {x y : Target} {named : Text → Prop} {h g : Helper}
    (hAlike : Helper.Alike x y named h g) (hDevice : x.device = y.device) :
    h.SameButBody named g := by
  cases hAlike with
  | same => exact ⟨rfl, rfl, .inl rfl⟩
  | access layout handle hNamed => exact ⟨rfl, rfl, .inr hNamed⟩
  | combining op dtype =>
      rw [hDevice]
      exact ⟨rfl, rfl, .inl rfl⟩

/-- Two symbols that differ at most in how buffers are accessed: in the attribute that
tells the access path of a buffer, and in the bodies of the helpers with given names. -/
structure Symbol.SameButAccess (named : Text → Prop) (s u : Symbol) : Prop where
  core : s.core = u.core
  attributes : ∀ name, s.attributes.get? name = u.attributes.get? name ∨
    s.IsBuffer ∧ name = "access"
  helpers : List.Forall₂ (Helper.SameButBody named) s.helpers.toList u.helpers.toList

theorem Symbol.Alike.get?_attributes {x y : Target} {named : Text → Prop} {s u : Symbol}
    (h : s.Alike x y named u) (hDevice : x.device = y.device) (name : Text) :
    s.attributes.get? name = u.attributes.get? name ∨ s.IsBuffer ∧ name = "access" := by
  have hCore := h.core_eq hDevice
  by_cases hBuffer : s.IsBuffer
  · by_cases hName : name = "access"
    · exact .inr ⟨hBuffer, hName⟩
    · left
      have hne : (name == "access") = false := beq_false_of_ne hName
      rw [← get?_attributes_core hne s, hCore, get?_attributes_core hne u]
  · left
    rw [← attributes_core hBuffer, hCore, attributes_core fun hu => hBuffer (h.isBuffer_iff.mpr hu)]

/-! ## The bodies of access helpers -/

namespace Table

/-- The values of the names in the body of an access helper: a parameter stands for a
component of the index, any other name for a kernel argument. -/
def parameters (table : Table) (index : List Int) (name : Text) : Option Int :=
  match Text.parameter? (IndexExpr.axisNames index.length) name with
  | some k => index[k]?
  | none => (table.layoutValue? name).map fun value : Nat => (value : Int)

/-- The access helper of a symbol subscripts a pointer with a C expression whose value, for
all values of the parameters, is a start plus each parameter times its stride. -/
def Subscripts (table : Table) (s : Symbol) (pointer : Text) (start : Nat) (strides : List Nat) :
    Prop :=
  ∃ h ∈ s.helpers, h.name = s.accessName ∧ h.params = IndexExpr.axisNames strides.length ∧
    ∃ offset e, h.body = pointer ++ "[" ++ offset ++ "]" ∧ IndexExpr.read? offset = some e ∧
      ∀ index : List Int, index.length = strides.length →
        e.value? (table.parameters index) = some (start + signedSum index strides)

variable {table : Table} {index : List Int}

theorem parameters_axisName {k : Nat} {i : Int} (h : index[k]? = some i) :
    table.parameters index (IndexExpr.axisName k) = some i := by
  have hk : k < index.length := (List.getElem?_eq_some_iff.mp h).1
  unfold parameters
  rw [IndexExpr.parameter?_axisName hk]
  exact h

theorem parameters_of_layoutValue? {name : Text} {value : Nat} (hName : '_' ∈ name)
    (h : table.layoutValue? name = some value) :
    table.parameters index name = some (value : Int) := by
  have hNot := IndexExpr.not_mem_axisNames (Text.isAxisLike_of_underscore hName) index.length
  unfold parameters
  rw [Text.parameter?_eq_none_of_not_mem hNot, h]
  rfl

end Table

/-- On either path the access helper of a buffer leads to where its layout says. -/
theorem Covered.subscripts {t : Tree} {usage : Usage} {device : Device} {settings : Settings}
    {order : List Nat} {table : Table} {p : Nat} {s : Symbol} {n : Node}
    (hL : Covered t usage device settings order table)
    (hStem : Text.isIdentifier settings.nameStem = true) (hs : table.get? p = some s)
    (hn : t.get? p = some n) {strides : List Nat} {start : Nat}
    (hOp : n.op = .buffer strides start) :
    s.attr "pointer" = .ok s.handle ∧ table.Subscripts s s.handle start strides := by
  have hArray : s.isArray = true := by
    obtain ⟨m, hm, hDepicts⟩ := hL.depicts hs
    rw [hn] at hm
    cases hm
    have hShape := hDepicts.shape
    rw [hOp] at hShape
    exact Symbol.isArray_of_shape? hShape
  cases hL.arrayEntry hs hArray with
  | view n' m v child operand under element hNode hOp' =>
      rw [hn] at hNode
      cases hNode
      rw [hOp] at hOp'
      exact nomatch hOp'
  | buffer n' layout written hNode hOp' hShape hKind hHelpers =>
      rw [hn] at hNode
      cases hNode
      rw [hOp] at hOp'
      cases hOp'
      have hHandle := hL.isIdentifier_handle hStem hs hArray
      refine ⟨Symbol.attr_pointer hKind, _, (hHelpers _).mpr rfl, rfl, ?_, _, _, rfl,
        IndexExpr.read?_text (Layout.fillable_offset hHandle _ layout.rank).readable, ?_⟩
      · exact congrArg IndexExpr.axisNames layout.length_strides.symm
      · intro index hLength
        refine Layout.value?_offset_signed ?_ (fun k i => Table.parameters_axisName)
          (hLength.trans layout.length_strides) settings.contiguous
        exact hL.boundIn hStem hs hKind fun _ hName => Table.parameters_of_layoutValue? hName

/-- Paired helpers of two lowered trees stand at the same places, since names in a table are
distinct. -/
theorem Covered.forall₂_helpers {t : Tree} {usage usage' : Usage} {device device' : Device}
    {settings settings' : Settings} {order order' : List Nat} {a b : Table} {x y : Target}
    {owned : Text → Prop}
    (hA : Covered t usage device settings order a)
    (hB : Covered t usage' device' settings' order' b) {hs gs : HelperSet}
    (hPaired : HelperSet.Paired (Helper.Alike x y owned) hs gs) (hLeft : ∀ h ∈ hs, h ∈ a.helpers)
    (hRight : ∀ g ∈ gs, g ∈ b.helpers) :
    List.Forall₂ (Helper.Alike x y owned) hs.toList gs.toList := by
  refine HelperSet.forall₂_of_paired Helper.Alike.name_eq hs.sorted gs.sorted ?_ ?_ hPaired.1
    hPaired.2
  · exact fun h hh k hk => hA.helper_eq_of_name_eq (hLeft h hh) (hLeft k hk)
  · exact fun g hg k hk => hB.helper_eq_of_name_eq (hRight g hg) (hRight k hk)

/-- **The contiguous path agrees with the strided path on whole kernels.**  Wanting
contiguous access or not, lowering fails with one error or gives tables with the same
positions, names, kinds and links, kernel arguments and texts.  Attributes and helpers are
the same up to the attribute that tells the path of a buffer and the bodies of the access
helpers of buffers.  The two bodies of a buffer subscript one pointer with C expressions
that both have the start plus each parameter times its stride as their value. -/
theorem contiguous_agrees_with_strided (t : Tree) (root : Nat) (device : Device)
    (settings : Settings) (hStem : Text.isIdentifier settings.nameStem = true) :
    (∃ e, Table.ofTree t root device { settings with contiguous := true } = .error e ∧
        Table.ofTree t root device { settings with contiguous := false } = .error e) ∨
      ∃ a b, Table.ofTree t root device { settings with contiguous := true } = .ok a ∧
        Table.ofTree t root device { settings with contiguous := false } = .ok b ∧
        a.core = b.core ∧ a.kernelArguments = b.kernelArguments ∧
        (∀ p, a.render p = b.render p) ∧
        List.Forall₂ (Helper.SameButBody a.NamesBuffer) a.helpers.toList b.helpers.toList ∧
        ∀ p s u, a.get? p = some s → b.get? p = some u →
          s.SameButAccess a.NamesBuffer u ∧
          ∀ n strides start, t.get? p = some n → n.op = .buffer strides start →
            ∃ pointer, s.attr "pointer" = .ok pointer ∧ u.attr "pointer" = .ok pointer ∧
              a.Subscripts s pointer start strides ∧ b.Subscripts u pointer start strides := by
  rcases (Target.lower_agree ⟨device, true⟩ ⟨device, false⟩ t root settings).elim with
    hError | ⟨a, b, ha, hb, hAlike⟩
  · exact .inl hError
  right
  have hCore : a.core = b.core := hAlike.core_eq rfl
  obtain ⟨order, usage, -, -, hA⟩ := Covered.of_ofTree ha
  obtain ⟨order', usage', -, -, hB⟩ := Covered.of_ofTree hb
  refine ⟨a, b, ha, hb, hCore, ?_, fun p => ?_, ?_, fun p s u hs hu => ?_⟩
  · rw [← a.kernelArguments_core, hCore, b.kernelArguments_core]
  · rw [← a.render_core, hCore, b.render_core]
  · have hHelpers := hA.forall₂_helpers hB hAlike.helpers (fun _ hh => hh) fun _ hg => hg
    exact hHelpers.imp fun _ _ hPair => hPair.sameButBody rfl
  · obtain ⟨u', hu', hSymbols⟩ := hAlike.exists_right hs
    rw [hu] at hu'
    cases hu'
    refine ⟨⟨hSymbols.core_eq rfl, hSymbols.get?_attributes rfl, ?_⟩, ?_⟩
    · have hHelpers := hA.forall₂_helpers hB hSymbols.helpers
        (fun _ hh => Lowered.mem_helpers hs hh) fun _ hg => Lowered.mem_helpers hu hg
      exact hHelpers.imp fun _ _ hPair => hPair.sameButBody rfl
    · intro n strides start hn hOp
      obtain ⟨hPointer, hSubscripts⟩ := hA.subscripts hStem hs hn hOp
      obtain ⟨hPointer', hSubscripts'⟩ := hB.subscripts hStem hu hn hOp
      rw [← hSymbols.handle_eq] at hPointer' hSubscripts'
      exact ⟨s.handle, hPointer, hPointer', hSubscripts, hSubscripts'⟩

/-- The matrix has a last stride of one, so the two lowerings access it by different
helpers. -/
theorem contiguous_agrees_rowSums :
    ∃ a b s u pointer, Table.ofTree .rowSums 8 .cpu { contiguous := true } = .ok a ∧
      Table.ofTree .rowSums 8 .cpu { contiguous := false } = .ok b ∧
      a.render 8 = b.render 8 ∧ a.get? 0 = some s ∧ b.get? 0 = some u ∧
      s.helpers ≠ u.helpers ∧ a.Subscripts s pointer 5 [4, 1] ∧
        b.Subscripts u pointer 5 [4, 1] := by
  have hEval : ((Table.ofTree .rowSums 8 .cpu { contiguous := true }).toOption.bind
      (·.get? 0)).isSome = true := by
    decide +kernel
  have hDiffer : ((Table.ofTree .rowSums 8 .cpu { contiguous := true }).toOption.bind
      (·.get? 0)).map Symbol.helpers ≠
        ((Table.ofTree .rowSums 8 .cpu { contiguous := false }).toOption.bind (·.get? 0)).map
          Symbol.helpers := by
    decide +kernel
  rcases contiguous_agrees_with_strided .rowSums 8 .cpu {} (by decide) with
    ⟨e, hError, -⟩ | ⟨a, b, ha, hb, hCore, -, hRender, -, hSymbols⟩
  · rw [hError] at hEval
    exact nomatch hEval
  · rw [ha] at hEval
    rw [ha, hb] at hDiffer
    obtain ⟨s, hs⟩ := Option.isSome_iff_exists.mp hEval
    have hs' : a.get? 0 = some s := hs
    have hGet := congrArg (Table.get? · 0) hCore
    simp only [Table.get?_core, hs'] at hGet
    obtain ⟨u, hu, -⟩ := Option.map_eq_some_iff.mp hGet.symm
    obtain ⟨-, hBuffer⟩ := hSymbols 0 s u hs' hu
    obtain ⟨pointer, -, -, hSubscripts, hSubscripts'⟩ := hBuffer _ [4, 1] 5 rfl rfl
    refine ⟨a, b, s, u, pointer, ha, hb, hRender 8, hs', hu, ?_, hSubscripts, hSubscripts'⟩
    intro hSame
    refine hDiffer ?_
    show (a.get? 0).map Symbol.helpers = (b.get? 0).map Symbol.helpers
    rw [hs', hu, Option.map_some, Option.map_some, hSame]

end ArrayKernel
