import ArrayKernel.Proofs.Expansion
import ArrayKernel.Proofs.Image

/-!
# Arrays and helpers of a lowered tree

In the table of a tree every buffer has its access helper, since every listed position is
read or written.  An array is such a buffer, or a view of an array whose symbol has a
smaller number.  Its helpers are one of its own, named after it, and the helpers of the
array under the view.

All helpers of a table have different names: the number in the name of an access
helper leads back to one position, and the names of combining helpers end otherwise.
This needs no assumption on the stem of names.
-/

namespace ArrayKernel

/-- What holds of the table of a tree in which every listed position is read or written. -/
structure Covered (t : Tree) (usage : Usage) (device : Device) (settings : Settings)
    (order : List Nat) (table : Table) : Prop extends
    Image t usage device settings order table where
  covers : ∀ p ∈ order, usage.Covers p

/-- What holds of the table of a built tree. -/
structure Lowered (t : Tree) (usage : Usage) (device : Device) (settings : Settings)
    (order : List Nat) (table : Table) : Prop extends
    Covered t usage device settings order table where
  built : t.Built

/-- Lowering a tree, where it succeeds. -/
theorem Covered.of_ofTree {t : Tree} {root : Nat} {device : Device} {settings : Settings}
    {table : Table} (h : Table.ofTree t root device settings = .ok table) :
    ∃ order usage, t.order root = .ok order ∧ Usage.ofOrder t root order = .ok usage ∧
      Covered t usage device settings order table := by
  obtain ⟨order, usage, hOrder, hUsage, hImage⟩ := Image.of_ofTree h
  exact ⟨order, usage, hOrder, hUsage, hImage, fun _ hp => Usage.covers_ofOrder hOrder hUsage hp⟩

/-- Lowering a built tree, where it succeeds. -/
theorem Lowered.of_ofTree {t : Tree} {root : Nat} {device : Device} {settings : Settings}
    {table : Table} (hBuilt : t.Built) (h : Table.ofTree t root device settings = .ok table) :
    ∃ usage order, Lowered t usage device settings order table := by
  obtain ⟨order, usage, -, -, hCovered⟩ := Covered.of_ofTree h
  exact ⟨usage, order, hCovered, hBuilt⟩

/-! ## Symbols of buffers -/

namespace Symbol

/-- A buffer whose elements are accessed. -/
def accessedBuffer (device : Device) (dtype : ScalarType) (name : SymbolName) (layout : Layout)
    (written contiguous : Bool) : Symbol :=
  ⟨name, dtype, device,
    .insert .empty (layout.accessHelper name.text (layout.accessPath contiguous)), [],
    .buffer layout written (some (layout.accessPath contiguous))⟩

theorem addAccess_accessedBuffer (device : Device) (dtype : ScalarType) (name : SymbolName)
    (layout : Layout) (written contiguous store : Bool) :
    (accessedBuffer device dtype name layout written contiguous).addAccess contiguous store =
      accessedBuffer device dtype name layout (written || store) contiguous := by
  have hTwice (g : Helper) : (HelperSet.empty.insert g).insert g = .insert .empty g := by
    unfold HelperSet.insert HelperSet.empty
    simp [HelperSet.place]
  unfold addAccess accessedBuffer handle
  simp only [hTwice]

/-- A buffer that is read or written has its access helper. -/
theorem accessed_buffer {usage : Usage} {p : Nat} (h : usage.Covers p) (device : Device)
    (dtype : ScalarType) (name : SymbolName) (layout : Layout) (contiguous : Bool) :
    (plain device dtype name (.buffer layout false none)).accessed usage contiguous p =
      accessedBuffer device dtype name layout (decide (p ∈ usage.written)) contiguous := by
  have hPlain (store : Bool) :
      (plain device dtype name (.buffer layout false none)).addAccess contiguous store =
        accessedBuffer device dtype name layout store contiguous := rfl
  unfold accessed addStore addLoad
  by_cases hWritten : p ∈ usage.written
  · by_cases hRead : p ∈ usage.read
    · simp [hWritten, hRead, hPlain, addAccess_accessedBuffer]
    · simp [hWritten, hRead, hPlain]
  · have hRead : p ∈ usage.read := h.resolve_right hWritten
    simp [hWritten, hRead, hPlain]

theorem accessed_of_not_buffer {s : Symbol} (h : ∀ layout w a, s.kind ≠ .buffer layout w a)
    (usage : Usage) (contiguous : Bool) (p : Nat) : s.accessed usage contiguous p = s := by
  have hAccess (store : Bool) : s.addAccess contiguous store = s := by
    unfold addAccess
    split
    · next layout w a hKind => exact absurd hKind (h layout w a)
    · rfl
  unfold accessed addStore addLoad
  simp [hAccess]

end Symbol

namespace Covered

variable {t : Tree} {usage : Usage} {device : Device} {settings : Settings} {order : List Nat}
  {table : Table} {p : Nat} {s : Symbol}

/-- The symbol of a listed position is that of an accessed buffer, or made from the
symbols of its operands. -/
theorem entry (hL : Covered t usage device settings order table) (hs : table.get? p = some s) :
    ∃ n, t.get? p = some n ∧
      ((∃ layout : Layout, n.op = .buffer layout.strides layout.start ∧ n.shape = layout.shape ∧
        s = .accessedBuffer device n.dtype (.generated settings.nameStem (t.numberIn order p))
          layout (decide (p ∈ usage.written)) settings.contiguous) ∨
      (∀ layout w a, s.kind ≠ .buffer layout w a) ∧
        Makes table (t.numberIn order p) device settings p n s) := by
  obtain ⟨n, made, hn, hMakes, rfl⟩ := hL.made hs
  refine ⟨n, hn, ?_⟩
  by_cases hBuffer : ∃ layout w a, made.kind = .buffer layout w a
  · left
    obtain ⟨layout, w, a, hKind⟩ := hBuffer
    cases hMakes with
    | @buffer strides start hOp hLength =>
        have hMem : p ∈ order := (hL.contains_iff p).mp (Table.contains_iff.mpr ⟨_, hs⟩)
        exact ⟨⟨n.shape, strides, start, hLength⟩, hOp, rfl,
          Symbol.accessed_buffer (hL.covers p hMem) ..⟩
    | hostScalar => exact nomatch hKind
    | placeholder => exact nomatch hKind
    | binary => exact nomatch hKind
    | unary => exact nomatch hKind
    | reduction => exact nomatch hKind
    | view => exact nomatch hKind
    | loop => exact nomatch hKind
  · right
    have hNot : ∀ layout w a, made.kind ≠ .buffer layout w a := by
      intro layout w a hKind
      exact hBuffer ⟨layout, w, a, hKind⟩
    rw [Symbol.accessed_of_not_buffer hNot]
    exact ⟨hNot, hMakes⟩

/-- Every symbol but a loop counter is named by its number. -/
theorem handle_eq (hL : Covered t usage device settings order table) (hs : table.get? p = some s)
    (hNot : ∀ level, s.kind ≠ .placeholder level) :
    s.handle = settings.nameStem ++ Text.ofNat (t.numberIn order p) := by
  obtain ⟨n, hn, ⟨layout, hOp, hShape, rfl⟩ | ⟨-, hMakes⟩⟩ := hL.entry hs
  · rfl
  · cases hMakes with
    | placeholder => exact absurd rfl (hNot _)
    | buffer | hostScalar | binary | unary | reduction | view | loop => rfl

theorem isNumbered_of_node {n : Node} (hn : t.get? p = some n)
    (h : ∀ level, n.op ≠ .placeholder level) : t.isNumbered p = true := by
  unfold Tree.isNumbered
  rw [hn]
  split
  · next level hOp => exact absurd (Option.some.inj hOp) (h level)
  · rfl

end Covered

/-! ## Arrays -/

theorem Kind.shape?_eq (kind : Kind) (handle : Text) :
    kind.shape? = (kind.array? handle).map Prod.fst := by
  cases kind <;> rfl

theorem Symbol.shape?_eq (s : Symbol) : s.shape? = s.array?.map Prod.fst :=
  s.kind.shape?_eq s.handle

theorem Symbol.shape?_of_array? {s : Symbol} {shape : Shape} {storage : Storage}
    (h : s.array? = some (shape, storage)) : s.shape? = some shape := by
  rw [shape?_eq, h]
  rfl

theorem Symbol.isArray_of_shape? {s : Symbol} {shape : Shape} (h : s.shape? = some shape) :
    s.isArray = true := by
  unfold isArray
  rw [h]
  rfl

namespace Lowered

variable {s : Symbol}

theorem exists_array? (h : s.isArray = true) :
    ∃ shape storage, s.array? = some (shape, storage) := by
  unfold Symbol.isArray at h
  rw [Symbol.shape?_eq, Option.isSome_map] at h
  obtain ⟨⟨shape, storage⟩, hArray⟩ := Option.isSome_iff_exists.mp h
  exact ⟨shape, storage, hArray⟩

theorem isArray_of_array? {shape : Shape} {storage : Storage}
    (hArray : s.array? = some (shape, storage)) : s.isArray = true :=
  Symbol.isArray_of_shape? (Symbol.shape?_of_array? hArray)

end Lowered

/-- What an array of a lowered tree is: an accessed buffer, or a view of an array with a
smaller number. -/
inductive ArrayEntry (t : Tree) (table : Table) (settings : Settings) (number : Nat → Nat)
    (p : Nat) (s : Symbol) : Prop
  | buffer (n : Node) (layout : Layout) (written : Bool) (hNode : t.get? p = some n)
      (hOp : n.op = .buffer layout.strides layout.start) (hShape : n.shape = layout.shape)
      (hKind : s.kind = .buffer layout written (some (layout.accessPath settings.contiguous)))
      (hHelpers : ∀ h, h ∈ s.helpers ↔
        h = layout.accessHelper s.handle (layout.accessPath settings.contiguous))
  | view (n m : Node) (v : View) (child : Nat) (operand : Symbol) (under : Storage)
      (element : ElementRef) (hNode : t.get? p = some n) (hOp : n.op = .view v)
      (hLhs : n.lhs = some child) (hChild : t.get? child = some m)
      (hOperand : table.get? child = some operand)
      (hArray : operand.array? = some (m.shape, under))
      (hMatrix : v = .diagonal → m.shape.length = 2)
      (hElement : v.elementRef? operand.accessName (v.storage under m.shape.length) n.shape
        m.shape = some element)
      (hNumber : number child < number p)
      (hKind : s.kind = .view (n.links p) v n.shape (v.storage under m.shape.length))
      (hHelpers : ∀ h, h ∈ s.helpers ↔
        h = ⟨s.accessName, IndexExpr.axisNames n.shape.length, element.text⟩ ∨
          h ∈ operand.helpers)

namespace Covered

variable {t : Tree} {usage : Usage} {device : Device} {settings : Settings} {order : List Nat}
  {table : Table} {p : Nat} {s : Symbol}

/-- The shape of an array is that of its node, and its name is numbered. -/
theorem array_node (hL : Covered t usage device settings order table)
    (hs : table.get? p = some s) {shape : Shape} {storage : Storage}
    (hArray : s.array? = some (shape, storage)) :
    ∃ n, t.get? p = some n ∧ shape = n.shape ∧ t.isNumbered p = true ∧
      s.name = .generated settings.nameStem (t.numberIn order p) := by
  obtain ⟨n, hn, ⟨layout, hOp, hShape, rfl⟩ | ⟨hNot, hMakes⟩⟩ := hL.entry hs
  · cases hArray
    refine ⟨n, hn, hShape.symm, isNumbered_of_node hn ?_, rfl⟩
    rw [hOp]
    exact fun _ => nofun
  · cases hMakes with
    | buffer => exact absurd rfl (hNot _ _ _)
    | hostScalar => exact nomatch hArray
    | placeholder => exact nomatch hArray
    | binary => exact nomatch hArray
    | unary => exact nomatch hArray
    | reduction => exact nomatch hArray
    | view hOp =>
        cases hArray
        refine ⟨n, hn, rfl, isNumbered_of_node hn ?_, rfl⟩
        rw [hOp]
        exact fun _ => nofun
    | loop => exact nomatch hArray

/-- Every array is an accessed buffer or a view of an array before it. -/
theorem arrayEntry (hL : Covered t usage device settings order table)
    (hs : table.get? p = some s) (hArray : s.isArray = true) :
    ArrayEntry t table settings (t.numberIn order) p s := by
  obtain ⟨n, hn, ⟨layout, hOp, hShape, rfl⟩ | ⟨hNot, hMakes⟩⟩ := hL.entry hs
  · refine .buffer n layout _ hn hOp hShape rfl fun h => ?_
    show h ∈ HelperSet.insert .empty _ ↔ _
    rw [HelperSet.mem_insert]
    exact or_iff_left (HelperSet.not_mem_empty h)
  · cases hMakes with
    | buffer => exact absurd rfl (hNot _ _ _)
    | hostScalar => exact nomatch hArray
    | placeholder => exact nomatch hArray
    | binary => exact nomatch hArray
    | unary => exact nomatch hArray
    | reduction => exact nomatch hArray
    | @view v child operand source under element hOp hChildren hLhs hOperand hUnder hMatrix
        hElement =>
        obtain ⟨m, hm, rfl, hNumbered, -⟩ := hL.array_node hOperand hUnder
        -- the operand is listed before the view, so its number is smaller
        have hMem : p ∈ order := (hL.contains_iff p).mp (Table.contains_iff.mpr ⟨_, hs⟩)
        have hInner : n.op.family ≠ .leaf := by
          rw [hOp]
          exact nofun
        have hChild : child ∈ n.children := Node.mem_children.mpr (.inl hLhs)
        obtain ⟨before, after, hOrder, hBefore⟩ := hL.behind hMem hn hInner hChild
        have hNumber : t.numberIn order child < t.numberIn order p := by
          have hNodup := hL.nodup
          rw [hOrder] at hNodup ⊢
          exact Tree.numberIn_lt hNodup hBefore hNumbered
        exact .view n m v child operand under element hn hOp hLhs hm hOperand hUnder hMatrix
          hElement hNumber rfl fun h => HelperSet.mem_insert
    | loop => exact nomatch hArray

end Covered

/-! ## Helpers and their names -/

/-- The helper is the one with which the array at a position accesses its elements. -/
def Table.Owns (table : Table) (p : Nat) (h : Helper) : Prop :=
  ∃ s, table.get? p = some s ∧ s.isArray = true ∧ h ∈ s.helpers ∧ h.name = s.accessName

namespace ReduceOp

theorem length_name (op : ReduceOp) : op.name.length = 3 := by
  cases op <;> rfl

theorem name_injective {op op' : ReduceOp} (h : op.name = op'.name) : op = op' := by
  cases op <;> cases op' <;> first | rfl | exact absurd h (by decide)

end ReduceOp

namespace ScalarType

/-- The type with a suffix is found by it. -/
theorem find?_suffix (t : ScalarType) : all.find? (fun u => u.suffix == t.suffix) = some t := by
  cases t <;> rfl

theorem suffix_injective {t u : ScalarType} (h : t.suffix = u.suffix) : t = u := by
  have hFound := find?_suffix t
  rw [h, find?_suffix u] at hFound
  exact (Option.some.inj hFound).symm

theorem getLast?_suffix (t : ScalarType) : ∃ c, t.suffix.getLast? = some c ∧ c ≠ 't' := by
  cases t <;> exact ⟨_, rfl, by decide⟩

end ScalarType

theorem getLast?_accessName (handle : Text) : (accessName handle).getLast? = some 't' := by
  rw [accessName, List.getLast?_append]
  rfl

namespace ReduceOp

theorem helperName_injective {op op' : ReduceOp} {t t' : ScalarType}
    (h : op.helperName t = op'.helperName t') : op = op' ∧ t = t' := by
  unfold helperName at h
  simp only [List.append_assoc] at h
  have hTail := List.append_cancel_left h
  obtain ⟨hName, hRest⟩ := List.append_inj hTail (by rw [length_name, length_name])
  exact ⟨name_injective hName, ScalarType.suffix_injective (List.append_cancel_left hRest)⟩

theorem isIdentifier_helperName (op : ReduceOp) (t : ScalarType) :
    Text.isIdentifier (op.helperName t) = true := by
  have hName : op.name.all Text.isWordChar = true := by cases op <;> decide
  have hSuffix : t.suffix.all Text.isWordChar = true := by cases t <;> decide
  unfold helperName
  refine Text.isIdentifier_append (Text.isIdentifier_append (Text.isIdentifier_append ?_ hName) ?_)
    hSuffix
  · decide
  · decide

/-- The name of a combining helper does not end as that of an access helper. -/
theorem helperName_ne_accessName (op : ReduceOp) (t : ScalarType) (handle : Text) :
    op.helperName t ≠ accessName handle := by
  intro h
  have hEnd : (op.helperName t).getLast? = some 't' := by
    rw [h, getLast?_accessName]
  unfold helperName at hEnd
  rw [List.getLast?_append] at hEnd
  obtain ⟨c, hc, hne⟩ := t.getLast?_suffix
  rw [hc, Option.some_or] at hEnd
  exact hne (Option.some.inj hEnd)

end ReduceOp

/-- The number in the name of an access helper can be read off. -/
theorem accessName_numbered_injective {stem : Text} {m n : Nat}
    (h : accessName (stem ++ Text.ofNat m) = accessName (stem ++ Text.ofNat n)) : m = n :=
  (Text.numbered_inj rfl rfl h).1

theorem isIdentifier_accessName {stem : Text} (h : Text.isIdentifier stem = true) (n : Nat) :
    Text.isIdentifier (accessName (stem ++ Text.ofNat n)) = true := by
  unfold accessName
  refine Text.isIdentifier_append (Text.isIdentifier_append h (Text.all_isWordChar_ofNat n)) ?_
  decide

namespace Covered

variable {t : Tree} {usage : Usage} {device : Device} {settings : Settings} {order : List Nat}
  {table : Table} {p q : Nat} {s : Symbol} {h g : Helper}

theorem mem_order_of_get? (hL : Covered t usage device settings order table)
    (hs : table.get? p = some s) : p ∈ order :=
  (hL.contains_iff p).mp (Table.contains_iff.mpr ⟨s, hs⟩)

theorem accessName_eq (hL : Covered t usage device settings order table)
    (hs : table.get? p = some s) (hArray : s.isArray = true) :
    s.accessName = accessName (settings.nameStem ++ Text.ofNat (t.numberIn order p)) ∧
      t.isNumbered p = true := by
  obtain ⟨shape, storage, hShape⟩ := Lowered.exists_array? hArray
  obtain ⟨n, -, -, hNumbered, hName⟩ := hL.array_node hs hShape
  refine ⟨?_, hNumbered⟩
  unfold Symbol.accessName Symbol.handle
  rw [hName]
  rfl

/-- Every array has an access helper of its own. -/
theorem exists_owns (hL : Covered t usage device settings order table)
    (hs : table.get? p = some s) (hArray : s.isArray = true) : ∃ h, table.Owns p h := by
  cases hL.arrayEntry hs hArray with
  | buffer n layout written hNode hOp hShape hKind hHelpers =>
      exact ⟨_, s, hs, hArray, (hHelpers _).mpr rfl, rfl⟩
  | view n m v child operand under element hNode hOp hLhs hChild hOperand hUnder hMatrix hElement
      hNumber hKind hHelpers =>
      exact ⟨_, s, hs, hArray, (hHelpers _).mpr (.inl rfl), rfl⟩

/-- The helpers of an array are its own and those of the arrays under it, which bring all
of theirs. -/
theorem owns_of_mem (hL : Covered t usage device settings order table)
    (hs : table.get? p = some s) (hArray : s.isArray = true) (hMem : h ∈ s.helpers) :
    ∃ q u, table.get? q = some u ∧ table.Owns q h ∧ (∀ g ∈ u.helpers, g ∈ s.helpers) ∧
      (q = p ∨ t.numberIn order q < t.numberIn order p) := by
  induction p using Nat.strongRecOn generalizing s with
  | _ p ih =>
      cases hL.arrayEntry hs hArray with
      | buffer n layout written hNode hOp hShape hKind hHelpers =>
          have hEq := (hHelpers h).mp hMem
          have hName : h.name = s.accessName := by
            rw [hEq]
            rfl
          exact ⟨p, s, hs, ⟨s, hs, hArray, hMem, hName⟩, fun _ hg => hg, .inl rfl⟩
      | view n m v child operand under element hNode hOp hLhs hChild hOperand hUnder hMatrix
          hElement hNumber hKind hHelpers =>
          rcases (hHelpers h).mp hMem with hEq | hUnderMem
          · have hName : h.name = s.accessName := by rw [hEq]
            exact ⟨p, s, hs, ⟨s, hs, hArray, hMem, hName⟩, fun _ hg => hg, .inl rfl⟩
          · have hLt : child < p := Tree.child_lt hNode (Node.mem_children.mpr (.inl hLhs))
            obtain ⟨q, u, hu, hOwns, hBrings, hq⟩ :=
              ih child hLt hOperand (Lowered.isArray_of_array? hUnder) hUnderMem
            refine ⟨q, u, hu, hOwns, fun g hg => (hHelpers g).mpr (.inr (hBrings g hg)), .inr ?_⟩
            rcases hq with rfl | hq
            · exact hNumber
            · omega

/-- The name of an access helper leads back to the position of its array. -/
theorem eq_of_owns_of_name_eq (hL : Covered t usage device settings order table)
    (hp : table.Owns p h) (hq : table.Owns q g) (hName : h.name = g.name) : p = q := by
  obtain ⟨s, hs, hArray, -, hh⟩ := hp
  obtain ⟨u, hu, hArray', -, hg⟩ := hq
  obtain ⟨hsName, hsNumbered⟩ := hL.accessName_eq hs hArray
  obtain ⟨huName, huNumbered⟩ := hL.accessName_eq hu hArray'
  rw [hh, hg, hsName, huName] at hName
  exact Tree.numberIn_inj hL.nodup (hL.mem_order_of_get? hs) (hL.mem_order_of_get? hu) hsNumbered
    huNumbered (accessName_numbered_injective hName)

/-- An array with a smaller number does not have the helper among its own. -/
theorem not_mem_of_numberIn_lt (hL : Covered t usage device settings order table)
    (hOwns : table.Owns p h) (hs : table.get? q = some s) (hArray : s.isArray = true)
    (hNumber : t.numberIn order q < t.numberIn order p) : h ∉ s.helpers := by
  intro hMem
  obtain ⟨r, -, -, hOwner, -, hr⟩ := hL.owns_of_mem hs hArray hMem
  obtain rfl := hL.eq_of_owns_of_name_eq hOwner hOwns rfl
  rcases hr with rfl | hr
  · exact Nat.lt_irrefl _ hNumber
  · exact Nat.lt_asymm hr hNumber

theorem owns_unique (hL : Covered t usage device settings order table)
    (hh : table.Owns p h) (hg : table.Owns p g) : h = g := by
  obtain ⟨s, hs, hArray, hMem, hName⟩ := hh
  obtain ⟨u, hu, -, hMem', hName'⟩ := hg
  rw [hs] at hu
  cases hu
  cases hL.arrayEntry hs hArray with
  | buffer n layout written hNode hOp hShape hKind hHelpers =>
      rw [(hHelpers h).mp hMem, (hHelpers g).mp hMem']
  | view n m v child operand under element hNode hOp hLhs hChild hOperand hUnder hMatrix hElement
      hNumber hKind hHelpers =>
      -- a helper of the array under the view has the name of an array with a smaller number
      have hOwn {f : Helper} (hf : f ∈ s.helpers) (hfName : f.name = s.accessName) :
          f ∉ operand.helpers :=
        hL.not_mem_of_numberIn_lt ⟨s, hs, hArray, hf, hfName⟩ hOperand
          (Lowered.isArray_of_array? hUnder) hNumber
      rw [((hHelpers h).mp hMem).resolve_right (hOwn hMem hName),
        ((hHelpers g).mp hMem').resolve_right (hOwn hMem' hName')]

/-- A helper of the table accesses an array or combines two values. -/
theorem helper_cases (hL : Covered t usage device settings order table) (hMem : h ∈ table.helpers) :
    (∃ q, table.Owns q h) ∨ ∃ op dtype, h = ReduceOp.helper op dtype device.dialect := by
  obtain ⟨⟨q, s⟩, hEntry, hh⟩ := Table.mem_helpers.mp hMem
  have hs : table.get? q = some s := Table.get?_eq_some_iff.mpr hEntry
  by_cases hArray : s.isArray = true
  · obtain ⟨r, -, -, hOwns, -⟩ := hL.owns_of_mem hs hArray hh
    exact .inl ⟨r, hOwns⟩
  · right
    obtain ⟨n, hn, ⟨layout, hOp, hShape, rfl⟩ | ⟨hNot, hMakes⟩⟩ := hL.entry hs
    · exact absurd rfl hArray
    · cases hMakes with
      | buffer => exact absurd rfl hArray
      | hostScalar => exact absurd hh (HelperSet.not_mem_empty h)
      | placeholder => exact absurd hh (HelperSet.not_mem_empty h)
      | binary => exact absurd hh (HelperSet.not_mem_empty h)
      | unary => exact absurd hh (HelperSet.not_mem_empty h)
      | @reduction op axes child operand =>
          rcases HelperSet.mem_insert.mp hh with hEq | hEmpty
          · exact ⟨op, n.dtype, hEq⟩
          · exact absurd hEmpty (HelperSet.not_mem_empty h)
      | view => exact absurd rfl hArray
      | loop => exact absurd hh (HelperSet.not_mem_empty h)

/-- No two helpers of the table have one name. -/
theorem helper_eq_of_name_eq (hL : Covered t usage device settings order table)
    (hh : h ∈ table.helpers) (hg : g ∈ table.helpers) (hName : h.name = g.name) : h = g := by
  -- names of the two kinds of helpers never meet
  have hMixed {f : Helper} {r : Nat} {op : ReduceOp} {dtype : ScalarType}
      (hf : table.Owns r f) : op.helperName dtype ≠ f.name := by
    obtain ⟨s, -, -, -, hfName⟩ := hf
    rw [hfName]
    exact op.helperName_ne_accessName dtype s.handle
  rcases hL.helper_cases hh with ⟨q, hq⟩ | ⟨op, dtype, rfl⟩
  · rcases hL.helper_cases hg with ⟨r, hr⟩ | ⟨op, dtype, rfl⟩
    · obtain rfl := hL.eq_of_owns_of_name_eq hq hr hName
      exact hL.owns_unique hq hr
    · exact absurd hName.symm (hMixed hq)
  · rcases hL.helper_cases hg with ⟨r, hr⟩ | ⟨op', dtype', rfl⟩
    · exact absurd hName (hMixed hr)
    · obtain ⟨rfl, rfl⟩ := ReduceOp.helperName_injective hName
      rfl

theorem isIdentifier_of_owns (hL : Covered t usage device settings order table)
    (hStem : Text.isIdentifier settings.nameStem = true) (hOwns : table.Owns q h) :
    Text.isIdentifier h.name = true := by
  obtain ⟨s, hs, hArray, -, hName⟩ := hOwns
  rw [hName, (hL.accessName_eq hs hArray).1]
  exact isIdentifier_accessName hStem _

theorem distinctNames (hL : Covered t usage device settings order table)
    (hStem : Text.isIdentifier settings.nameStem = true) :
    DistinctNames table.helpers.toList where
  identifier := by
    intro h hh
    rcases hL.helper_cases hh with ⟨q, hq⟩ | ⟨op, dtype, rfl⟩
    · exact hL.isIdentifier_of_owns hStem hq
    · exact op.isIdentifier_helperName dtype
  eq_of_name_eq := fun _ hh _ hg => hL.helper_eq_of_name_eq hh hg

end Covered

end ArrayKernel
