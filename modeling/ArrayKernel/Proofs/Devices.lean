import ArrayKernel.Proofs.AccessPaths

/-!
# Lowering for two devices

The device decides how operators, the starting values of reductions and the bodies of
combining helpers are spelled, and nothing else.  Lowering a tree for two devices fails with
one error or gives tables with the same symbols up to these spellings, and the kernels have
the same arguments.

Forms do differ in kind: the larger of two integers is a choice on one device and a call on
another.  Hence texts of symbols are NOT the same, not even up to the names of functions.
-/

namespace ArrayKernel

/-! ## Spelling -/

/-- The kind with its operator written in another form. -/
def Kind.withForm (form : Form) : Kind → Kind
  | binary links _ => .binary links form
  | unary links _ => .unary links form
  | kind => kind

/-- The attribute of the kind is spelled for a device: the operator of an arithmetic symbol,
or the value that a reduction starts from. -/
def Kind.Spells : Kind → Text → Prop
  | binary .., name | unary .., name => name = "op"
  | reduction .., name => name = "init"
  | _, _ => False

/-- The name is that of a helper that combines two values. -/
def ReduceOp.IsHelperName (name : Text) : Prop :=
  ∃ (op : ReduceOp) (dtype : ScalarType), name = op.helperName dtype

/-- Two symbols that differ at most in what is spelled for their devices: in the form of an
operator, in the attributes that hold such a text, and in the bodies of combining helpers. -/
structure Symbol.SameButSpelling (s u : Symbol) : Prop where
  handle : s.handle = u.handle
  dtype : s.dtype = u.dtype
  scopes : s.scopes = u.scopes
  kind : ∃ form, u.kind = s.kind.withForm form
  links : s.links? = u.links?
  attributes : List.Forall₂ (fun a b => a.1 = b.1 ∧ (a.2 = b.2 ∨ s.kind.Spells a.1))
    s.attributes u.attributes
  helpers : List.Forall₂ (Helper.SameButBody ReduceOp.IsHelperName) s.helpers.toList
    u.helpers.toList

/-! ## Symbols of one node -/

variable {x y : Target} {owned : Text → Prop} {s u : Symbol}

/-- Where the access paths are the same, only combining helpers differ. -/
theorem Helper.Alike.sameButCombining {h g : Helper} (hAlike : Helper.Alike x y owned h g)
    (hPath : x.contiguous = y.contiguous) : h.SameButBody ReduceOp.IsHelperName g := by
  cases hAlike with
  | same => exact ⟨rfl, rfl, .inl rfl⟩
  | access layout handle =>
      rw [hPath]
      exact ⟨rfl, rfl, .inl rfl⟩
  | combining op dtype => exact ⟨rfl, rfl, .inr ⟨op, dtype, rfl⟩⟩

namespace Kind.Alike

variable {k l : Kind}

theorem exists_withForm (h : k.Alike x y l) (hPath : x.contiguous = y.contiguous) :
    ∃ form, l = k.withForm form := by
  cases h with
  | binary links op operand => exact ⟨_, rfl⟩
  | unary links op operand result => exact ⟨_, rfl⟩
  | accessed layout written =>
      rw [hPath]
      exact ⟨.call [], rfl⟩
  | made | hostScalar | placeholder | reduction | view | loop => exact ⟨.call [], rfl⟩

theorem links?_eq (h : k.Alike x y l) : k.links? = l.links? := by
  cases h <;> rfl

end Kind.Alike

namespace Symbol.Alike

theorem storageName_eq (h : s.Alike x y owned u) : s.storageName = u.storageName := by
  unfold storageName
  rw [h.array?_eq, h.handle_eq]

/-- A symbol asks for the same arguments on every target. -/
theorem arguments_eq (h : s.Alike x y owned u) : s.arguments = u.arguments := by
  have hHandle := h.handle_eq
  have hType := h.dtype
  have hKind := h.kind
  unfold arguments
  rw [hHandle, hType]
  generalize s.kind = k at hKind ⊢
  generalize u.kind = l at hKind ⊢
  cases hKind <;> rfl

theorem forall₂_kindAttributes (h : s.Alike x y owned u) (hPath : x.contiguous = y.contiguous) :
    List.Forall₂ (fun a b => a.1 = b.1 ∧ (a.2 = b.2 ∨ s.kind.Spells a.1))
      s.kindAttributes u.kindAttributes := by
  have hSame {spells : Text → Prop} (attributes : Attributes) :
      List.Forall₂ (fun a b => a.1 = b.1 ∧ (a.2 = b.2 ∨ spells a.1)) attributes attributes :=
    List.forall₂_same.mpr fun _ _ => ⟨rfl, .inl rfl⟩
  have hHandle := h.handle_eq
  have hType := h.dtype
  have hKind := h.kind
  unfold kindAttributes
  rw [hHandle, hType]
  generalize s.kind = k at hKind ⊢
  generalize u.kind = l at hKind ⊢
  cases hKind with
  | binary | unary => exact .cons ⟨rfl, .inr rfl⟩ .nil
  | reduction links op scopes =>
      -- the starting value stands between the accumulator and the name of the helper
      exact .cons ⟨rfl, .inl rfl⟩ (.cons ⟨rfl, .inr rfl⟩ (.cons ⟨rfl, .inl rfl⟩ (hSame _)))
  | accessed layout written =>
      rw [hPath]
      exact hSame _
  | made | hostScalar | placeholder | view | loop => exact hSame _

theorem forall₂_attributes (h : s.Alike x y owned u) (hPath : x.contiguous = y.contiguous) :
    List.Forall₂ (fun a b => a.1 = b.1 ∧ (a.2 = b.2 ∨ s.kind.Spells a.1))
      s.attributes u.attributes := by
  unfold attributes
  rw [h.handle_eq, h.storageName_eq, h.dtype]
  exact .cons ⟨rfl, .inl rfl⟩ (.cons ⟨rfl, .inl rfl⟩ (.cons ⟨rfl, .inl rfl⟩
    (h.forall₂_kindAttributes hPath)))

end Symbol.Alike

/-! ## Tables of one tree -/

/-- Kernels of alike tables have the same arguments. -/
theorem Table.Alike.kernelArguments_eq {a b : Table} (h : a.Alike x y owned b) :
    a.kernelArguments = b.kernelArguments := by
  have hRaw : (a.entries.flatMap fun e => e.2.arguments) =
      b.entries.flatMap fun e => e.2.arguments := by
    unfold Table.Alike at h
    generalize a.entries = es at h ⊢
    generalize b.entries = fs at h ⊢
    induction h with
    | nil => rfl
    | cons hEntry _ ih =>
        rw [List.flatMap_cons, List.flatMap_cons, hEntry.2.arguments_eq, ih]
  unfold kernelArguments
  rw [hRaw]

/-- **The device does not change the interface of a kernel.**  On two devices, lowering fails
with one error or gives tables with the same positions, whose symbols have the same handles,
types, scopes and links, the same kinds up to the form of an operator, the same attributes
up to the operator of an arithmetic symbol and the starting value of a reduction, and the
same helpers up to the bodies of those that combine values.  The kernels have the same
arguments. -/
theorem device_keeps_interface (t : Tree) (root : Nat) (settings : Settings)
    (device device' : Device) :
    (∃ e, Table.ofTree t root device settings = .error e ∧
        Table.ofTree t root device' settings = .error e) ∨
      ∃ a b, Table.ofTree t root device settings = .ok a ∧
        Table.ofTree t root device' settings = .ok b ∧
        List.Forall₂ (fun e f => e.1 = f.1 ∧ e.2.SameButSpelling f.2) a.entries b.entries ∧
        List.Forall₂ (Helper.SameButBody ReduceOp.IsHelperName) a.helpers.toList
          b.helpers.toList ∧
        a.kernelArguments = b.kernelArguments := by
  rcases (Target.lower_agree ⟨device, settings.contiguous⟩ ⟨device', settings.contiguous⟩ t root
    settings).elim with hError | ⟨a, b, ha, hb, hAlike⟩
  · exact .inl hError
  right
  obtain ⟨order, usage, -, -, hA⟩ := Covered.of_ofTree ha
  obtain ⟨order', usage', -, -, hB⟩ := Covered.of_ofTree hb
  refine ⟨a, b, ha, hb, ?_, ?_, hAlike.kernelArguments_eq⟩
  · obtain ⟨hLength, hZip⟩ := List.forall₂_iff_zip.mp hAlike
    refine List.forall₂_iff_zip.mpr ⟨hLength, fun {e f} hMem => ?_⟩
    obtain ⟨hPosition, hSymbols⟩ := hZip hMem
    obtain ⟨he, hf⟩ := List.of_mem_zip hMem
    have hHelpers := hA.forall₂_helpers hB hSymbols.helpers
      (fun _ hh => Table.mem_helpers.mpr ⟨e, he, hh⟩)
      fun _ hg => Table.mem_helpers.mpr ⟨f, hf, hg⟩
    exact ⟨hPosition, hSymbols.handle_eq, hSymbols.dtype, hSymbols.scopes,
      hSymbols.kind.exists_withForm rfl, hSymbols.kind.links?_eq, hSymbols.forall₂_attributes rfl,
      hHelpers.imp fun _ _ hPair => hPair.sameButCombining rfl⟩
  · have hHelpers := hA.forall₂_helpers hB hAlike.helpers (fun _ hh => hh) fun _ hg => hg
    exact hHelpers.imp fun _ _ hPair => hPair.sameButCombining rfl

end ArrayKernel
