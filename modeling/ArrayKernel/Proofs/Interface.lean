import ArrayKernel.Proofs.Bodies
import ArrayKernel.Proofs.Calls

/-!
# The interface of the kernel

The arguments of the kernel of a lowered tree are numbered in order.  They are the
pointers, offsets and strides of its buffers and its host scalars, under the names
that the attributes of the symbols give, and nothing else.  The bodies of access
helpers name nothing that is not a parameter, a helper or one of these arguments.

Strides that are all equal have one name, so a buffer can have fewer arguments than
axes; each axis still has exactly one argument of its name.
-/

namespace ArrayKernel

/-! ## The identifiers of a text -/

namespace Text

/-- A word that begins the way an identifier does. -/
def Piece.identifier? : Piece → Option Text
  | .word w => if startsIdentifier w then some w else none
  | .other _ => none

/-- The identifiers of a text, in order. -/
def identifiers (t : Text) : List Text := (pieces t).filterMap Piece.identifier?

theorem identifiers_append_other {c : Char} (hc : isWordChar c = false) (s t : Text) :
    identifiers (s ++ c :: t) = identifiers s ++ identifiers t := by
  unfold identifiers
  rw [pieces_append (by simpa using hc), pieces_cons_other hc, List.filterMap_append]
  rfl

theorem identifiers_cons_other {c : Char} (hc : isWordChar c = false) (t : Text) :
    identifiers (c :: t) = identifiers t :=
  identifiers_append_other hc [] t

theorem identifiers_of_isIdentifier {name : Text} (h : isIdentifier name = true) :
    identifiers name = [name] := by
  unfold identifiers
  rw [pieces_identifier h]
  simp [Piece.identifier?, startsIdentifier_of_isIdentifier h]

/-- A run of digits is no identifier. -/
theorem identifiers_of_digits {digits : Text} (hne : digits ≠ [])
    (hall : digits.all Char.isDigit = true) : identifiers digits = [] := by
  obtain ⟨c, rest, rfl⟩ := List.exists_cons_of_ne_nil hne
  have hDigit : c.isDigit = true := List.all_eq_true.mp hall c (.head _)
  have hWord : (c :: rest).all isWordChar = true :=
    List.all_eq_true.mpr fun d hd => isWordChar_of_isDigit (List.all_eq_true.mp hall d hd)
  unfold identifiers
  rw [pieces_word hne hWord]
  simp [Piece.identifier?, startsIdentifier, isWordStart_of_isDigit hDigit]

end Text

section

variable {P : Text → Prop} {s t : Text}

theorem Text.forall_identifiers_append {c : Char} (hc : isWordChar c = false)
    (hs : ∀ w ∈ identifiers s, P w) (ht : ∀ w ∈ identifiers t, P w) :
    ∀ w ∈ identifiers (s ++ c :: t), P w := by
  intro w hw
  rw [identifiers_append_other hc] at hw
  rcases List.mem_append.mp hw with hw | hw
  · exact hs w hw
  · exact ht w hw

theorem Text.forall_identifiers_of_isIdentifier {name : Text} (h : isIdentifier name = true)
    (hName : P name) : ∀ w ∈ identifiers name, P w := by
  intro w hw
  rw [identifiers_of_isIdentifier h, List.mem_singleton] at hw
  exact hw ▸ hName

/-- The identifiers in the text of an expression are names in the expression. -/
theorem IndexExpr.forall_identifiers {e : IndexExpr} (h : e.isReadable = true)
    (hNames : e.NamesIn P) : ∀ w ∈ Text.identifiers e.text, P w := by
  have hDigits {digits : Text} (hne : digits ≠ []) (hall : digits.all Char.isDigit = true) :
      ∀ w ∈ Text.identifiers digits, P w := by
    intro w hw
    rw [Text.identifiers_of_digits hne hall] at hw
    exact absurd hw List.not_mem_nil
  have hFactor (f : Factor) {a b : IndexExpr} (ha : ∀ w ∈ Text.identifiers a.text, P w)
      (hb : ∀ w ∈ Text.identifiers b.text, P w) :
      ∀ w ∈ Text.identifiers (f.apply a b).text, P w := by
    rw [text_factor]
    exact Text.forall_identifiers_append (by cases f <;> decide) ha hb
  induction e with
  | const n => exact hDigits (Text.ofNat_ne_nil n) (Text.all_isDigit_ofNat n)
  | var name =>
      rcases isName_cases h with hName | ⟨digits, rfl, hne, hall⟩
      · exact Text.forall_identifiers_of_isIdentifier hName hNames
      · -- of an index of the loop domain, only the digits are a word
        show ∀ w ∈ Text.identifiers ('$' :: digits), P w
        rw [Text.identifiers_cons_other (by decide)]
        exact hDigits hne hall
  | group e ih =>
      have hText : (group e).text = '(' :: (e.text ++ ')' :: []) := by simp [text]
      rw [hText, Text.identifiers_cons_other (by decide)]
      exact Text.forall_identifiers_append (by decide) (ih h hNames)
        fun _ hw => absurd hw List.not_mem_nil
  | add a b iha ihb =>
      simp only [isReadable, Bool.and_eq_true] at h
      have hText : (add a b).text = a.text ++ ' ' :: '+' :: ' ' :: b.text := by simp [text]
      rw [hText]
      refine Text.forall_identifiers_append (by decide) (iha h.1.1 hNames.1) ?_
      rw [Text.identifiers_cons_other (by decide), Text.identifiers_cons_other (by decide)]
      exact ihb h.1.2 hNames.2
  | mul a b iha ihb =>
      simp only [isReadable, Bool.and_eq_true] at h
      exact hFactor .times (iha h.1.1.1 hNames.1) (ihb h.1.1.2 hNames.2)
  | div a b iha ihb =>
      simp only [isReadable, Bool.and_eq_true] at h
      exact hFactor .quotient (iha h.1.1.1 hNames.1) (ihb h.1.1.2 hNames.2)
  | mod a b iha ihb =>
      simp only [isReadable, Bool.and_eq_true] at h
      exact hFactor .remainder (iha h.1.1.1 hNames.1) (ihb h.1.1.2 hNames.2)

theorem Text.forall_identifiers_join {ts : List Text}
    (h : ∀ t ∈ ts, ∀ w ∈ identifiers t, P w) : ∀ w ∈ identifiers (join ", " ts), P w := by
  induction ts with
  | nil => exact fun _ hw => absurd hw List.not_mem_nil
  | cons t ts ih =>
      cases ts with
      | nil => exact h t (.head _)
      | cons u ts =>
          have hText : join ", " (t :: u :: ts) = t ++ ',' :: ' ' :: join ", " (u :: ts) := by
            simp
          rw [hText]
          refine forall_identifiers_append (by decide) (h t (.head _)) ?_
          rw [identifiers_cons_other (by decide)]
          exact ih fun v hv => h v (.tail _ hv)

/-- The identifiers in the text of a reference are its own name and those of its parts. -/
theorem ElementRef.forall_identifiers {r : ElementRef} (hHead : Text.isIdentifier r.head = true)
    (hReadable : ∀ e ∈ r.parts, e.isReadable = true) (hName : P r.head)
    (hNames : ∀ e ∈ r.parts, e.NamesIn P) : ∀ w ∈ Text.identifiers r.text, P w := by
  have hFirst := Text.forall_identifiers_of_isIdentifier hHead hName
  have hNone : ∀ w ∈ Text.identifiers [], P w := fun _ hw => absurd hw List.not_mem_nil
  cases r with
  | stored pointer offset =>
      rw [text_stored]
      refine Text.forall_identifiers_append (by decide) hFirst ?_
      refine Text.forall_identifiers_append (by decide) ?_ hNone
      exact IndexExpr.forall_identifiers (hReadable offset (.head _)) (hNames offset (.head _))
  | through helper indices =>
      rw [text_through]
      refine Text.forall_identifiers_append (by decide) hFirst ?_
      refine Text.forall_identifiers_append (by decide) ?_ hNone
      refine Text.forall_identifiers_join fun u hu => ?_
      obtain ⟨e, he, rfl⟩ := List.mem_map.mp hu
      exact IndexExpr.forall_identifiers (hReadable e he) (hNames e he)

end

/-! ## Arguments and the helpers that name them -/

theorem exists_of_isAccessName {name : Text} (h : isAccessName name = true) :
    ∃ handle, name = accessName handle := by
  obtain ⟨handle, hEq⟩ := List.isSuffixOf_iff_suffix.mp h
  exact ⟨handle, hEq.symm⟩

namespace Lowered

variable {t : Tree} {usage : Usage} {device : Device} {settings : Settings} {order : List Nat}
  {table : Table} {p : Nat} {s : Symbol} {h : Helper}

theorem exists_owns_of_isAccessName (hL : Lowered t usage device settings order table)
    (hMem : h ∈ table.helpers) (hName : isAccessName h.name = true) : ∃ q, table.Owns q h := by
  rcases hL.helper_cases hMem with hOwns | ⟨op, dtype, rfl⟩
  · exact hOwns
  · -- names of combining helpers end in the suffix of a type
    obtain ⟨handle, hEq⟩ := exists_of_isAccessName hName
    exact absurd hEq (op.helperName_ne_accessName dtype handle)

/-- What an access helper names is known where it is used. -/
theorem identifiers_bound (hL : Lowered t usage device settings order table)
    (hStem : Text.isIdentifier settings.nameStem = true) (hOwns : table.Owns p h) :
    ∀ w ∈ Text.identifiers h.body,
      w ∈ h.params ∨ (∃ g ∈ table.helpers, g.name = w) ∨ table.IsArgument w := by
  cases hL.accessBody hStem hOwns with
  | stored pointer offset hBody hPointer hReadable hArgument hNames =>
      rw [hBody]
      refine ElementRef.forall_identifiers hPointer ?_ (.inr (.inr hArgument)) ?_
      · intro e he
        rw [List.mem_singleton.mp he]
        exact hReadable
      · intro e he
        rw [List.mem_singleton.mp he]
        refine hNames.mono fun name hName => ?_
        rcases hName with hParam | hArgument
        · exact .inl hParam
        · exact .inr (.inr hArgument)
  | through q g indices hUnder hNumber hgMem hBody hArity hReadable hNames =>
      obtain ⟨u, hu, -, hMem, -⟩ := id hUnder
      rw [hBody]
      refine ElementRef.forall_identifiers (hL.isIdentifier_of_owns hStem hUnder) hReadable ?_ ?_
      · exact .inr (.inl ⟨g, mem_helpers hu hMem, rfl⟩)
      · intro e he
        exact (hNames e he).mono fun _ hParam => .inl hParam

/-- The arguments of a buffer, under the names that its attributes give. -/
theorem buffer_arguments (hL : Lowered t usage device settings order table)
    (hs : table.get? p = some s) {layout : Layout} {written : Bool} {access : Option AccessPath}
    (hKind : s.kind = .buffer layout written access) :
    (∃ name, s.attr "pointer" = .ok name ∧ table.HasArgument name s.dtype (.pointer written)) ∧
      (∃ name, s.attr "start" = .ok name ∧
        table.HasArgument name .index (.layout layout.start)) ∧
      ∀ (k stride : Nat), layout.strides[k]? = some stride →
        ∃ name, s.attr ("stride" ++ Text.ofNat k) = .ok name ∧
          table.HasArgument name .index (.layout stride) := by
  have hAsked {a : KernelArgument} (ha : a = ⟨0, s.handle, s.dtype, .pointer written⟩ ∨
      a = .ofLayout 0 (Layout.startName s.handle) layout.start ∨
        ∃ (k : Nat) (name : Text) (stride : Nat), (layout.strideNames s.handle)[k]? = some name ∧
          layout.strides[k]? = some stride ∧ a = .ofLayout 0 name stride) :
      table.HasArgument a.name a.dtype a.role :=
    hL.hasArgument hs (Symbol.mem_arguments.mpr (.inl ⟨layout, written, _, hKind, ha⟩))
  refine ⟨⟨_, Symbol.attr_pointer hKind, hAsked (.inl rfl)⟩,
    ⟨_, Symbol.attr_start hKind, hAsked (.inr (.inl rfl))⟩, ?_⟩
  intro k stride hStride
  -- there are as many names as strides
  obtain ⟨hLt, -⟩ := List.getElem?_eq_some_iff.mp hStride
  have hName : k < (layout.strideNames s.handle).length := by
    rw [Layout.length_strideNames]
    rw [layout.length_strides] at hLt
    exact hLt
  have hGet := List.getElem?_eq_getElem hName
  exact ⟨_, Symbol.attr_stride hKind hGet, hAsked (.inr (.inr ⟨k, _, stride, hGet, hStride, rfl⟩))⟩

end Lowered

/-- An argument is named by an attribute of a buffer or by a host scalar. -/
theorem Table.argument_cases {table : Table} {a : KernelArgument}
    (ha : a ∈ table.kernelArguments) :
    ∃ p s, table.get? p = some s ∧
      ((∃ layout written access, s.kind = .buffer layout written access ∧
        (s.attr "pointer" = .ok a.name ∨ s.attr "start" = .ok a.name ∨
          ∃ k < layout.strides.length, s.attr ("stride" ++ Text.ofNat k) = .ok a.name)) ∨
        s.kind = .hostScalar ∧ a.name = s.handle) := by
  obtain ⟨p, s, hs, b, hb, hEq⟩ := exists_of_mem_kernelArguments ha
  have hName : a.name = b.name := by rw [hEq]
  refine ⟨p, s, hs, ?_⟩
  rw [hName]
  rcases Symbol.mem_arguments.mp hb with ⟨layout, written, access, hKind, hCases⟩ | ⟨hKind, rfl⟩
  · refine .inl ⟨layout, written, _, hKind, ?_⟩
    rcases hCases with rfl | rfl | ⟨k, name, stride, hGet, hStride, rfl⟩
    · exact .inl (Symbol.attr_pointer hKind)
    · exact .inr (.inl (Symbol.attr_start hKind))
    · obtain ⟨hLt, -⟩ := List.getElem?_eq_some_iff.mp hStride
      exact .inr (.inr ⟨k, hLt, Symbol.attr_stride hKind hGet⟩)
  · exact .inr ⟨hKind, rfl⟩

/-- **Kernel arguments are exact and complete.**  For a built tree and a stem of names that
is an identifier, collecting the arguments succeeds, and they are numbered in order.  Every
buffer has exactly one argument of the name of its pointer, with its type and whether it is
written, exactly one of the name of its offset, and for each axis exactly one of the name of
its stride, with their values.  Every host scalar has exactly one argument of its name.  There
is no other argument, and every identifier in the body of an access helper is a parameter, the
name of a helper or the name of an argument. -/
theorem kernel_arguments_exact {t : Tree} {root : Nat} {device : Device} {settings : Settings}
    {table : Table} (hBuilt : t.Built) (hTable : Table.ofTree t root device settings = .ok table)
    (hStem : Text.isIdentifier settings.nameStem = true) :
    table.collectArguments = .ok table.kernelArguments ∧
      (∀ (k : Nat) (a : KernelArgument), table.kernelArguments[k]? = some a → a.index = k) ∧
      (∀ {p : Nat} {s : Symbol} {layout : Layout} {written : Bool} {access : Option AccessPath},
        table.get? p = some s → s.kind = .buffer layout written access →
          (∃ name, s.attr "pointer" = .ok name ∧
            table.HasArgument name s.dtype (.pointer written)) ∧
          (∃ name, s.attr "start" = .ok name ∧
            table.HasArgument name .index (.layout layout.start)) ∧
          ∀ (k stride : Nat), layout.strides[k]? = some stride →
            ∃ name, s.attr ("stride" ++ Text.ofNat k) = .ok name ∧
              table.HasArgument name .index (.layout stride)) ∧
      (∀ {p : Nat} {s : Symbol}, table.get? p = some s → s.kind = .hostScalar →
        s.attr "name" = .ok s.handle ∧ table.HasArgument s.handle s.dtype .scalar) ∧
      (∀ a ∈ table.kernelArguments, ∃ p s, table.get? p = some s ∧
        ((∃ layout written access, s.kind = .buffer layout written access ∧
          (s.attr "pointer" = .ok a.name ∨ s.attr "start" = .ok a.name ∨
            ∃ k < layout.strides.length, s.attr ("stride" ++ Text.ofNat k) = .ok a.name)) ∨
          s.kind = .hostScalar ∧ a.name = s.handle)) ∧
      ∀ h ∈ table.helpers, isAccessName h.name = true → ∀ w ∈ Text.identifiers h.body,
        w ∈ h.params ∨ (∃ g ∈ table.helpers, g.name = w) ∨
          ∃ a ∈ table.kernelArguments, a.name = w := by
  obtain ⟨usage, order, hL⟩ := Lowered.of_ofTree hBuilt hTable
  refine ⟨table.collectArguments_eq, ?_, fun hs hKind => hL.buffer_arguments hs hKind, ?_,
    fun a ha => Table.argument_cases ha, ?_⟩
  · intro k a ha
    have hIndex := Table.index_numberArguments ha
    omega
  · intro p s hs hKind
    exact ⟨Symbol.attr_name_of_hostScalar hKind,
      hL.hasArgument hs (Symbol.mem_arguments.mpr (.inr ⟨hKind, rfl⟩))⟩
  · intro h hMem hName
    obtain ⟨q, hOwns⟩ := hL.exists_owns_of_isAccessName hMem hName
    exact hL.identifiers_bound hStem hOwns

/-- In the sums along rows, the matrix under the views has one argument for the stride of
its rows, and every name in an access helper is known. -/
theorem kernel_arguments_rowSums :
    ∃ table s u name, Table.ofTree .rowSums 8 .cpu {} = .ok table ∧ table.get? 0 = some s ∧
      table.get? 5 = some u ∧ table.collectArguments = .ok table.kernelArguments ∧
      (∀ (k : Nat) (a : KernelArgument), table.kernelArguments[k]? = some a → a.index = k) ∧
      s.attr "stride0" = .ok name ∧ table.HasArgument name .index (.layout 4) ∧
      u.attr "name" = .ok u.handle ∧ table.HasArgument u.handle u.dtype .scalar ∧
      ∀ h ∈ table.helpers, isAccessName h.name = true → ∀ w ∈ Text.identifiers h.body,
        w ∈ h.params ∨ (∃ g ∈ table.helpers, g.name = w) ∨
          ∃ a ∈ table.kernelArguments, a.name = w := by
  have hEval : ((Table.ofTree .rowSums 8 .cpu {}).toOption.bind fun table =>
      (table.get? 0).bind fun s => (table.get? 5).map fun u => (s.kind, u.kind)) =
      some (.buffer ⟨[2, 3], [4, 1], 5, rfl⟩ false (some .contiguous), .hostScalar) := by
    decide +kernel
  obtain ⟨table, hOption, hGet⟩ := Option.bind_eq_some_iff.mp hEval
  obtain ⟨s, hs, hGet⟩ := Option.bind_eq_some_iff.mp hGet
  obtain ⟨u, hu, hKinds⟩ := Option.map_eq_some_iff.mp hGet
  obtain ⟨hBuffer, hScalar⟩ := Prod.mk.inj hKinds
  have hTable := eq_ok_of_toOption hOption
  obtain ⟨hCollected, hIndices, hBuffers, hScalars, -, hNames⟩ :=
    kernel_arguments_exact Tree.built_rowSums hTable (by decide)
  obtain ⟨-, -, hStrides⟩ := hBuffers hs hBuffer
  obtain ⟨name, hName, hArgument⟩ := hStrides 0 4 rfl
  obtain ⟨hOwn, hValue⟩ := hScalars hu hScalar
  exact ⟨table, s, u, name, hTable, hs, hu, hCollected, hIndices, hName, hArgument, hOwn, hValue,
    hNames⟩

end ArrayKernel
