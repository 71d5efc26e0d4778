import ArrayKernel.Proofs.Arguments
import ArrayKernel.Proofs.Depiction

/-!
# The names that a kernel declares

A kernel declares its arguments, the accumulators of its reductions and its loop counters.
All but the counters are named by the stem of names, the number of a symbol and a suffix,
and the suffix begins with no digit, so that the number can be read off.  A counter is
named by its own stem and its level.

If neither stem begins with the other, then no name is declared twice.  The stems may end
in digits or underscores.  A stem that begins with the other one can make a counter and an
argument clash, as `k` and `k1` do.
-/

namespace ArrayKernel

/-- A thing that a kernel declares by name. -/
inductive Declared where
  | argument (index : Nat)
  /-- The accumulator of the first axes, up to a depth, of the reduction at a position. -/
  | accumulator (position depth : Nat)
  /-- The counter of the loops at a level. -/
  | counter (level : Nat)
  deriving DecidableEq, Repr

/-- The kernel of a table declares a thing under a name. -/
inductive Table.Declares (table : Table) : Declared → Text → Prop
  | argument {k : Nat} {a : KernelArgument} (h : table.kernelArguments[k]? = some a) :
      Declares table (.argument k) a.name
  | accumulator {p : Nat} {s : Symbol} {links : Links} {op : ReduceOp} {scopes : Nat}
      {name : Text} (hs : table.get? p = some s) (hKind : s.kind = .reduction links op scopes)
      (h : s.attr "acc" = .ok name) : Declares table (.accumulator p 1) name
  | innerAccumulator {p : Nat} {s : Symbol} {links : Links} {op : ReduceOp} {scopes : Nat}
      {name : Text} (hs : table.get? p = some s) (hKind : s.kind = .reduction links op scopes)
      (h : s.attr "acc_inner" = .ok name) : Declares table (.accumulator p 2) name
  | counter {p level : Nat} {s : Symbol} (hs : table.get? p = some s)
      (hKind : s.kind = .placeholder level) : Declares table (.counter level) s.handle

/-! ## Accumulators -/

namespace Symbol

variable {s : Symbol} {links : Links} {op : ReduceOp} {scopes : Nat}

/-- What follows the handle in the name of an accumulator. -/
def accumulatorSuffix (depth : Nat) : Text :=
  '_' :: Text.join "_" ((List.range depth).map reductionScope ++ ["acc".toList])

theorem accumulator_eq (handle : Text) (depth : Nat) :
    accumulator handle depth = handle ++ accumulatorSuffix depth := by
  obtain ⟨first, rest, hParts⟩ := List.exists_cons_of_ne_nil
    (List.append_ne_nil_of_right_ne_nil ((List.range depth).map reductionScope)
      (List.cons_ne_nil "acc".toList []))
  unfold accumulator qualified accumulatorSuffix
  rw [hParts, Text.join_cons_cons]
  simp

theorem arguments_of_reduction (h : s.kind = .reduction links op scopes) : s.arguments = [] := by
  unfold arguments
  rw [h]

end Symbol

/-! ## Arguments -/

namespace Table

/-- Numbering gives no name twice. -/
theorem nodup_numberArguments (index : Nat) (seen : List Text) (as : List KernelArgument) :
    ((numberArguments index seen as).map KernelArgument.name).Nodup := by
  induction as generalizing index seen with
  | nil => exact List.nodup_nil
  | cons a as ih =>
      rw [numberArguments]
      split
      · exact ih index seen
      · rw [List.map_cons, List.nodup_cons]
        refine ⟨fun hMem => ?_, ih (index + 1) (a.name :: seen)⟩
        -- a name that is kept counts as seen from here on
        obtain ⟨b, hb, hName⟩ := List.mem_map.mp hMem
        have hNot := (mem_numberArguments hb).1
        rw [hName] at hNot
        exact hNot (.head _)

theorem kernelArgument_index_eq {table : Table} {i j : Nat} {a b : KernelArgument}
    (ha : table.kernelArguments[i]? = some a) (hb : table.kernelArguments[j]? = some b)
    (hName : a.name = b.name) : i = j := by
  have hNodup := nodup_numberArguments 0 [] (table.entries.flatMap fun e => e.2.arguments)
  have ha' : (table.kernelArguments.map KernelArgument.name)[i]? = some a.name := by
    rw [List.getElem?_map, ha]
    rfl
  have hb' : (table.kernelArguments.map KernelArgument.name)[j]? = some a.name := by
    rw [List.getElem?_map, hb, hName]
    rfl
  obtain ⟨hLt, -⟩ := List.getElem?_eq_some_iff.mp ha'
  exact (List.getElem?_inj hLt hNodup).mp (ha'.trans hb'.symm)

/-- What is declared for a symbol under its handle and a suffix. -/
inductive DeclaredBy (table : Table) (p : Nat) (s : Symbol) (suffix : Text) : Declared → Prop
  | argument {k : Nat} {a b : KernelArgument} (h : table.kernelArguments[k]? = some a)
      (hb : b ∈ s.arguments) (hName : a.name = s.handle ++ suffix) :
      DeclaredBy table p s suffix (.argument k)
  | accumulator {links : Links} {op : ReduceOp} {scopes depth : Nat}
      (hKind : s.kind = .reduction links op scopes) (hDepth : depth = 1 ∨ depth = 2)
      (hSuffix : suffix = Symbol.accumulatorSuffix depth) :
      DeclaredBy table p s suffix (.accumulator p depth)

/-- A symbol declares one thing under a suffix. -/
theorem DeclaredBy.unique {table : Table} {p : Nat} {s : Symbol} {suffix : Text}
    {d e : Declared} (hd : DeclaredBy table p s suffix d) (he : DeclaredBy table p s suffix e) :
    d = e := by
  cases hd with
  | argument ha hb hName =>
      cases he with
      | argument ha' hb' hName' =>
          exact congrArg Declared.argument
            (kernelArgument_index_eq ha ha' (hName.trans hName'.symm))
      | accumulator hKind =>
          -- a reduction asks for no arguments
          rw [Symbol.arguments_of_reduction hKind] at hb
          exact nomatch hb
  | accumulator hKind hDepth hSuffix =>
      cases he with
      | argument ha' hb' hName' =>
          rw [Symbol.arguments_of_reduction hKind] at hb'
          exact nomatch hb'
      | accumulator hKind' hDepth' hSuffix' =>
          have hDiffer : Symbol.accumulatorSuffix 1 ≠ Symbol.accumulatorSuffix 2 := by decide
          rw [hSuffix] at hSuffix'
          rcases hDepth with rfl | rfl <;> rcases hDepth' with rfl | rfl
          · rfl
          · exact absurd hSuffix' hDiffer
          · exact absurd hSuffix'.symm hDiffer
          · rfl

end Table

/-! ## Names by stem -/

/-- Texts that begin with different stems, neither of which begins with the other, differ. -/
theorem Text.append_ne_append {a b : Text} (hab : ¬ a <+: b) (hba : ¬ b <+: a) (x y : Text) :
    a ++ x ≠ b ++ y := by
  intro h
  have hb : b <+: a ++ x := h ▸ List.prefix_append b y
  rcases Nat.le_total a.length b.length with hLe | hLe
  · exact hab (List.prefix_of_prefix_length_le (List.prefix_append a x) hb hLe)
  · exact hba (List.prefix_of_prefix_length_le hb (List.prefix_append a x) hLe)

namespace Covered

variable {t : Tree} {usage : Usage} {device : Device} {settings : Settings} {order : List Nat}
  {table : Table} {p q : Nat} {s u : Symbol} {name : Text} {d e : Declared}

/-- The number in a name leads back to one position, and the suffix can be read off. -/
theorem position_eq_of_name_eq (hL : Covered t usage device settings order table)
    (hs : table.get? p = some s) (hu : table.get? q = some u) (hp : t.isNumbered p = true)
    (hq : t.isNumbered q = true) {suffix suffix' : Text}
    (hSuffix : suffix.head?.any Char.isDigit = false)
    (hSuffix' : suffix'.head?.any Char.isDigit = false)
    (hName : settings.nameStem ++ Text.ofNat (t.numberIn order p) ++ suffix =
      settings.nameStem ++ Text.ofNat (t.numberIn order q) ++ suffix') :
    p = q ∧ suffix = suffix' := by
  obtain ⟨hNumber, hSame⟩ := Text.numbered_inj hSuffix hSuffix' hName
  exact ⟨Tree.numberIn_inj hL.nodup (hL.mem_order_of_get? hs) (hL.mem_order_of_get? hu) hp hq
    hNumber, hSame⟩

/-- The accumulators of a reduction are declared for it. -/
theorem declaredBy_of_reduction (hL : Covered t usage device settings order table)
    (hs : table.get? p = some s) {links : Links} {op : ReduceOp} {scopes depth : Nat}
    (hKind : s.kind = .reduction links op scopes) (hDepth : depth = 1 ∨ depth = 2) :
    ∃ suffix, t.isNumbered p = true ∧ Symbol.accumulator s.handle depth =
        settings.nameStem ++ Text.ofNat (t.numberIn order p) ++ suffix ∧
      suffix.head?.any Char.isDigit = false ∧
      table.DeclaredBy p s suffix (.accumulator p depth) := by
  rcases hL.name_cases hs with ⟨level, hCounter, -⟩ | ⟨hNumbered, hHandle⟩
  · rw [hKind] at hCounter
    exact nomatch hCounter
  · refine ⟨_, hNumbered, ?_, rfl, .accumulator hKind hDepth rfl⟩
    rw [Symbol.accumulator_eq, hHandle]

/-- What a kernel declares is a loop counter, or belongs to a symbol that is named by its
number. -/
theorem declares_cases (hL : Covered t usage device settings order table)
    (h : table.Declares d name) :
    (∃ level, d = .counter level ∧ name = settings.inductionStem ++ Text.ofNat level) ∨
      ∃ p s suffix, table.get? p = some s ∧ t.isNumbered p = true ∧
        name = settings.nameStem ++ Text.ofNat (t.numberIn order p) ++ suffix ∧
        suffix.head?.any Char.isDigit = false ∧ table.DeclaredBy p s suffix d := by
  cases h with
  | @argument k a ha =>
      right
      obtain ⟨p, s, hs, b, hb, hEq⟩ := Table.exists_of_mem_kernelArguments (List.mem_of_getElem? ha)
      obtain ⟨suffix, hbName, hSuffix⟩ := Symbol.name_of_mem_arguments hb
      obtain ⟨hHandle, hNumbered⟩ := hL.handle_of_mem_arguments hs hb
      have hName : a.name = s.handle ++ suffix := by rw [hEq, ← hbName]
      refine ⟨p, s, suffix, hs, hNumbered, ?_, hSuffix, .argument ha hb hName⟩
      rw [hName, hHandle]
  | @accumulator p s _ _ _ _ hs hKind hAttr =>
      obtain ⟨suffix, hBy⟩ := hL.declaredBy_of_reduction hs hKind (.inl rfl)
      rw [Symbol.attr_acc hKind] at hAttr
      cases hAttr
      exact .inr ⟨p, s, suffix, hs, hBy⟩
  | @innerAccumulator p s _ _ _ _ hs hKind hAttr =>
      obtain ⟨suffix, hBy⟩ := hL.declaredBy_of_reduction hs hKind (.inr rfl)
      cases Symbol.attr_acc_inner hKind hAttr
      exact .inr ⟨p, s, suffix, hs, hBy⟩
  | @counter p level s hs hKind =>
      left
      rcases hL.name_cases hs with ⟨level', hCounter, hHandle⟩ | ⟨hNumbered, -⟩
      · rw [hKind] at hCounter
        cases hCounter
        exact ⟨level, rfl, hHandle⟩
      · exact absurd hKind (hL.kind_ne_placeholder hs hNumbered level)

/-- A thing is declared under one name. -/
theorem name_eq_of_declares (hL : Covered t usage device settings order table) {name' : Text}
    (h : table.Declares d name) (h' : table.Declares d name') : name = name' := by
  rcases hL.declares_cases h with ⟨level, rfl, hName⟩ | ⟨p, s, suffix, hs, -, hName, -, hBy⟩
  · rcases hL.declares_cases h' with ⟨level', hEq, hName'⟩ | ⟨p, s, suffix, -, -, -, -, hBy⟩
    · cases hEq
      rw [hName, hName']
    · exact nomatch hBy
  · cases hBy with
    | argument ha =>
        cases h with
        | argument hk =>
            cases h' with
            | argument hk' =>
                rw [hk] at hk'
                cases hk'
                rfl
    | accumulator hKind hDepth hSuffix =>
        rcases hL.declares_cases h' with ⟨level, hEq, -⟩ | ⟨q, u, suffix', hu, -, hName', -, hBy'⟩
        · exact nomatch hEq
        · cases hBy' with
          | accumulator hKind' hDepth' hSuffix' => rw [hName, hName', hSuffix, hSuffix']

/-- Arguments of one name belong to one symbol. -/
theorem position_eq_of_argument_name_eq (hL : Covered t usage device settings order table)
    (hs : table.get? p = some s) (hu : table.get? q = some u) {a b : KernelArgument}
    (ha : a ∈ s.arguments) (hb : b ∈ u.arguments) (hName : a.name = b.name) : p = q := by
  obtain ⟨suffix, haName, hSuffix⟩ := Symbol.name_of_mem_arguments ha
  obtain ⟨suffix', hbName, hSuffix'⟩ := Symbol.name_of_mem_arguments hb
  obtain ⟨hsHandle, hp⟩ := hL.handle_of_mem_arguments hs ha
  obtain ⟨huHandle, hq⟩ := hL.handle_of_mem_arguments hu hb
  rw [haName, hbName, hsHandle, huHandle] at hName
  exact (hL.position_eq_of_name_eq hs hu hp hq hSuffix hSuffix' hName).1

section

variable (hApart : ∀ x y, settings.nameStem ++ x ≠ settings.inductionStem ++ y)

include hApart

/-- Names that begin with different stems differ; otherwise the number or the level can be
read off. -/
theorem declared_eq_of_name_eq (hL : Covered t usage device settings order table)
    (hd : table.Declares d name) (he : table.Declares e name) : d = e := by
  rcases hL.declares_cases hd with ⟨level, rfl, hEq⟩ | ⟨p, s, suffix, hs, hp, hEq, hSuffix, hBy⟩
  · rcases hL.declares_cases he with ⟨level', rfl, hEq'⟩ | ⟨q, u, suffix', -, -, hEq', -⟩
    · rw [hEq] at hEq'
      exact congrArg Declared.counter (Text.ofNat_injective (List.append_cancel_left hEq'))
    · rw [hEq, List.append_assoc] at hEq'
      exact absurd hEq'.symm (hApart _ _)
  · rcases hL.declares_cases he with
      ⟨level', -, hEq'⟩ | ⟨q, u, suffix', hu, hq, hEq', hSuffix', hBy'⟩
    · rw [hEq, List.append_assoc] at hEq'
      exact absurd hEq' (hApart _ _)
    · -- the number leads to the symbol, and the suffix to what is declared for it
      rw [hEq] at hEq'
      obtain ⟨rfl, rfl⟩ := hL.position_eq_of_name_eq hs hu hp hq hSuffix hSuffix' hEq'
      rw [hs] at hu
      cases hu
      exact hBy.unique hBy'

/-- Symbols of one handle are the same, or counters of one level. -/
theorem eq_or_counters_of_handle_eq (hL : Covered t usage device settings order table)
    (hs : table.get? p = some s) (hu : table.get? q = some u) (hSame : s.handle = u.handle) :
    p = q ∨ ∃ level, s.kind = .placeholder level ∧ u.kind = .placeholder level := by
  rcases hL.name_cases hs with ⟨level, hsKind, hsHandle⟩ | ⟨hp, hsHandle⟩
  · rcases hL.name_cases hu with ⟨level', huKind, huHandle⟩ | ⟨-, huHandle⟩
    · rw [hsHandle, huHandle] at hSame
      cases Text.ofNat_injective (List.append_cancel_left hSame)
      exact .inr ⟨level, hsKind, huKind⟩
    · rw [hsHandle, huHandle] at hSame
      exact absurd hSame.symm (hApart _ _)
  · rcases hL.name_cases hu with ⟨level', -, huHandle⟩ | ⟨hq, huHandle⟩
    · rw [hsHandle, huHandle] at hSame
      exact absurd hSame (hApart _ _)
    · rw [hsHandle, huHandle] at hSame
      have hBare : settings.nameStem ++ Text.ofNat (t.numberIn order p) ++ [] =
          settings.nameStem ++ Text.ofNat (t.numberIn order q) ++ [] := by
        rw [List.append_nil, List.append_nil, hSame]
      exact .inl (hL.position_eq_of_name_eq hs hu hp hq rfl rfl hBare).1

end

end Covered

/-- **Generated kernels have no name clash.**  If neither the stem of names nor the stem of
loop counters begins with the other, then two things that a kernel declares have one name
only if they are the same thing: the same argument, the same accumulator of the same
reduction, or the counter of the same level.  No argument stands for two symbols, and two
symbols have one handle only if they are loop counters of the same level. -/
theorem declared_names_distinct {t : Tree} {root : Nat} {device : Device} {settings : Settings}
    {table : Table} (hTable : Table.ofTree t root device settings = .ok table)
    (hName : ¬ settings.nameStem <+: settings.inductionStem)
    (hCounter : ¬ settings.inductionStem <+: settings.nameStem) :
    (∀ {d e : Declared} {name name' : Text}, table.Declares d name → table.Declares e name' →
        (name = name' ↔ d = e)) ∧
      (∀ {p q : Nat} {s u : Symbol} {a b : KernelArgument}, table.get? p = some s →
        table.get? q = some u → a ∈ s.arguments → b ∈ u.arguments → a.name = b.name → p = q) ∧
      ∀ {p q : Nat} {s u : Symbol}, table.get? p = some s → table.get? q = some u →
        s.handle = u.handle →
          p = q ∨ ∃ level, s.kind = .placeholder level ∧ u.kind = .placeholder level := by
  obtain ⟨order, usage, -, -, hL⟩ := Covered.of_ofTree hTable
  have hApart := Text.append_ne_append hName hCounter
  refine ⟨fun hd he => ⟨?_, ?_⟩,
    fun hs hu ha hb hSame => hL.position_eq_of_argument_name_eq hs hu ha hb hSame,
    fun hs hu hSame => hL.eq_or_counters_of_handle_eq hApart hs hu hSame⟩
  · rintro rfl
    exact hL.declared_eq_of_name_eq hApart hd he
  · rintro rfl
    exact hL.name_eq_of_declares hd he

/-- The total of a matrix whose entries are shifted twice by the counter of a loop. -/
def Tree.countedTotal : Tree :=
  let leaves := ((empty.buffer .float32 [2, 2] [6, 3] 1).1.placeholder 7).1.placeholder 7
  ((leaves.1.append ⟨.binary .add, .float32, [2, 2], some 0, some 1⟩ (by decide)).append
    ⟨.binary .add, .float32, [2, 2], some 3, some 2⟩ (by decide)).append
    ⟨.reduce .add [0, 1], .float32, [], some 4, none⟩ (by decide)

/-- Stems that end in digits: the matrix, both accumulators and the counter have four names,
and the two symbols of the counter share theirs. -/
theorem declared_names_countedTotal :
    ∃ table array outer inner counter,
      Table.ofTree .countedTotal 5 .cpu { nameStem := "k1", inductionStem := "k0_1" } =
        .ok table ∧
      table.Declares (.argument 0) array ∧ table.Declares (.accumulator 5 1) outer ∧
      table.Declares (.accumulator 5 2) inner ∧ table.Declares (.counter 7) counter ∧
      [array, outer, inner, counter].Nodup ∧
      ∃ i j, table.get? 1 = some i ∧ table.get? 2 = some j ∧ i.handle = j.handle := by
  have hEval : ((Table.ofTree .countedTotal 5 .cpu
      { nameStem := "k1", inductionStem := "k0_1" }).toOption.bind fun table =>
        (table.get? 5).bind fun r => (table.get? 1).bind fun i => (table.get? 2).map fun j =>
          (r.kind, i.kind, j.kind, (r.attr "acc_inner").toOption.isSome,
            table.kernelArguments[0]?.isSome)) =
      some (.reduction ⟨5, .reduce .add [0, 1], [], some 4, none⟩ .add 2, .placeholder 7,
        .placeholder 7, true, true) := by
    decide +kernel
  obtain ⟨table, hOption, hGet⟩ := Option.bind_eq_some_iff.mp hEval
  obtain ⟨r, hr, hGet⟩ := Option.bind_eq_some_iff.mp hGet
  obtain ⟨i, hi, hGet⟩ := Option.bind_eq_some_iff.mp hGet
  obtain ⟨j, hj, hTuple⟩ := Option.map_eq_some_iff.mp hGet
  simp only [Prod.mk.injEq] at hTuple
  obtain ⟨hrKind, hiKind, hjKind, hInner, hArgument⟩ := hTuple
  obtain ⟨inner, hInner⟩ := Option.isSome_iff_exists.mp hInner
  obtain ⟨a, ha⟩ := Option.isSome_iff_exists.mp hArgument
  have hTable := eq_ok_of_toOption hOption
  obtain ⟨hDistinct, -, -⟩ := declared_names_distinct hTable (by decide) (by decide)
  have hArray : table.Declares (.argument 0) a.name := .argument ha
  have hOuter := Table.Declares.accumulator hr hrKind (Symbol.attr_acc hrKind)
  have hInner := Table.Declares.innerAccumulator hr hrKind (eq_ok_of_toOption hInner)
  have hCounter := Table.Declares.counter hi hiKind
  refine ⟨table, _, _, _, _, hTable, hArray, hOuter, hInner, hCounter, ?_, i, j, hi, hj,
    (hDistinct hCounter (.counter hj hjKind)).mpr rfl⟩
  simp [hDistinct hArray hOuter, hDistinct hArray hInner, hDistinct hArray hCounter,
    hDistinct hOuter hInner, hDistinct hOuter hCounter, hDistinct hInner hCounter]

end ArrayKernel
