import ArrayKernel.Proofs.Attributes
import ArrayKernel.Proofs.Entries

/-!
# The arguments of the kernel of a lowered tree

Numbering keeps the first argument of each name.  In the table of a tree two
arguments of one name are the same argument, so nothing is lost: every buffer keeps
its pointer, its offset and its strides, and every host scalar its value.  Strides
that are all equal share one name, and then they share the value too.

The names of different symbols differ through their numbers.  This needs no
assumption on the stem of names.
-/

namespace ArrayKernel

namespace Table

/-- Exactly one kernel argument has the name, and it has the given type and role. -/
def HasArgument (table : Table) (name : Text) (dtype : ScalarType) (role : ArgumentRole) : Prop :=
  ∃ index, (table.kernelArguments.filter fun a => a.name = name) = [⟨index, name, dtype, role⟩]

/-! ## Numbering -/

variable {index : Nat} {seen : List Text} {as : List KernelArgument} {a b : KernelArgument}

theorem index_numberArguments {k : Nat} (h : (numberArguments index seen as)[k]? = some a) :
    a.index = index + k := by
  induction as generalizing index seen k with
  | nil => exact nomatch h
  | cons x as ih =>
      rw [numberArguments] at h
      split at h
      · exact ih h
      · cases k with
        | zero =>
            cases h
            rfl
        | succ k =>
            rw [List.getElem?_cons_succ] at h
            have hIndex := ih h
            omega

/-- A numbered argument is one of the list with its number. -/
theorem mem_numberArguments (h : a ∈ numberArguments index seen as) :
    a.name ∉ seen ∧ ∃ b ∈ as, a = { b with index := a.index } := by
  induction as generalizing index seen with
  | nil => exact nomatch h
  | cons x as ih =>
      rw [numberArguments] at h
      split at h
      · obtain ⟨hSeen, b, hb, hEq⟩ := ih h
        exact ⟨hSeen, b, .tail _ hb, hEq⟩
      · next hNew =>
        rcases List.mem_cons.mp h with rfl | h
        · exact ⟨hNew, x, .head _, rfl⟩
        · obtain ⟨hSeen, b, hb, hEq⟩ := ih h
          rw [List.mem_cons, not_or] at hSeen
          exact ⟨hSeen.2, b, .tail _ hb, hEq⟩

/-- Where a name belongs to one argument, numbering keeps exactly that one. -/
theorem filter_numberArguments (hb : b ∈ as) (hSeen : b.name ∉ seen)
    (hOne : ∀ c ∈ as, c.name = b.name → c = b) :
    ∃ i, ((numberArguments index seen as).filter fun a => a.name = b.name) =
      [{ b with index := i }] := by
  induction as generalizing index seen with
  | nil => exact nomatch hb
  | cons x as ih =>
      have hRest : ∀ c ∈ as, c.name = b.name → c = b := fun c hc => hOne c (.tail _ hc)
      rw [numberArguments]
      by_cases hName : x.name = b.name
      · -- the first argument of the name is kept, and no later one
        have hx : x = b := hOne x (.head _) hName
        subst hx
        rw [if_neg hSeen, List.filter_cons_of_pos (by simp)]
        refine ⟨index, congrArg _ (List.filter_eq_nil_iff.mpr ?_)⟩
        intro c hc hcName
        have hNot := (mem_numberArguments hc).1
        rw [List.mem_cons, not_or] at hNot
        exact hNot.1 (of_decide_eq_true hcName)
      · have hMem : b ∈ as := (List.mem_cons.mp hb).resolve_left fun hEq => hName (hEq ▸ rfl)
        split
        · exact ih hMem hSeen hRest
        · rw [List.filter_cons_of_neg (by simpa using hName)]
          refine ih hMem ?_ hRest
          rw [List.mem_cons, not_or]
          exact ⟨fun hEq => hName hEq.symm, hSeen⟩

end Table

/-! ## The arguments of one symbol -/

namespace Layout

theorem eq_of_allEqual {ns : List Nat} (h : allEqual ns = true) {a b : Nat} (ha : a ∈ ns)
    (hb : b ∈ ns) : a = b := by
  have hHead {x : Nat} {xs : List Nat} (hxs : allEqual (x :: xs) = true) :
      ∀ y ∈ xs, y = x := by
    induction xs generalizing x with
    | nil => exact fun _ hy => absurd hy List.not_mem_nil
    | cons z zs ih =>
        simp only [allEqual, Bool.and_eq_true, beq_iff_eq] at hxs
        obtain ⟨rfl, hTail⟩ := hxs
        intro y hy
        rcases List.mem_cons.mp hy with rfl | hy
        · rfl
        · exact ih hTail y hy
  cases ns with
  | nil => exact nomatch ha
  | cons x xs =>
      have hAll : ∀ y ∈ x :: xs, y = x := by
        intro y hy
        rcases List.mem_cons.mp hy with rfl | hy
        · rfl
        · exact hHead h y hy
      rw [hAll a ha, hAll b hb]

variable {l : Layout} {handle name : Text} {k : Nat}

/-- The name of a stride is the shared one or ends in the number of its axis. -/
theorem strideName_cases (h : (l.strideNames handle)[k]? = some name) :
    (l.isUniform = true ∧ name = sharedStride handle) ∨
      (l.isUniform = false ∧ name = sharedStride handle ++ Text.ofNat k) := by
  unfold strideNames at h
  by_cases hUniform : l.isUniform = true
  · rw [if_pos hUniform] at h
    have hMem := List.mem_of_getElem? h
    exact .inl ⟨hUniform, List.eq_of_mem_replicate hMem⟩
  · rw [if_neg hUniform, List.getElem?_map] at h
    obtain ⟨axis, hAxis, rfl⟩ := Option.map_eq_some_iff.mp h
    have hk : axis = k := by
      obtain ⟨hLt, hGet⟩ := List.getElem?_eq_some_iff.mp hAxis
      rw [List.getElem_range] at hGet
      exact hGet.symm
    rw [hk]
    exact .inr ⟨by simpa using hUniform, rfl⟩

/-- Strides with one name have one value. -/
theorem stride_eq_of_name_eq {j a b : Nat} (hk : (l.strideNames handle)[k]? = some name)
    (hj : (l.strideNames handle)[j]? = some name) (ha : l.strides[k]? = some a)
    (hb : l.strides[j]? = some b) : a = b := by
  rcases strideName_cases hk with ⟨hUniform, -⟩ | ⟨hUniform, rfl⟩
  · exact eq_of_allEqual hUniform (List.mem_of_getElem? ha) (List.mem_of_getElem? hb)
  · rcases strideName_cases hj with ⟨hUniform', -⟩ | ⟨-, hName⟩
    · rw [hUniform] at hUniform'
      exact nomatch hUniform'
    · have hkj : k = j := Text.ofNat_injective (List.append_cancel_left hName)
      rw [hkj, hb] at ha
      exact (Option.some.inj ha).symm

/-- What follows the handle in the name of a stride. -/
def strideSuffix (l : Layout) (k : Nat) : Text :=
  if l.isUniform then "_stride" else "_stride" ++ Text.ofNat k

theorem strideName_eq (h : (l.strideNames handle)[k]? = some name) :
    name = handle ++ l.strideSuffix k := by
  unfold strideSuffix
  rcases strideName_cases h with ⟨hUniform, rfl⟩ | ⟨hUniform, rfl⟩
  · rw [if_pos hUniform]
    rfl
  · rw [if_neg (by simp [hUniform]), sharedStride, List.append_assoc]

theorem strideSuffix_eq_cons (l : Layout) (k : Nat) :
    ∃ rest, l.strideSuffix k = '_' :: 's' :: 't' :: 'r' :: rest := by
  unfold strideSuffix
  split
  · exact ⟨_, rfl⟩
  · exact ⟨_, rfl⟩

end Layout

namespace Symbol

variable {s : Symbol} {a b : KernelArgument}

/-- What the arguments of a symbol are. -/
theorem mem_arguments : a ∈ s.arguments ↔
    (∃ layout written access, s.kind = .buffer layout written access ∧
      (a = ⟨0, s.handle, s.dtype, .pointer written⟩ ∨
        a = .ofLayout 0 (Layout.startName s.handle) layout.start ∨
          ∃ (k : Nat) (name : Text) (stride : Nat),
            (layout.strideNames s.handle)[k]? = some name ∧ layout.strides[k]? = some stride ∧
              a = .ofLayout 0 name stride)) ∨
      (s.kind = .hostScalar ∧ a = ⟨0, s.handle, s.dtype, .scalar⟩) := by
  unfold arguments
  split
  · next layout written access hKind =>
    simp only [List.mem_cons, hKind, Kind.buffer.injEq, reduceCtorEq, false_and, or_false]
    constructor
    · rintro (h | h | h)
      · exact ⟨layout, written, access, ⟨rfl, rfl, rfl⟩, .inl h⟩
      · exact ⟨layout, written, access, ⟨rfl, rfl, rfl⟩, .inr (.inl h)⟩
      · obtain ⟨k, hk⟩ := List.mem_iff_getElem?.mp h
        rw [List.getElem?_zipWith_eq_some] at hk
        obtain ⟨name, stride, hName, hStride, hEq⟩ := hk
        exact ⟨layout, written, access, ⟨rfl, rfl, rfl⟩,
          .inr (.inr ⟨k, name, stride, hName, hStride, hEq.symm⟩)⟩
    · rintro ⟨_, _, _, ⟨rfl, rfl, rfl⟩, h | h | ⟨k, name, stride, hName, hStride, rfl⟩⟩
      · exact .inl h
      · exact .inr (.inl h)
      · refine .inr (.inr (List.mem_iff_getElem?.mpr ⟨k, ?_⟩))
        rw [List.getElem?_zipWith_eq_some]
        exact ⟨name, stride, hName, hStride, rfl⟩
  · next hKind => simp [hKind]
  · next hBuffer hScalar =>
    constructor
    · exact nofun
    · rintro (⟨layout, written, access, hKind, -⟩ | ⟨hKind, -⟩)
      · exact absurd hKind (hBuffer layout written access)
      · exact absurd hKind hScalar

/-- The name of an argument is the handle and a suffix that begins with no digit. -/
theorem name_of_mem_arguments (h : a ∈ s.arguments) :
    ∃ suffix : Text, a.name = s.handle ++ suffix ∧ suffix.head?.any Char.isDigit = false := by
  rcases mem_arguments.mp h with
    ⟨layout, written, access, hKind, rfl | rfl | ⟨k, name, stride, hName, hStride, rfl⟩⟩ |
      ⟨hKind, rfl⟩
  · exact ⟨[], (List.append_nil _).symm, rfl⟩
  · exact ⟨_, rfl, rfl⟩
  · obtain ⟨rest, hRest⟩ := layout.strideSuffix_eq_cons k
    refine ⟨_, Layout.strideName_eq hName, ?_⟩
    rw [hRest]
    rfl
  · exact ⟨[], (List.append_nil _).symm, rfl⟩

/-- Arguments of one symbol with one name are the same argument. -/
theorem eq_of_mem_arguments (ha : a ∈ s.arguments) (hb : b ∈ s.arguments)
    (hName : a.name = b.name) : a = b := by
  -- pointer, offset and strides have different suffixes
  have hNil {suffix : Text} (hSuffix : suffix ≠ []) : s.handle ++ suffix ≠ s.handle := by
    intro h
    exact hSuffix (List.append_right_eq_self.mp h)
  have hStart : Layout.startName s.handle ≠ s.handle := hNil (show "_start".toList ≠ [] by decide)
  have hStride {l : Layout} {k : Nat} {name : Text} (h : (l.strideNames s.handle)[k]? = some name) :
      name ≠ s.handle ∧ name ≠ Layout.startName s.handle := by
    obtain ⟨rest, hRest⟩ := l.strideSuffix_eq_cons k
    rw [Layout.strideName_eq h, hRest]
    refine ⟨hNil (by simp), fun hEq => ?_⟩
    exact nomatch List.append_cancel_left hEq
  rcases mem_arguments.mp ha with ⟨layout, written, access, hKind, ha⟩ | ⟨hKind, rfl⟩
  · rcases mem_arguments.mp hb with ⟨layout', written', access', hKind', hb⟩ | ⟨hKind', -⟩
    · rw [hKind] at hKind'
      cases hKind'
      rcases ha with rfl | rfl | ⟨k, name, stride, hk, hs, rfl⟩
      · rcases hb with rfl | rfl | ⟨j, name', stride', hj, -, rfl⟩
        · rfl
        · exact absurd hName.symm hStart
        · exact absurd hName.symm (hStride hj).1
      · rcases hb with rfl | rfl | ⟨j, name', stride', hj, -, rfl⟩
        · exact absurd hName hStart
        · rfl
        · exact absurd hName.symm (hStride hj).2
      · rcases hb with rfl | rfl | ⟨j, name', stride', hj, hs', rfl⟩
        · exact absurd hName (hStride hk).1
        · exact absurd hName (hStride hk).2
        · have hSame : name = name' := hName
          subst hSame
          rw [Layout.stride_eq_of_name_eq hk hj hs hs']
    · rw [hKind] at hKind'
      exact nomatch hKind'
  · rcases mem_arguments.mp hb with ⟨layout', written', access', hKind', -⟩ | ⟨-, rfl⟩
    · rw [hKind] at hKind'
      exact nomatch hKind'
    · rfl

end Symbol

/-! ## The arguments of the table -/

namespace Covered

variable {t : Tree} {usage : Usage} {device : Device} {settings : Settings} {order : List Nat}
  {table : Table} {p q : Nat} {s u : Symbol} {a b : KernelArgument}

theorem handle_of_mem_arguments (hL : Covered t usage device settings order table)
    (hs : table.get? p = some s) (ha : a ∈ s.arguments) :
    s.handle = settings.nameStem ++ Text.ofNat (t.numberIn order p) ∧
      t.isNumbered p = true := by
  obtain ⟨n, hn, ⟨layout, hOp, hShape, rfl⟩ | ⟨hNot, hMakes⟩⟩ := hL.entry hs
  · refine ⟨rfl, isNumbered_of_node hn ?_⟩
    rw [hOp]
    exact fun _ => nofun
  · cases hMakes with
    | buffer => exact absurd rfl (hNot _ _ _)
    | hostScalar hOp =>
        refine ⟨rfl, isNumbered_of_node hn ?_⟩
        rw [hOp]
        exact fun _ => nofun
    | placeholder => exact nomatch ha
    | binary => exact nomatch ha
    | unary => exact nomatch ha
    | reduction => exact nomatch ha
    | view => exact nomatch ha
    | loop => exact nomatch ha

/-- Arguments of one name belong to one symbol and are the same. -/
theorem argument_eq_of_name_eq (hL : Covered t usage device settings order table)
    (hs : table.get? p = some s) (hu : table.get? q = some u) (ha : a ∈ s.arguments)
    (hb : b ∈ u.arguments) (hName : a.name = b.name) : a = b := by
  obtain ⟨hsHandle, hsNumbered⟩ := hL.handle_of_mem_arguments hs ha
  obtain ⟨huHandle, huNumbered⟩ := hL.handle_of_mem_arguments hu hb
  obtain ⟨suffix, haName, hSuffix⟩ := Symbol.name_of_mem_arguments ha
  obtain ⟨suffix', hbName, hSuffix'⟩ := Symbol.name_of_mem_arguments hb
  -- no suffix begins with a digit, so the number in a name ends where the suffix begins
  have hNumber : t.numberIn order p = t.numberIn order q := by
    have hEq := hName
    rw [haName, hbName, hsHandle, huHandle] at hEq
    exact (Text.numbered_inj hSuffix hSuffix' hEq).1
  have hpq := Tree.numberIn_inj hL.nodup (hL.mem_order_of_get? hs) (hL.mem_order_of_get? hu)
    hsNumbered huNumbered hNumber
  rw [hpq, hu] at hs
  cases hs
  exact Symbol.eq_of_mem_arguments ha hb hName

/-- Every argument that a symbol asks for is there exactly once. -/
theorem hasArgument (hL : Covered t usage device settings order table)
    (hs : table.get? p = some s) (ha : a ∈ s.arguments) :
    table.HasArgument a.name a.dtype a.role := by
  have hRaw : a ∈ table.entries.flatMap fun e => e.2.arguments :=
    List.mem_flatMap.mpr ⟨(p, s), Table.get?_eq_some_iff.mp hs, ha⟩
  have hOne : ∀ c ∈ table.entries.flatMap fun e => e.2.arguments, c.name = a.name → c = a := by
    intro c hc hName
    obtain ⟨⟨q, u⟩, hEntry, hcMem⟩ := List.mem_flatMap.mp hc
    exact hL.argument_eq_of_name_eq (Table.get?_eq_some_iff.mpr hEntry) hs hcMem ha hName
  exact Table.filter_numberArguments hRaw List.not_mem_nil hOne

end Covered

/-- Every argument of a kernel comes from a symbol that asks for it. -/
theorem Table.exists_of_mem_kernelArguments {table : Table} {a : KernelArgument}
    (h : a ∈ table.kernelArguments) :
    ∃ p s, table.get? p = some s ∧ ∃ b ∈ s.arguments, a = { b with index := a.index } := by
  obtain ⟨-, b, hb, hEq⟩ := mem_numberArguments h
  obtain ⟨⟨p, s⟩, hEntry, hbMem⟩ := List.mem_flatMap.mp hb
  exact ⟨p, s, get?_eq_some_iff.mpr hEntry, b, hbMem, hEq⟩

end ArrayKernel
