import ArrayKernel.Proofs.Arguments
import ArrayKernel.Proofs.Depiction

/-!
# What a kernel writes

An assignment writes the array under its target: the target itself, or what the target
views, view by view.  Lowering finds these arrays in one pass from the root down, in which
a view that is written passes this on to the array under it.

The pass marks exactly the arrays that are written.  It looks at every node once, so this
rests on the order: whatever uses a view is looked at before the view is, and nothing
marks the view later.  How a view is used besides, and by how many nodes, does not matter.
-/

namespace ArrayKernel

namespace Tree

/-- The node at `p` is an assignment with the target `q`. -/
def Assigns (t : Tree) (p q : Nat) : Prop :=
  ∃ n, t.get? p = some n ∧ n.op = .binary .assign ∧ n.lhs = some q

/-- The node at `p` is a view of the array at `q`. -/
def Views (t : Tree) (p q : Nat) : Prop :=
  ∃ n v, t.get? p = some n ∧ n.op = .view v ∧ n.lhs = some q

/-- Under the root, an assignment has a target that is the position or views it. -/
def Writes (t : Tree) (root p : Nat) : Prop :=
  ∃ q target, t.Reaches root q ∧ t.Assigns q target ∧ Relation.ReflTransGen t.Views target p

/-- Every position of a list stands behind all positions that use it. -/
def UsersFirst (t : Tree) (order : List Nat) : Prop :=
  ∀ before p after, order = before ++ p :: after → ∀ q ∈ p :: after, ¬ t.Uses q p

variable {t : Tree} {root p q : Nat} {order : List Nat}

theorem Assigns.uses (h : t.Assigns p q) : t.Uses p q := by
  obtain ⟨n, hn, -, hLhs⟩ := h
  exact ⟨n, hn, Node.mem_children.mpr (.inl hLhs)⟩

theorem Views.uses (h : t.Views p q) : t.Uses p q := by
  obtain ⟨n, v, hn, -, hLhs⟩ := h
  exact ⟨n, hn, Node.mem_children.mpr (.inl hLhs)⟩

/-- Read backwards, an order with operands first has users first. -/
theorem OperandsFirst.usersFirst (h : t.OperandsFirst order) (hNodup : order.Nodup) :
    t.UsersFirst order.reverse := by
  intro before p after hSplit q hq hUses
  have hOrder : order = after.reverse ++ p :: before.reverse := by
    rw [← List.reverse_reverse order, hSplit]
    simp
  rcases List.mem_cons.mp hq with rfl | hq
  · exact Nat.lt_irrefl q hUses.lt
  · -- the user stands before `p` in the order, and `p` would have to stand before it
    obtain ⟨first, second, hAfter⟩ := List.append_of_mem (List.mem_reverse.mpr hq)
    rw [hAfter, List.append_assoc, List.cons_append] at hOrder
    have hFirst := h first q _ hOrder p hUses
    rw [hOrder] at hNodup
    exact (List.nodup_append.mp hNodup).2.2 p hFirst p (by simp) rfl

end Tree

/-! ## The pass -/

namespace Usage

variable {t : Tree} {u next : Usage} {root p q : Nat} {order : List Nat}

/-- What noting one node adds to the written positions. -/
theorem mem_written_note (h : note t u q = .ok next) :
    p ∈ next.written ↔ p ∈ u.written ∨ t.Assigns q p ∨ t.Views q p ∧ q ∈ u.written := by
  obtain ⟨n, hn, rfl⟩ := note_eq_ok_iff.mp h
  unfold Tree.Assigns Tree.Views add
  rw [hn]
  split
  · next hOp => simp [hOp, or_comm]
  · next v hOp =>
    by_cases hWritten : q ∈ u.written
    · simp [hOp, hWritten, or_comm]
    · simp [hOp, hWritten]
  · next hAssign hView =>
    have hNoAssign : n.op ≠ .binary .assign := hAssign
    have hNoView : ∀ v, n.op ≠ .view v := hView
    simp [hNoAssign, hNoView]

/-- A mark stays. -/
theorem written_subset_foldlM (hRun : order.foldlM (note t) u = .ok next) (h : p ∈ u.written) :
    p ∈ next.written :=
  foldlM_induction (P := fun v : Usage => p ∈ v.written)
    (fun _ _ _ _ hNote hOld => (mem_written_note hNote).mpr (.inl hOld)) hRun h

/-- Only a node that uses a position marks it. -/
theorem mem_written_of_foldlM (hUnused : ∀ q ∈ order, ¬ t.Uses q p)
    (hRun : order.foldlM (note t) u = .ok next) (h : p ∈ next.written) : p ∈ u.written := by
  by_contra hOld
  refine foldlM_induction (P := fun v : Usage => p ∉ v.written) ?_ hRun hOld h
  intro q hq v w hNote hNot hMarked
  rcases (mem_written_note hNote).mp hMarked with hMarked | hAssigns | ⟨hViews, -⟩
  · exact hNot hMarked
  · exact hUnused q hq hAssigns.uses
  · exact hUnused q hq hViews.uses

theorem mem_written_of_assigns (hRun : order.foldlM (note t) u = .ok next) (hq : q ∈ order)
    (hAssigns : t.Assigns q p) : p ∈ next.written :=
  foldlM_of_mem (P := fun v : Usage => p ∈ v.written) hq
    (fun _ _ hNote => (mem_written_note hNote).mpr (.inr (.inl hAssigns)))
    (fun _ _ _ _ hNote hOld => (mem_written_note hNote).mpr (.inl hOld)) hRun

/-- A view that is marked at the end was marked when the pass came to it, so that the array
under it is marked too. -/
theorem mem_written_of_views (hRun : order.foldlM (note t) u = .ok next)
    (hFirst : t.UsersFirst order) (hq : q ∈ order) (hViews : t.Views q p)
    (h : q ∈ next.written) : p ∈ next.written := by
  obtain ⟨before, after, hSplit⟩ := List.append_of_mem hq
  have hUnused := hFirst before q after hSplit
  rw [hSplit, List.foldlM_append] at hRun
  obtain ⟨middle, -, hRest⟩ := bind_eq_ok.mp hRun
  have hBefore : q ∈ middle.written := mem_written_of_foldlM hUnused hRest h
  rw [List.foldlM_cons] at hRest
  obtain ⟨noted, hNote, hRest⟩ := bind_eq_ok.mp hRest
  exact written_subset_foldlM hRest ((mem_written_note hNote).mpr (.inr (.inr ⟨hViews, hBefore⟩)))

/-- What is marked is marked by an assignment in the list, through views. -/
theorem exists_of_mem_written_foldlM (hRun : order.foldlM (note t) u = .ok next)
    (hNone : u.written = []) : ∀ p ∈ next.written,
      ∃ q ∈ order, ∃ target, t.Assigns q target ∧ Relation.ReflTransGen t.Views target p := by
  refine foldlM_induction (P := fun v : Usage => ∀ p ∈ v.written,
    ∃ q ∈ order, ∃ target, t.Assigns q target ∧ Relation.ReflTransGen t.Views target p) ?_ hRun ?_
  · intro q hq v w hNote hOld p hp
    rcases (mem_written_note hNote).mp hp with hp | hAssigns | ⟨hViews, hMarked⟩
    · exact hOld p hp
    · exact ⟨q, hq, p, hAssigns, .refl⟩
    · obtain ⟨r, hr, target, hAssigns, hPath⟩ := hOld q hMarked
      exact ⟨r, hr, target, hAssigns, hPath.tail hViews⟩
  · rw [hNone]
    exact nofun

/-- The pass over the nodes under a root marks what assignments under the root write. -/
theorem mem_written_ofOrder (h : t.order root = .ok order)
    (hUsage : ofOrder t root order = .ok u) : p ∈ u.written ↔ t.Writes root p := by
  constructor
  · intro hWritten
    obtain ⟨q, hq, target, hAssigns, hPath⟩ :=
      exists_of_mem_written_foldlM hUsage rfl p hWritten
    have hReaches := (Tree.mem_order_iff h).mp (List.mem_reverse.mp hq)
    exact ⟨q, target, hReaches, hAssigns, hPath⟩
  · rintro ⟨q, target, hReaches, hAssigns, hPath⟩
    have hFirst := (Tree.operandsFirst_order h).usersFirst (Tree.nodup_order h)
    have hListed {r : Nat} (hr : t.Reaches root r) : r ∈ order.reverse :=
      List.mem_reverse.mpr ((Tree.mem_order_iff h).mpr hr)
    -- along the views, every position is under the root and marked
    suffices hBoth : t.Reaches root p ∧ p ∈ u.written from hBoth.2
    induction hPath with
    | refl =>
        exact ⟨hReaches.tail hAssigns.uses,
          mem_written_of_assigns hUsage (hListed hReaches) hAssigns⟩
    | tail _ hViews ih =>
        exact ⟨ih.1.tail hViews.uses,
          mem_written_of_views hUsage hFirst (hListed ih.1) hViews ih.2⟩

end Usage

/-! ## Buffers of the table -/

/-- **Output marking is exact.**  Where a tree is lowered from a root, a buffer of the table
is marked as written if and only if an assignment under the root has a target that is the
buffer or views it, view by view.  Its pointer is an output argument accordingly, and is
declared without `const` exactly then.  In any case the buffer has one helper, the one
that accesses its elements. -/
theorem output_marking_exact {t : Tree} {root : Nat} {device : Device} {settings : Settings}
    {table : Table} (hTable : Table.ofTree t root device settings = .ok table) {p : Nat}
    {s : Symbol} (hs : table.get? p = some s) {layout : Layout} {written : Bool}
    {access : Option AccessPath} (hKind : s.kind = .buffer layout written access) :
    (written = true ↔ t.Writes root p) ∧
      (∃ index, (table.kernelArguments.filter fun a => a.name = s.handle) =
          [⟨index, s.handle, s.dtype, .pointer written⟩] ∧
        KernelArgument.declaration ⟨index, s.handle, s.dtype, .pointer written⟩ =
          (if written then [] else "const ".toList) ++ s.dtype.spelling ++ "* " ++ s.handle) ∧
      ∃ path, access = some path ∧ s.helpers.toList = [layout.accessHelper s.handle path] ∧
        (layout.accessHelper s.handle path).name = s.handle ++ "_at" := by
  obtain ⟨order, usage, hOrder, hUsage, hL⟩ := Covered.of_ofTree hTable
  have hArgument : table.HasArgument s.handle s.dtype (.pointer written) :=
    hL.hasArgument hs (Symbol.mem_arguments.mpr (.inl ⟨layout, written, access, hKind, .inl rfl⟩))
  obtain ⟨index, hIndex⟩ := hArgument
  have hDeclared : KernelArgument.declaration ⟨index, s.handle, s.dtype, .pointer written⟩ =
      (if written then [] else "const ".toList) ++ s.dtype.spelling ++ "* " ++ s.handle := by
    cases written <;> rfl
  obtain ⟨n, hn, ⟨layout', hOp, hShape, rfl⟩ | ⟨hNot, -⟩⟩ := hL.entry hs
  · cases hKind
    refine ⟨?_, ⟨index, hIndex, hDeclared⟩, _, rfl, rfl, rfl⟩
    rw [decide_eq_true_iff]
    exact Usage.mem_written_ofOrder hOrder hUsage
  · exact absurd hKind (hNot layout written access)

/-- A matrix is read, and written only through the transposed of its reshaped elements; what
is stored there is a matrix that is only read. -/
def Tree.storedTranspose : Tree :=
  let views := (((empty.buffer .float32 [2, 3] [3, 1] 0).1.append
    ⟨.view .reshape, .float32, [3, 2], some 0, none⟩ (by decide)).append
    ⟨.view .transpose, .float32, [2, 3], some 1, none⟩ (by decide)).buffer .float32 [2, 3] [3, 1] 0
  (views.1.append ⟨.binary .assign, .float32, [2, 3], some 2, some 3⟩ (by decide)).append
    ⟨.binary .add, .float32, [2, 3], some 4, some 0⟩ (by decide)

/-- The matrix under the views is an output, though it is read as well, and the other one is
not; both have one helper. -/
theorem output_marking_storedTranspose :
    ∃ table s u, Table.ofTree .storedTranspose 5 .cpu {} = .ok table ∧
      table.get? 0 = some s ∧ table.get? 3 = some u ∧ Tree.storedTranspose.Writes 5 0 ∧
      ¬ Tree.storedTranspose.Writes 5 3 ∧
      (∃ index, (table.kernelArguments.filter fun a => a.name = s.handle) =
        [⟨index, s.handle, .float32, .pointer true⟩]) ∧
      (∃ index, (table.kernelArguments.filter fun a => a.name = u.handle) =
        [⟨index, u.handle, .float32, .pointer false⟩]) ∧
      s.helpers.toList.length = 1 ∧ u.helpers.toList.length = 1 := by
  have hEval : ((Table.ofTree .storedTranspose 5 .cpu {}).toOption.bind fun table =>
      (table.get? 0).bind fun s => (table.get? 3).map fun u =>
        ((s.kind, s.dtype), (u.kind, u.dtype))) =
      some ((.buffer ⟨[2, 3], [3, 1], 0, rfl⟩ true (some .contiguous), .float32),
        (.buffer ⟨[2, 3], [3, 1], 0, rfl⟩ false (some .contiguous), .float32)) := by
    decide +kernel
  obtain ⟨table, hOption, hGet⟩ := Option.bind_eq_some_iff.mp hEval
  obtain ⟨s, hs, hGet⟩ := Option.bind_eq_some_iff.mp hGet
  obtain ⟨u, hu, hPairs⟩ := Option.map_eq_some_iff.mp hGet
  obtain ⟨hLeft, hRight⟩ := Prod.mk.inj hPairs
  obtain ⟨hsKind, hsType⟩ := Prod.mk.inj hLeft
  obtain ⟨huKind, huType⟩ := Prod.mk.inj hRight
  have hTable := eq_ok_of_toOption hOption
  obtain ⟨hsWritten, ⟨i, hsArgument, -⟩, _, -, hsHelpers, -⟩ :=
    output_marking_exact hTable hs hsKind
  obtain ⟨huWritten, ⟨j, huArgument, -⟩, _, -, huHelpers, -⟩ :=
    output_marking_exact hTable hu huKind
  rw [hsType] at hsArgument
  rw [huType] at huArgument
  refine ⟨table, s, u, hTable, hs, hu, hsWritten.mp rfl, fun hWrites => ?_, ⟨i, hsArgument⟩,
    ⟨j, huArgument⟩, by rw [hsHelpers]; rfl, by rw [huHelpers]; rfl⟩
  exact nomatch huWritten.mpr hWrites

end ArrayKernel
