import ArrayKernel.Proofs.Built
import ArrayKernel.Proofs.OperandsFirst

/-!
# The order is a post-order

`Tree.visit` is the textbook traversal: it marks a position, visits the operands that are
not marked, the left one first, and then lists the position.  It recurses on positions,
which fall from a node to its operands.

The walk with its agenda lists the same positions in the same order.  An entry of the
agenda may be stale when its turn comes, because a shared operand is put there once for
each node that waits for it; the traversal passes over such a position too, so the two
agree entry by entry.  No property of the marks is needed for this, only that they stay.
-/

namespace ArrayKernel

/-- How far a traversal has come: the positions that it has marked, the latest first, and
the positions that it has listed, in order. -/
structure Traversal where
  marked : List Nat
  listed : List Nat
  deriving DecidableEq, Repr

namespace Tree

/-- Visits a position: unless it is marked, it is marked, its operands are visited, left
before right, and it is listed. -/
def visit (t : Tree) (s : Traversal) (position : Nat) : Traversal :=
  if position ∈ s.marked then s
  else
    match _h : t.get? position with
    | none => s
    | some n =>
      let inner := n.children.attach.foldl (fun s c => visit t s c.1)
        ⟨position :: s.marked, s.listed⟩
      ⟨inner.marked, inner.listed ++ [position]⟩
termination_by position
decreasing_by exact t.child_lt _h c.2

/-- The positions under a root in depth-first post-order. -/
def postOrder (t : Tree) (root : Nat) : List Nat := (t.visit ⟨[], []⟩ root).listed

variable {t : Tree} {s : Traversal} {p : Nat} {n : Node}

theorem visit_of_mem (h : p ∈ s.marked) : t.visit s p = s := by
  rw [visit, if_pos h]

theorem visit_of_get?_eq_none (h : t.get? p = none) : t.visit s p = s := by
  rw [visit]
  split
  · rfl
  · split
    · rfl
    · next hn => simp [h] at hn

theorem visit_of_get? (hNew : p ∉ s.marked) (hn : t.get? p = some n) :
    t.visit s p =
      ⟨(n.children.foldl t.visit ⟨p :: s.marked, s.listed⟩).marked,
        (n.children.foldl t.visit ⟨p :: s.marked, s.listed⟩).listed ++ [p]⟩ := by
  rw [visit, if_neg hNew]
  split
  · next hNone => simp [hn] at hNone
  · next m hm =>
    rw [hn] at hm
    cases hm
    simp only [List.foldl_attach]

/-! ## Marks stay -/

theorem marked_subset_foldl {cs : List Nat}
    (h : ∀ c ∈ cs, ∀ s : Traversal, s.marked ⊆ (t.visit s c).marked) (s : Traversal) :
    s.marked ⊆ (cs.foldl t.visit s).marked := by
  induction cs generalizing s with
  | nil => exact List.Subset.refl _
  | cons c cs ih =>
      have hFirst := h c List.mem_cons_self s
      have hRest := ih (fun d hd => h d (List.mem_cons_of_mem _ hd)) (t.visit s c)
      exact List.Subset.trans hFirst hRest

theorem marked_subset_visit (t : Tree) (s : Traversal) (p : Nat) :
    s.marked ⊆ (t.visit s p).marked := by
  induction p using Nat.strongRecOn generalizing s with
  | _ p ih =>
      by_cases hMem : p ∈ s.marked
      · rw [visit_of_mem hMem]
        exact List.Subset.refl _
      · cases hn : t.get? p with
        | none =>
            rw [visit_of_get?_eq_none hn]
            exact List.Subset.refl _
        | some n =>
            rw [visit_of_get? hMem hn]
            have hInner := marked_subset_foldl (fun c hc => ih c (t.child_lt hn hc))
              ⟨p :: s.marked, s.listed⟩
            exact List.Subset.trans (List.subset_cons_self p s.marked) hInner

/-- Visiting a list of positions makes no difference between those that are marked already
and none at all. -/
theorem foldl_visit_filter {marked : List Nat} (cs : List Nat) (h : marked ⊆ s.marked) :
    (cs.filter fun c => c ∉ marked).foldl t.visit s = cs.foldl t.visit s := by
  induction cs generalizing s with
  | nil => rfl
  | cons c cs ih =>
      by_cases hc : c ∈ marked
      · simp only [List.filter_cons, hc, not_true_eq_false, decide_false, Bool.false_eq_true,
          if_false, List.foldl_cons]
        rw [ih h, visit_of_mem (h hc)]
      · simp only [List.filter_cons, hc, not_false_eq_true, decide_true, if_true,
          List.foldl_cons]
        exact ih (List.Subset.trans h (marked_subset_visit t s c))

end Tree

/-! ## The walk and the traversal -/

/-- The walk that has come as far as a traversal, with an agenda. -/
def Traversal.walk (s : Traversal) (agenda : List Visit) : Walk :=
  ⟨agenda, s.marked, s.listed.reverse⟩

namespace Walk

variable {t : Tree} {root p : Nat} {w next : Walk}

theorem run_of_step (h : w.step t = some next) : w.run t = next.run t := by
  rw [run]
  split
  · next hNone => simp [h] at hNone
  · next other hOther =>
    rw [h] at hOther
    cases hOther
    rfl

theorem run_leave (s : Traversal) (p : Nat) (agenda : List Visit) :
    (s.walk (.leave p :: agenda)).run t =
      (Traversal.walk ⟨s.marked, s.listed ++ [p]⟩ agenda).run t := by
  have hStep : (s.walk (.leave p :: agenda)).step t =
      some (Traversal.walk ⟨s.marked, s.listed ++ [p]⟩ agenda) := by
    simp [step, Traversal.walk]
  exact run_of_step hStep

theorem run_enters {cs : List Nat}
    (h : ∀ c ∈ cs, ∀ (s : Traversal) (agenda : List Visit),
      (s.walk (.enter c :: agenda)).run t = ((t.visit s c).walk agenda).run t)
    (s : Traversal) (agenda : List Visit) :
    (s.walk (cs.map .enter ++ agenda)).run t = ((cs.foldl t.visit s).walk agenda).run t := by
  induction cs generalizing s with
  | nil => rfl
  | cons c cs ih =>
      calc (s.walk (.enter c :: (cs.map .enter ++ agenda))).run t
        _ = ((t.visit s c).walk (cs.map .enter ++ agenda)).run t :=
            h c List.mem_cons_self s _
        _ = ((cs.foldl t.visit (t.visit s c)).walk agenda).run t :=
            ih (fun d hd => h d (List.mem_cons_of_mem _ hd)) (t.visit s c)

/-- By the time that an entry is worked off, with all that it puts on the agenda, the
position has been visited. -/
theorem run_enter (t : Tree) (s : Traversal) (p : Nat) (agenda : List Visit) :
    (s.walk (.enter p :: agenda)).run t = ((t.visit s p).walk agenda).run t := by
  induction p using Nat.strongRecOn generalizing s agenda with
  | _ p ih =>
      by_cases hMem : p ∈ s.marked
      · have hStep : (s.walk (.enter p :: agenda)).step t = some (s.walk agenda) := by
          simp [step, Traversal.walk, hMem]
        rw [run_of_step hStep, Tree.visit_of_mem hMem]
      · cases hn : t.get? p with
        | none =>
            have hStep : (s.walk (.enter p :: agenda)).step t = some (s.walk agenda) := by
              simp [step, Traversal.walk, hMem, hn]
            rw [run_of_step hStep, Tree.visit_of_get?_eq_none hn]
        | some n =>
            have hStep : (s.walk (.enter p :: agenda)).step t =
                some (Traversal.walk ⟨p :: s.marked, s.listed⟩
                  ((n.children.filter fun c => c ∉ p :: s.marked).map .enter ++
                    .leave p :: agenda)) := by
              simp [step, Traversal.walk, hMem, hn]
            have hOperands : ∀ c ∈ n.children.filter fun c => c ∉ p :: s.marked, c < p :=
              fun c hc => t.child_lt hn (List.mem_filter.mp hc).1
            -- the agenda leaves out operands that are marked, and visiting them does nothing
            rw [run_of_step hStep, run_enters fun c hc => ih c (hOperands c hc),
              Tree.foldl_visit_filter n.children (List.Subset.refl _), run_leave,
              Tree.visit_of_get? hMem hn]

/-! ## Single steps -/

/-- The walk after a number of steps, if there are so many. -/
def after (t : Tree) : Nat → Walk → Option Walk
  | 0, w => some w
  | k + 1, w => (w.step t).bind (after t k)

/-- What every step keeps holds after any number of steps. -/
theorem after_induction {P : Walk → Prop}
    (hStep : ∀ {w next : Walk}, P w → w.step t = some next → P next) {k : Nat} (h : P w)
    (hAfter : after t k w = some next) : P next := by
  induction k generalizing w with
  | zero =>
      cases hAfter
      exact h
  | succ k ih =>
      obtain ⟨middle, hMiddle, hRest⟩ := Option.bind_eq_some_iff.mp hAfter
      exact ih (hStep h hMiddle) hRest

/-- A run ends after a number of steps that the measure bounds. -/
theorem exists_after_run (t : Tree) (w : Walk) :
    ∃ k, k ≤ w.measure t ∧ after t k w = some (w.run t) ∧ (w.run t).step t = none := by
  fun_induction run t w with
  | case1 w hNone => exact ⟨0, Nat.zero_le _, rfl, hNone⟩
  | case2 w next hNext hLt ih =>
      obtain ⟨k, hk, hAfter, hEnd⟩ := ih
      refine ⟨k + 1, by omega, ?_, hEnd⟩
      simp [after, hNext, hAfter]

theorem measure_start (t : Tree) (root : Nat) : (start root).measure t = 3 * t.size + 1 := by
  simp [measure, remaining, start]

/-- The positions that a step looks up: the one that it is to enter, and the operands of
that one if it was not entered before. -/
def LooksUp (t : Tree) (w : Walk) (p : Nat) : Prop :=
  ∃ q agenda, w.agenda = .enter q :: agenda ∧ (p = q ∨ q ∉ w.entered ∧ t.Uses q p)

/-- One flag for each position up to the root, set where the position was entered. -/
def flags (root : Nat) (w : Walk) : List Bool :=
  (List.range (root + 1)).map fun p => decide (p ∈ w.entered)

/-- Only positions under the root come on the agenda. -/
theorem reaches_of_enter_mem {k : Nat} (h : after t k (start root) = some w)
    (hp : .enter p ∈ w.agenda) : t.Reaches root p := by
  refine after_induction (P := fun w => ∀ p, .enter p ∈ w.agenda → t.Reaches root p) ?_ ?_ h p hp
  · intro w next hw hStep p hp
    rcases step_cases hStep with
      ⟨q, agenda, ha, rfl⟩ | ⟨q, agenda, ha, -, rfl⟩ | ⟨q, agenda, n, ha, -, hn, rfl⟩
    · exact hw p (ha ▸ List.mem_cons_of_mem _ hp)
    · exact hw p (ha ▸ List.mem_cons_of_mem _ hp)
    · have hq := hw q (ha ▸ List.mem_cons_self)
      simp only [List.mem_append, List.mem_map, List.mem_cons, Visit.enter.injEq, reduceCtorEq,
        false_or] at hp
      rcases hp with ⟨c, hc, rfl⟩ | hp
      · exact hq.tail ⟨n, hn, (List.mem_filter.mp hc).1⟩
      · exact hw p (ha ▸ List.mem_cons_of_mem _ hp)
  · intro p hp
    simp only [start, List.mem_singleton, Visit.enter.injEq] at hp
    exact hp ▸ .refl

theorem reaches_of_looksUp {k : Nat} (h : after t k (start root) = some w)
    (hp : w.LooksUp t p) : t.Reaches root p := by
  obtain ⟨q, agenda, ha, hCases⟩ := hp
  have hq : t.Reaches root q := reaches_of_enter_mem h (ha ▸ List.mem_cons_self)
  rcases hCases with rfl | ⟨-, hUses⟩
  · exact hq
  · exact hq.tail hUses

theorem get?_flags (w : Walk) (h : p ≤ root) :
    (w.flags root)[p]? = some (decide (p ∈ w.entered)) := by
  have hLt : p < root + 1 := by omega
  simp [flags, hLt]

end Walk

namespace Tree

variable {t : Tree} {root : Nat}

theorem order_eq_postOrder (h : root < t.size) : t.order root = .ok (t.postOrder root) := by
  have hRun : (Walk.start root).run t = ((t.visit ⟨[], []⟩ root).walk []).run t :=
    Walk.run_enter t ⟨[], []⟩ root []
  have hEnd (s : Traversal) : (s.walk []).run t = s.walk [] := by
    rw [Walk.run]
    rfl
  unfold order
  rw [if_pos h, hRun, hEnd]
  simp [Traversal.walk, postOrder]

theorem getLast?_postOrder (h : root < t.size) : (t.postOrder root).getLast? = some root := by
  obtain ⟨n, hn⟩ := Option.isSome_iff_exists.mp (get?_isSome_iff.mpr h)
  unfold postOrder
  rw [visit_of_get? List.not_mem_nil hn]
  simp

end Tree

/-- **The order is the left-first post-order.**  For every root in the tree the walk ends,
after at most three steps for each node and one more; every position that a step looks up
has a flag and a node; and what is left behind is what the recursive traversal lists.

So the positions under the root are listed, each once and no others, every node behind its
operands and the root last. -/
theorem order_is_postOrder {t : Tree} {root : Nat} (h : root < t.size) :
    (∃ k w, k ≤ 3 * t.size + 1 ∧ Walk.after t k (.start root) = some w ∧ w.step t = none ∧
      t.order root = .ok w.done.reverse) ∧
    (∀ k w, Walk.after t k (.start root) = some w → ∀ p, w.LooksUp t p →
      (w.flags root)[p]? = some (decide (p ∈ w.entered)) ∧ ∃ n, t.get? p = some n) ∧
    t.order root = .ok (t.postOrder root) ∧
    (t.postOrder root).Nodup ∧ (∀ p, p ∈ t.postOrder root ↔ t.Reaches root p) ∧
    t.OperandsFirst (t.postOrder root) ∧ (t.postOrder root).getLast? = some root := by
  have hOrder := Tree.order_eq_postOrder h
  refine ⟨?_, ?_, hOrder, Tree.nodup_order hOrder, fun p => Tree.mem_order_iff hOrder,
    Tree.operandsFirst_order hOrder, Tree.getLast?_postOrder h⟩
  · obtain ⟨k, hk, hAfter, hEnd⟩ := Walk.exists_after_run t (.start root)
    refine ⟨k, _, ?_, hAfter, hEnd, ?_⟩
    · rwa [Walk.measure_start] at hk
    · rw [Tree.order, if_pos h]
  · intro k w hAfter p hp
    have hLe := (Walk.reaches_of_looksUp hAfter hp).le
    have hSome : (t.get? p).isSome := Tree.get?_isSome_iff.mpr (by omega)
    exact ⟨Walk.get?_flags w hLe, Option.isSome_iff_exists.mp hSome⟩

/-- A vector, another one, which is negated, the product of the two, and its sum with the
negated vector. -/
def Tree.sharedNegation : Tree := .ofCalls [.dense .float32 [8], .dense .float32 [8],
  .unary .neg 1, .binary .mul 2 0, .binary .add 3 2]

/-- The negated vector is waited for by two nodes and listed with the first of them, before
the vector with the smallest position. -/
theorem order_is_postOrder_sharedNegation :
    4 < Tree.sharedNegation.size ∧ Tree.sharedNegation.order 4 = .ok [1, 2, 0, 3, 4] ∧
      Tree.sharedNegation.postOrder 4 = [1, 2, 0, 3, 4] ∧
      Tree.sharedNegation.OperandsFirst [1, 2, 0, 3, 4] := by
  have hRoot : 4 < Tree.sharedNegation.size := by decide
  have hEval : Tree.sharedNegation.order 4 = .ok [1, 2, 0, 3, 4] := by
    refine eq_ok_of_toOption ?_
    decide +kernel
  obtain ⟨-, -, hOrder, -, -, hFirst, -⟩ := order_is_postOrder hRoot
  have hSame : [1, 2, 0, 3, 4] = Tree.sharedNegation.postOrder 4 :=
    Except.ok.inj (hEval.symm.trans hOrder)
  rw [← hSame] at hFirst
  exact ⟨hRoot, hEval, hSame.symm, hFirst⟩

end ArrayKernel
