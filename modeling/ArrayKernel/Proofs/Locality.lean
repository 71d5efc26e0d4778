import ArrayKernel.Proofs.PostOrder
import Mathlib.Data.List.Basic

/-!
# Only what is under the root counts

Two trees that have the same nodes under a root are lowered alike from that root: the
order of the positions, the error or the table are equal.  Nodes that the root does not
use may stand anywhere between those that it does.  They may be ill-formed, and they may
be assignments to arrays that the root reads.

The order is the part with an argument, since a single wrong visit would shift the numbers
of all names behind it; the traversal only ever visits positions under the root.  The
other passes look at the listed nodes alone.
-/

namespace ArrayKernel

namespace Tree

variable {t u next : Tree} {root p c : Nat}

/-- The positions under a root in the first tree hold the same nodes in the second. -/
def AgreesUnder (t u : Tree) (root : Nat) : Prop :=
  ∀ p, t.Reaches root p → u.get? p = t.get? p

/-- A tree grows into another by calls of the builders and by nodes appended by hand. -/
inductive GrowsInto (t : Tree) : Tree → Prop
  | refl : GrowsInto t t
  | call {u next : Tree} {c : Call} {position : Nat} (h : GrowsInto t u)
      (hNext : u.call c = .ok (next, position)) : GrowsInto t next
  | push {u next : Tree} {n : Node} {position : Nat} (h : GrowsInto t u)
      (hNext : u.push n = .ok (next, position)) : GrowsInto t next

theorem AgreesUnder.operand (h : t.AgreesUnder u p) (hUses : t.Uses p c) : t.AgreesUnder u c := by
  intro q hq
  exact h q (hq.head hUses)

theorem AgreesUnder.lt_size_iff (h : t.AgreesUnder u root) : root < u.size ↔ root < t.size := by
  rw [← get?_isSome_iff, ← get?_isSome_iff, h root .refl]

/-! ## Growing -/

theorem get?_append_of_lt {n : Node} (hn : ∀ c ∈ n.children, c < t.size) (h : p < t.size) :
    (t.append n hn).get? p = t.get? p := by
  rw [get?_append, if_neg (by omega)]

/-- What is in a tree stays in whatever it grows into. -/
theorem GrowsInto.get? (h : t.GrowsInto u) (hp : p < t.size) :
    t.size ≤ u.size ∧ u.get? p = t.get? p := by
  have hAppend {v : Tree} {n : Node} (hn : ∀ c ∈ n.children, c < v.size)
      (ih : t.size ≤ v.size ∧ v.get? p = t.get? p) :
      t.size ≤ (v.append n hn).size ∧ (v.append n hn).get? p = t.get? p := by
    obtain ⟨hLe, hGet⟩ := ih
    rw [size_append, get?_append_of_lt hn (by omega)]
    exact ⟨by omega, hGet⟩
  induction h with
  | refl => exact ⟨Nat.le_refl _, rfl⟩
  | call _ hNext ih =>
      obtain ⟨n, hn, rfl, -⟩ := grows_of_call hNext
      exact hAppend hn ih
  | push _ hNext ih =>
      obtain ⟨hn, rfl, -⟩ := push_eq_ok hNext
      exact hAppend hn ih

theorem GrowsInto.agreesUnder (h : t.GrowsInto u) (hRoot : root < t.size) :
    t.AgreesUnder u root := by
  intro p hp
  have hLe := hp.le
  exact (h.get? (by omega)).2

/-! ## The order -/

theorem AgreesUnder.visit_eq (h : t.AgreesUnder u p) (s : Traversal) :
    u.visit s p = t.visit s p := by
  induction p using Nat.strongRecOn generalizing s with
  | _ p ih =>
      have hp := h p .refl
      by_cases hMem : p ∈ s.marked
      · rw [visit_of_mem hMem, visit_of_mem hMem]
      · cases hn : t.get? p with
        | none =>
            rw [visit_of_get?_eq_none hn, visit_of_get?_eq_none (hp.trans hn)]
        | some n =>
            have hOperands (s : Traversal) (c : Nat) (hc : c ∈ n.children) :
                u.visit s c = t.visit s c :=
              ih c (t.child_lt hn hc) (h.operand ⟨n, hn, hc⟩) s
            rw [visit_of_get? hMem hn, visit_of_get? hMem (hp.trans hn),
              List.foldl_ext u.visit t.visit _ hOperands]

theorem AgreesUnder.order_eq (h : t.AgreesUnder u root) : u.order root = t.order root := by
  by_cases hRoot : root < t.size
  · rw [order_eq_postOrder hRoot, order_eq_postOrder (h.lt_size_iff.mpr hRoot)]
    unfold postOrder
    rw [h.visit_eq]
  · have hRoot' : ¬ root < u.size := fun hu => hRoot (h.lt_size_iff.mp hu)
    rw [order_eq_error (by omega), order_eq_error (by omega)]

end Tree

/-! ## The passes over the order -/

section

variable {t u : Tree} {root : Nat} {order : List Nat}

theorem Usage.ofOrder_congr (h : ∀ p ∈ order, u.get? p = t.get? p) :
    ofOrder u root order = ofOrder t root order := by
  unfold ofOrder
  refine foldlM_congr (fun p hp usage => ?_) _
  unfold note
  rw [h p (List.mem_reverse.mp hp)]

theorem Progress.foldlM_place_congr {usage : Usage} {device : Device} {settings : Settings}
    (h : ∀ p ∈ order, u.get? p = t.get? p) (progress : Progress) :
    order.foldlM (place u usage device settings) progress =
      order.foldlM (place t usage device settings) progress := by
  refine foldlM_congr (fun p hp progress => ?_) progress
  unfold place
  rw [h p hp]

theorem Tree.AgreesUnder.ofTree_eq (h : t.AgreesUnder u root) (device : Device)
    (settings : Settings) :
    Table.ofTree u root device settings = Table.ofTree t root device settings := by
  unfold Table.ofTree
  rw [h.order_eq]
  cases hOrder : t.order root with
  | error e => rfl
  | ok order =>
      have hListed : ∀ p ∈ order, u.get? p = t.get? p :=
        fun p hp => h p ((Tree.mem_order_iff hOrder).mp hp)
      simp only [Except.mapError, ok_bind]
      rw [Usage.ofOrder_congr hListed]
      refine bind_congr fun usage => ?_
      rw [Progress.foldlM_place_congr hListed]

end

/-- **Only what is under the root counts.**  Two trees that have the same nodes under a root
give the same order of its positions and, for every device and all settings, the same error
or the same table.  So it is for a tree and whatever it grows into. -/
theorem only_reachable_nodes_matter (t u : Tree) (root : Nat) :
    (t.AgreesUnder u root → u.order root = t.order root ∧
      ∀ device settings,
        Table.ofTree u root device settings = Table.ofTree t root device settings) ∧
    (root < t.size → t.GrowsInto u → t.AgreesUnder u root) := by
  constructor
  · intro hAgrees
    exact ⟨hAgrees.order_eq, fun device settings => hAgrees.ofTree_eq device settings⟩
  · intro hRoot hGrows
    exact hGrows.agreesUnder hRoot

/-- A vector, a store to it that nothing uses, and the negated vector. -/
def Tree.unusedStore : Tree := .ofCalls [.dense .float32 [4], .assign 0 0, .unary .neg 0]

/-- The same vector and its negation around a view without an operand. -/
def Tree.unusedView : Tree :=
  ((empty.buffer .float32 [4] [1] 0).1.append ⟨.view .diagonal, .float32, [], none, none⟩
    (by decide)).append ⟨.unary .neg, .float32, [4], some 0, none⟩ (by decide)

/-- What nothing uses may be a store or an ill-formed view, and a further store to the vector
may follow. -/
theorem only_reachable_unusedStore :
    Tree.unusedStore.AgreesUnder .unusedView 2 ∧
    Tree.unusedView.order 2 = .ok [0, 2] ∧ Tree.unusedStore.order 2 = .ok [0, 2] ∧
    (∀ device settings, Table.ofTree .unusedView 2 device settings =
      Table.ofTree .unusedStore 2 device settings) ∧
    ∃ later, Tree.unusedStore.assign 0 2 = .ok (later, 3) ∧
      Tree.unusedStore.AgreesUnder later 2 := by
  have hOrder : Tree.unusedStore.order 2 = .ok [0, 2] := by
    refine eq_ok_of_toOption ?_
    decide +kernel
  have hAgrees : Tree.unusedStore.AgreesUnder .unusedView 2 := by
    intro p hp
    have hMem := (Tree.mem_order_iff hOrder).mpr hp
    simp only [List.mem_cons, List.not_mem_nil, or_false] at hMem
    rcases hMem with rfl | rfl
    · rfl
    · rfl
  obtain ⟨hSame, hTables⟩ := (only_reachable_nodes_matter _ _ 2).1 hAgrees
  have hCall : Tree.unusedStore.assign 0 2 = .ok (Tree.unusedStore.append
    ⟨.binary .assign, .float32, [4], some 0, some 2⟩ (by decide), 3) := rfl
  have hLater := (only_reachable_nodes_matter _ _ 2).2 (by decide)
    (.call (c := .assign 0 2) .refl hCall)
  exact ⟨hAgrees, hSame.trans hOrder, hOrder, hTables, _, hCall, hLater⟩

end ArrayKernel
