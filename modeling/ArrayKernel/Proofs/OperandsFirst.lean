import ArrayKernel.Proofs.Order
import Mathlib.Logic.Relation

/-!
# Operands first

`Tree.order` lists exactly the positions that the root reaches through operands, each
once and behind its operands.

The agenda of the walk is a stack.  Whatever stands in front of the departure from a
position was put there on the way down from it, so it has a smaller position; and when
the departure comes to the front, nothing that the position needs is left to do.  Both
rest on operands having smaller positions, which every tree guarantees.
-/

namespace ArrayKernel

namespace Tree

/-- The root uses the position, directly, through other positions, or as itself. -/
def Reaches (t : Tree) (root p : Nat) : Prop := Relation.ReflTransGen t.Uses root p

/-- Every position of a list stands behind its operands. -/
def OperandsFirst (t : Tree) (order : List Nat) : Prop :=
  ∀ before p after, order = before ++ p :: after → ∀ c, t.Uses p c → c ∈ before

theorem Uses.lt {t : Tree} {p c : Nat} (h : t.Uses p c) : c < p := by
  obtain ⟨n, hn, hc⟩ := h
  exact t.child_lt hn hc

theorem Uses.lt_size {t : Tree} {p c : Nat} (h : t.Uses p c) : c < t.size := by
  obtain ⟨n, hn, hc⟩ := h
  have hp := lt_size_of_get? hn
  have hlt := t.child_lt hn hc
  omega

end Tree

/-- The position that an entry of the agenda is about. -/
def Visit.position : Visit → Nat
  | enter p => p
  | leave p => p

namespace Walk

variable {t : Tree} {root : Nat} {w next : Walk}

/-- What holds of the order of a walk from a root at every step. -/
structure Ordered (t : Tree) (root : Nat) (w : Walk) : Prop extends Sound t root w where
  started : .enter root ∈ w.agenda ∨ root ∈ w.entered
  /-- What stands in front of the departure from a position comes before it in the tree. -/
  below : w.agenda.Pairwise fun v later => ∀ p, later = .leave p → v.position < p
  /-- The operands of a position are done or to be done before the position is left. -/
  awaited : ∀ front p back, w.agenda = front ++ .leave p :: back →
    ∀ c, t.Uses p c → c ∈ w.done ∨ ∃ v ∈ front, v.position = c
  leave_not_done : ∀ p, .leave p ∈ w.agenda → p ∉ w.done
  nodup : w.done.Nodup
  done_behind : ∀ later p earlier, w.done = later ++ p :: earlier →
    ∀ c, t.Uses p c → c ∈ earlier

theorem ordered_start (t : Tree) (root : Nat) : (start root).Ordered t root where
  toSound := sound_start t root
  started := .inl (.head _)
  below := List.pairwise_singleton ..
  awaited := by
    intro front p back h
    have hMem : Visit.leave p ∈ [.enter root] := by
      rw [show [Visit.enter root] = front ++ .leave p :: back from h]
      simp
    simp at hMem
  leave_not_done := nofun
  nodup := List.nodup_nil
  done_behind := by
    intro later p earlier h
    exact absurd h.symm (by simp [start])

/-- Where a list of entries is put in front of a departure and an agenda, a departure is
that one or one of the agenda. -/
theorem split_at_leave {enters agenda front back : List Visit} {p q : Nat}
    (hEnters : ∀ v ∈ enters, ∀ p, v ≠ .leave p)
    (h : enters ++ .leave q :: agenda = front ++ .leave p :: back) :
    (p = q ∧ front = enters) ∨
      ∃ rest, front = enters ++ .leave q :: rest ∧ agenda = rest ++ .leave p :: back := by
  induction enters generalizing front with
  | nil =>
      cases front with
      | nil =>
          cases h
          exact .inl ⟨rfl, rfl⟩
      | cons v rest =>
          obtain ⟨rfl, hRest⟩ := List.cons.inj h
          exact .inr ⟨rest, rfl, hRest⟩
  | cons x enters ih =>
      cases front with
      | nil => exact absurd (List.cons.inj h).1 (hEnters x (.head _) p)
      | cons v front =>
          obtain ⟨rfl, hRest⟩ := List.cons.inj h
          rcases ih (fun y hy => hEnters y (.tail _ hy)) hRest with
            ⟨hpq, rfl⟩ | ⟨rest, rfl, hAgenda⟩
          · exact .inl ⟨hpq, rfl⟩
          · exact .inr ⟨rest, rfl, hAgenda⟩

namespace Ordered

variable {p q : Nat} {agenda : List Visit}

/-- Nothing that stands behind an entry for `q` is the departure from a smaller position. -/
theorem lt_of_leave {v : Visit} (hw : w.Ordered t root) (ha : w.agenda = v :: agenda)
    (hp : .leave p ∈ agenda) : v.position < p := by
  have hBelow := hw.below
  rw [ha] at hBelow
  exact (List.pairwise_cons.mp hBelow).1 _ hp p rfl

/-- Leaving a position: its operands are done, since nothing stands in front. -/
theorem step_leave (hw : w.Ordered t root) (hSound : next.Sound t root)
    (ha : w.agenda = .leave q :: agenda) (hNext : next = ⟨agenda, w.entered, q :: w.done⟩) :
    next.Ordered t root := by
  subst hNext
  have hBelow := hw.below
  rw [ha] at hBelow
  refine ⟨hSound, ?_, (List.pairwise_cons.mp hBelow).2, ?_, ?_, ?_, ?_⟩
  · have hStarted := hw.started
    rw [ha] at hStarted
    simpa using hStarted
  · intro front p back h c hc
    have hSplit : w.agenda = (.leave q :: front) ++ .leave p :: back := by
      rw [ha, show agenda = front ++ .leave p :: back from h]
      rfl
    rcases hw.awaited _ p back hSplit c hc with hDone | ⟨v, hv, hPosition⟩
    · exact .inl (.tail _ hDone)
    · rcases List.mem_cons.mp hv with rfl | hv
      · left
        show c ∈ q :: w.done
        rw [← hPosition]
        exact .head _
      · exact .inr ⟨v, hv, hPosition⟩
  · intro p hp hMem
    have hlt : q < p := hw.lt_of_leave ha hp
    rcases List.mem_cons.mp hMem with rfl | hMem
    · omega
    · exact hw.leave_not_done p (ha ▸ .tail _ hp) hMem
  · exact List.nodup_cons.mpr ⟨hw.leave_not_done q (ha ▸ .head _), hw.nodup⟩
  · intro later p earlier h c hc
    cases later with
    | nil =>
        obtain ⟨rfl, rfl⟩ := List.cons.inj h
        rcases hw.awaited [] q agenda ha c hc with hDone | ⟨v, hv, -⟩
        · exact hDone
        · exact nomatch hv
    | cons x later =>
        exact hw.done_behind later p earlier (List.cons.inj h).2 c hc

/-- Passing over a position that was entered before. -/
theorem step_skip (hw : w.Ordered t root) (hRoot : root < t.size) (hSound : next.Sound t root)
    (ha : w.agenda = .enter q :: agenda) (hSkip : q ∈ w.entered ∨ t.get? q = none)
    (hNext : next = ⟨agenda, w.entered, w.done⟩) : next.Ordered t root := by
  subst hNext
  have hBelow := hw.below
  rw [ha] at hBelow
  -- a position of the tree is passed over only if it was entered
  have hEntered (hq : q < t.size) : q ∈ w.entered := by
    refine hSkip.resolve_right fun hNone => ?_
    have hSome := Tree.get?_isSome_iff.mpr hq
    rw [hNone] at hSome
    exact nomatch hSome
  refine ⟨hSound, ?_, (List.pairwise_cons.mp hBelow).2, ?_, ?_, hw.nodup, hw.done_behind⟩
  · rcases hw.started with hAgenda | hIn
    · rw [ha] at hAgenda
      rcases List.mem_cons.mp hAgenda with hEq | hAgenda
      · cases hEq
        exact .inr (hEntered hRoot)
      · exact .inl hAgenda
    · exact .inr hIn
  · intro front p back h c hc
    have hSplit : agenda = front ++ .leave p :: back := h
    rcases hw.awaited (.enter q :: front) p back (by rw [ha, hSplit]; rfl) c hc with
      hDone | ⟨v, hv, hPosition⟩
    · exact .inl hDone
    · rcases List.mem_cons.mp hv with rfl | hv
      · -- the operand was entered: it is done, or it is left before `p` is
        have hcq : q = c := hPosition
        subst hcq
        rcases (hw.mem_entered_iff q).mp (hEntered hc.lt_size) with hDone | hLeave
        · exact .inl hDone
        · have hlt : q < p := hc.lt
          have hMem : Visit.leave q ∈ front ++ .leave p :: back := by
            rw [ha, hSplit] at hLeave
            simpa using hLeave
          rcases List.mem_append.mp hMem with hFront | hBack
          · exact .inr ⟨_, hFront, rfl⟩
          · rcases List.mem_cons.mp hBack with hEq | hBack
            · cases hEq
              omega
            · have hRest := (List.pairwise_cons.mp hBelow).2
              rw [hSplit, List.pairwise_append] at hRest
              have hgt : p < q := (List.pairwise_cons.mp hRest.2.1).1 _ hBack q rfl
              omega
      · exact .inr ⟨v, hv, hPosition⟩
  · intro p hp
    exact hw.leave_not_done p (ha ▸ .tail _ hp)

/-- Entering a position: its operands that are not done go in front of its departure. -/
theorem step_enter {n : Node} (hw : w.Ordered t root) (hSound : next.Sound t root)
    (ha : w.agenda = .enter q :: agenda) (hNew : q ∉ w.entered) (hn : t.get? q = some n)
    (hNext : next = ⟨(n.children.filter fun c => c ∉ q :: w.entered).map .enter ++
      .leave q :: agenda, q :: w.entered, w.done⟩) : next.Ordered t root := by
  subst hNext
  have hBelow := hw.below
  rw [ha] at hBelow
  obtain ⟨hFirst, hRest⟩ := List.pairwise_cons.mp hBelow
  have hOperands : ∀ c ∈ n.children.filter fun c => c ∉ q :: w.entered, c < q := by
    intro c hc
    exact t.child_lt hn (List.mem_filter.mp hc).1
  refine ⟨hSound, ?_, ?_, ?_, ?_, hw.nodup, hw.done_behind⟩
  · rcases hw.started with hAgenda | hIn
    · rw [ha] at hAgenda
      rcases List.mem_cons.mp hAgenda with hEq | hAgenda
      · cases hEq
        exact .inr (.head _)
      · exact .inl (List.mem_append_right _ (.tail _ hAgenda))
    · exact .inr (.tail _ hIn)
  · rw [List.pairwise_append]
    refine ⟨?_, List.pairwise_cons.mpr ⟨?_, hRest⟩, ?_⟩
    · rw [List.pairwise_map]
      exact List.pairwise_of_forall fun _ _ _ h => nomatch h
    · intro later hLater p hp
      exact hFirst later hLater p hp
    · intro v hv later hLater p hp
      obtain ⟨c, hc, rfl⟩ := List.mem_map.mp hv
      have hcq := hOperands c hc
      show c < p
      rcases List.mem_cons.mp hLater with rfl | hLater
      · cases hp
        exact hcq
      · have hqp : q < p := hFirst later hLater p hp
        omega
  · intro front p back h c hc
    have hEnters : ∀ v ∈ (n.children.filter fun c => c ∉ q :: w.entered).map Visit.enter,
        ∀ p, v ≠ .leave p := by
      intro v hv p
      obtain ⟨d, -, rfl⟩ := List.mem_map.mp hv
      exact nofun
    rcases split_at_leave hEnters h with ⟨rfl, rfl⟩ | ⟨rest, rfl, hRestSplit⟩
    · -- an operand of the new position that was entered before is done: were it still to
      -- be left, the position would stand in front of that departure and be smaller
      obtain ⟨m, hm, hcm⟩ := hc
      rw [hn] at hm
      cases hm
      have hlt : c < p := t.child_lt hn hcm
      by_cases hIn : c ∈ w.entered
      · rcases (hw.mem_entered_iff c).mp hIn with hDone | hLeave
        · exact .inl hDone
        · rw [ha] at hLeave
          have hgt : p < c := hw.lt_of_leave ha (by simpa using hLeave)
          omega
      · right
        have hne : c ≠ p := by omega
        exact ⟨.enter c, List.mem_map_of_mem (List.mem_filter.mpr ⟨hcm, by simp [hIn, hne]⟩), rfl⟩
    · have hSplit : w.agenda = (.enter q :: rest) ++ .leave p :: back := by
        rw [ha, hRestSplit]
        rfl
      rcases hw.awaited _ p back hSplit c hc with hDone | ⟨v, hv, hPosition⟩
      · exact .inl hDone
      · rcases List.mem_cons.mp hv with rfl | hv
        · exact .inr ⟨.leave q, by simp, hPosition⟩
        · exact .inr ⟨v, List.mem_append_right _ (.tail _ hv), hPosition⟩
  · intro p hp
    rcases List.mem_append.mp hp with hp | hp
    · simp at hp
    · rcases List.mem_cons.mp hp with hEq | hp
      · cases hEq
        exact fun hDone => hNew ((hw.mem_entered_iff q).mpr (.inl hDone))
      · exact hw.leave_not_done p (ha ▸ .tail _ hp)

theorem step (hw : w.Ordered t root) (hRoot : root < t.size) (h : w.step t = some next) :
    next.Ordered t root := by
  have hSound := hw.toSound.step h
  rcases step_cases h with
    ⟨q, agenda, ha, hNext⟩ | ⟨q, agenda, ha, hSkip, hNext⟩ | ⟨q, agenda, n, ha, hNew, hn, hNext⟩
  · exact hw.step_leave hSound ha hNext
  · exact hw.step_skip hRoot hSound ha hSkip hNext
  · exact hw.step_enter hSound ha hNew hn hNext

end Ordered

end Walk

/-! ## What the order lists -/

namespace Tree

variable {t : Tree} {root p : Nat} {order : List Nat}

theorem order_eq_error (h : t.size ≤ root) : t.order root = .error (.missingChild root root) := by
  unfold order
  rw [if_neg (by omega)]

theorem exists_order (h : root < t.size) : ∃ order, t.order root = .ok order := by
  unfold order
  rw [if_pos h]
  exact ⟨_, rfl⟩

/-- The order of a root in the tree is what a finished walk has left behind. -/
theorem exists_walk (h : t.order root = .ok order) :
    root < t.size ∧ ∃ w : Walk, w.Ordered t root ∧ w.agenda = [] ∧ order = w.done.reverse := by
  unfold Tree.order at h
  split at h
  · next hRoot =>
    cases h
    obtain ⟨hOrdered, hEnd⟩ := Walk.run_induction (fun hw hs => Walk.Ordered.step hw hRoot hs)
      (Walk.ordered_start t root)
    exact ⟨hRoot, _, hOrdered, hEnd, rfl⟩
  · exact nomatch h

theorem nodup_order (h : t.order root = .ok order) : order.Nodup := by
  obtain ⟨-, w, hw, -, rfl⟩ := exists_walk h
  exact List.pairwise_reverse.mpr (hw.nodup.imp Ne.symm)

theorem operandsFirst_order (h : t.order root = .ok order) : t.OperandsFirst order := by
  obtain ⟨-, w, hw, -, rfl⟩ := exists_walk h
  intro before p after hSplit c hc
  have hDone : w.done = after.reverse ++ p :: before.reverse := by
    rw [← List.reverse_reverse w.done, hSplit]
    simp
  exact List.mem_reverse.mp (hw.done_behind _ p _ hDone c hc)

theorem root_mem_order (h : t.order root = .ok order) : root ∈ order := by
  obtain ⟨-, w, hw, hEnd, rfl⟩ := exists_walk h
  have hEntered : root ∈ w.entered := by
    refine hw.started.resolve_left fun hAgenda => ?_
    rw [hEnd] at hAgenda
    exact nomatch hAgenda
  have hDone := (hw.mem_entered_iff root).mp hEntered
  rw [hEnd] at hDone
  simpa using hDone

theorem Reaches.le (h : t.Reaches root p) : p ≤ root := by
  induction h with
  | refl => exact Nat.le_refl root
  | tail _ hUses ih =>
      have hlt := hUses.lt
      omega

/-- The order lists what the root reaches. -/
theorem mem_order_iff (h : t.order root = .ok order) : p ∈ order ↔ t.Reaches root p := by
  constructor
  · intro hp
    -- a listed position is used by a greater one, up to the root
    induction hk : t.size - p using Nat.strongRecOn generalizing p with
    | _ k ih =>
        rcases mem_order h hp with rfl | ⟨q, hq, hUses⟩
        · exact .refl
        · have hlt := hUses.lt
          have hSize := hUses.lt_size
          exact (ih (t.size - q) (by omega) hq rfl).tail hUses
  · intro hp
    induction hp with
    | refl => exact root_mem_order h
    | tail _ hUses ih =>
        obtain ⟨before, after, rfl⟩ := List.append_of_mem ih
        exact List.mem_append_left _ (operandsFirst_order h before _ after rfl _ hUses)

theorem exists_node_of_mem_order (h : t.order root = .ok order) (hp : p ∈ order) :
    ∃ n, t.get? p = some n := by
  obtain ⟨hRoot, -⟩ := exists_walk h
  have hLe := ((mem_order_iff h).mp hp).le
  exact Option.isSome_iff_exists.mp (get?_isSome_iff.mpr (by omega))

end Tree

/-- Every listed position has a node, so the pass over the listed positions succeeds. -/
theorem Usage.exists_ofOrder {t : Tree} {root : Nat} {order : List Nat}
    (h : t.order root = .ok order) : ∃ usage, ofOrder t root order = .ok usage := by
  refine exists_foldlM (fun q hq u => ?_) _
  obtain ⟨n, hn⟩ := Tree.exists_node_of_mem_order h (List.mem_reverse.mp hq)
  exact ⟨u.add q n, note_eq_ok_iff.mpr ⟨n, hn, rfl⟩⟩

end ArrayKernel
