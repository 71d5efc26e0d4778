import ArrayKernel.Lowering
import ArrayKernel.Proofs.Built

/-!
# What the walk lists and how it is used

Every position that `Tree.order` lists is the root or an operand of a listed node.
The root counts as read, and every operand of a listed node counts as read or as
written, so no listed position is left without a use.

Nothing is said here about the order itself; that every node stands behind its
operands is the subject of `ArrayKernel.Proofs.OperandsFirst`.
-/

namespace ArrayKernel

namespace Tree

/-- The node at `q` has the position `p` as an operand. -/
def Uses (t : Tree) (q p : Nat) : Prop := ∃ n, t.get? q = some n ∧ p ∈ n.children

end Tree

namespace Walk

variable {t : Tree} {root : Nat} {w next : Walk}

/-- A position is the root or an operand of an entered position. -/
def Wanted (t : Tree) (root : Nat) (w : Walk) (position : Nat) : Prop :=
  position = root ∨ ∃ q ∈ w.entered, t.Uses q position

/-- What holds of a walk from a root at every step. -/
structure Sound (t : Tree) (root : Nat) (w : Walk) : Prop where
  /-- No position is entered without need. -/
  entered_wanted : ∀ p ∈ w.entered, w.Wanted t root p
  agenda_wanted : ∀ p, .enter p ∈ w.agenda → w.Wanted t root p
  /-- A position that is entered is left once its operands are done. -/
  mem_entered_iff : ∀ p, p ∈ w.entered ↔ p ∈ w.done ∨ .leave p ∈ w.agenda

theorem Wanted.mono {position : Nat} (h : w.Wanted t root position)
    (hSub : ∀ q ∈ w.entered, q ∈ next.entered) : next.Wanted t root position := by
  rcases h with rfl | ⟨q, hq, hUses⟩
  · exact .inl rfl
  · exact .inr ⟨q, hSub q hq, hUses⟩

theorem sound_start (t : Tree) (root : Nat) : (start root).Sound t root where
  entered_wanted := nofun
  agenda_wanted := by
    intro p hp
    simp only [start, List.mem_singleton, Visit.enter.injEq] at hp
    exact .inl hp
  mem_entered_iff := by simp [start]

/-- The three things that a step can do. -/
theorem step_cases (h : w.step t = some next) :
    (∃ p agenda, w.agenda = .leave p :: agenda ∧ next = ⟨agenda, w.entered, p :: w.done⟩) ∨
    (∃ p agenda, w.agenda = .enter p :: agenda ∧ (p ∈ w.entered ∨ t.get? p = none) ∧
      next = ⟨agenda, w.entered, w.done⟩) ∨
    (∃ p agenda n, w.agenda = .enter p :: agenda ∧ p ∉ w.entered ∧ t.get? p = some n ∧
      next = ⟨(n.children.filter fun c => c ∉ p :: w.entered).map .enter ++ .leave p :: agenda,
        p :: w.entered, w.done⟩) := by
  unfold step at h
  split at h
  · exact nomatch h
  · next p agenda ha =>
    cases h
    exact .inl ⟨p, agenda, ha, rfl⟩
  · next p agenda ha =>
    split at h
    · next hEntered =>
      cases h
      exact .inr (.inl ⟨p, agenda, ha, .inl hEntered, rfl⟩)
    · next hNew =>
      split at h
      · next hNone =>
        cases h
        exact .inr (.inl ⟨p, agenda, ha, .inr hNone, rfl⟩)
      · next n hn =>
        cases h
        exact .inr (.inr ⟨p, agenda, n, ha, hNew, hn, rfl⟩)

theorem Sound.step (hw : w.Sound t root) (h : w.step t = some next) : next.Sound t root := by
  rcases step_cases h with
    ⟨p, agenda, ha, rfl⟩ | ⟨p, agenda, ha, -, rfl⟩ | ⟨p, agenda, n, ha, -, hn, rfl⟩
  · refine ⟨hw.entered_wanted, fun q hq => hw.agenda_wanted q (ha ▸ .tail _ hq), fun q => ?_⟩
    rw [hw.mem_entered_iff q, ha]
    simp only [List.mem_cons, Visit.leave.injEq]
    rw [← or_assoc, or_comm (a := q ∈ w.done)]
  · refine ⟨hw.entered_wanted, fun q hq => hw.agenda_wanted q (ha ▸ .tail _ hq), fun q => ?_⟩
    rw [hw.mem_entered_iff q, ha]
    simp
  · have hSub : ∀ q ∈ w.entered, q ∈ p :: w.entered := fun q hq => .tail _ hq
    have hp := hw.agenda_wanted p (ha ▸ List.mem_cons_self)
    refine ⟨fun q hq => ?_, fun q hq => ?_, fun q => ?_⟩
    · -- the position just entered stood on the agenda, so it was wanted before
      rcases List.mem_cons.mp hq with rfl | hq
      · exact hp.mono hSub
      · exact (hw.entered_wanted q hq).mono hSub
    · rcases List.mem_append.mp hq with hq | hq
      · -- the new entries are operands of the position just entered
        obtain ⟨c, hc, hEq⟩ := List.mem_map.mp hq
        cases hEq
        exact .inr ⟨p, List.mem_cons_self, n, hn, (List.mem_filter.mp hc).1⟩
      · have hq' : Visit.enter q ∈ agenda := by simpa using hq
        exact (hw.agenda_wanted q (ha ▸ .tail _ hq')).mono hSub
    · rw [List.mem_cons, hw.mem_entered_iff q, ha]
      simp only [List.mem_cons, List.mem_append, List.mem_map, reduceCtorEq, and_false,
        exists_false, false_or, Visit.leave.injEq]
      exact or_left_comm

/-- What every step keeps holds at the end of a run, where the agenda is empty. -/
theorem run_induction {P : Walk → Prop}
    (hStep : ∀ {w next : Walk}, P w → w.step t = some next → P next) (h : P w) :
    P (w.run t) ∧ (w.run t).agenda = [] := by
  fun_induction run t w with
  | case1 w hNone =>
    refine ⟨h, ?_⟩
    unfold step at hNone
    split at hNone
    · next ha => exact ha
    · exact nomatch hNone
    · split at hNone
      · exact nomatch hNone
      · split at hNone <;> exact nomatch hNone
  | case2 w next hNext _ ih => exact ih (hStep h hNext)

end Walk

namespace Tree

/-- Every listed position is the root or an operand of a listed position. -/
theorem mem_order {t : Tree} {root : Nat} {order : List Nat} (h : t.order root = .ok order)
    {p : Nat} (hp : p ∈ order) : p = root ∨ ∃ q ∈ order, t.Uses q p := by
  unfold Tree.order at h
  split at h
  · cases h
    obtain ⟨hSound, hEnd⟩ := Walk.run_induction (fun hw hs => Walk.Sound.step hw hs)
      (Walk.sound_start t root)
    -- with nothing on the agenda, all that was entered is done
    have hMem (q : Nat) : q ∈ ((Walk.start root).run t).entered ↔
        q ∈ ((Walk.start root).run t).done.reverse := by
      rw [hSound.mem_entered_iff q, hEnd]
      simp
    rcases hSound.entered_wanted p ((hMem p).mpr hp) with hRoot | ⟨q, hq, hUses⟩
    · exact .inl hRoot
    · exact .inr ⟨q, (hMem q).mp hq, hUses⟩
  · exact nomatch h

end Tree

namespace Usage

variable {t : Tree} {u : Usage}

/-- A position counts as read or as written. -/
def Covers (u : Usage) (position : Nat) : Prop := position ∈ u.read ∨ position ∈ u.written

theorem note_eq_ok_iff {next : Usage} {q : Nat} :
    note t u q = .ok next ↔ ∃ n, t.get? q = some n ∧ next = u.add q n := by
  unfold note
  cases t.get? q <;> simp [eq_comm]

theorem Covers.add {p : Nat} (h : u.Covers p) (q : Nat) (n : Node) : (u.add q n).Covers p := by
  unfold Usage.add Covers at *
  split
  · simp only [List.mem_append]
    exact h.imp .inr .inr
  · split
    · simp only [List.mem_append]
      exact h.imp .inr .inr
    · simp only [List.mem_append]
      exact h.imp_left .inr
  · simp only [List.mem_append]
    exact h.imp_left .inr

/-- Adding a node covers its operands. -/
theorem covers_add {n : Node} {p : Nat} (hp : p ∈ n.children) (q : Nat) :
    (u.add q n).Covers p := by
  unfold Usage.add Covers
  split
  · rcases Node.mem_children.mp hp with hl | hr
    · simp [hl]
    · simp [hr]
  · split <;> exact .inl (List.mem_append_left _ hp)
  · exact .inl (List.mem_append_left _ hp)

/-- Every listed position is read or written. -/
theorem covers_ofOrder {root : Nat} {order : List Nat} (h : t.order root = .ok order)
    (hUsage : ofOrder t root order = .ok u) {p : Nat} (hp : p ∈ order) : u.Covers p := by
  have hKeeps (q : Nat) (_ : q ∈ order.reverse) (v next : Usage) (hNote : note t v q = .ok next)
      (hv : v.Covers p) : next.Covers p := by
    obtain ⟨n, -, rfl⟩ := note_eq_ok_iff.mp hNote
    exact hv.add q n
  rcases Tree.mem_order h hp with rfl | ⟨q, hq, n, hn, hChild⟩
  · exact foldlM_induction (P := (Covers · p)) hKeeps hUsage (.inl List.mem_cons_self)
  · refine foldlM_of_mem (P := (Covers · p)) (List.mem_reverse.mpr hq) (fun v next hNote => ?_)
      hKeeps hUsage
    obtain ⟨m, hm, rfl⟩ := note_eq_ok_iff.mp hNote
    rw [hn] at hm
    cases hm
    exact covers_add hChild q

end Usage
end ArrayKernel
