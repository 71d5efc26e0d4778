import ArrayKernel.Tree.Basic

/-!
# Children before parents

`Tree.order` lists the positions that a root uses, directly or through others,
each once and behind its operands.  The walk keeps an agenda: it enters a
position by putting the operands that it has not entered yet in front of the
departure from that position.
-/

namespace ArrayKernel

/-- An entry of the agenda. -/
inductive Visit where
  | enter (position : Nat)
  | leave (position : Nat)
  deriving DecidableEq, Repr

/-- A walk over a tree: what is still to do, the positions entered, and the positions
left, the latest first. -/
structure Walk where
  agenda : List Visit
  entered : List Nat
  done : List Nat
  deriving DecidableEq, Repr

namespace Walk

/-- The walk that is about to enter a root. -/
def start (root : Nat) : Walk := ⟨[.enter root], [], []⟩

/-- Takes the first entry off the agenda; `none` when there is none. -/
def step (t : Tree) (w : Walk) : Option Walk :=
  match w.agenda with
  | [] => none
  | .leave position :: agenda => some ⟨agenda, w.entered, position :: w.done⟩
  | .enter position :: agenda =>
    if position ∈ w.entered then some ⟨agenda, w.entered, w.done⟩
    else
      match t.get? position with
      | none => some ⟨agenda, w.entered, w.done⟩
      | some n =>
        let entered := position :: w.entered
        let operands := n.children.filter fun c => c ∉ entered
        some ⟨operands.map .enter ++ .leave position :: agenda, entered, w.done⟩

/-- The number of positions of the tree that are not entered. -/
def remaining (t : Tree) (w : Walk) : Nat :=
  (List.range t.size).countP fun position => position ∉ w.entered

/-- A bound on the number of steps: entering a position adds at most three entries. -/
def measure (t : Tree) (w : Walk) : Nat := 3 * w.remaining t + w.agenda.length

theorem countP_not_mem_cons_lt {position n : Nat} {entered : List Nat} (hlt : position < n)
    (hnot : position ∉ entered) :
    (List.range n).countP (fun p => p ∉ position :: entered) <
      (List.range n).countP (fun p => p ∉ entered) := by
  have hmem : position ∈ List.range n := List.mem_range.mpr hlt
  obtain ⟨s, u, hsu⟩ := List.append_of_mem hmem
  have hle (l : List Nat) : l.countP (fun p => p ∉ position :: entered) ≤
      l.countP (fun p => p ∉ entered) :=
    List.countP_mono_left fun p _ hp => by simp_all
  have hIn : decide (position ∉ position :: entered) = false := by simp
  have hOut : decide (position ∉ entered) = true := by simp [hnot]
  have hs := hle s
  have hu := hle u
  rw [hsu]
  simp only [List.countP_append, List.countP_cons, hIn, hOut, Bool.false_eq_true, if_false, if_true]
  omega

theorem measure_step_lt {t : Tree} {w next : Walk} (h : w.step t = some next) :
    next.measure t < w.measure t := by
  unfold step at h
  split at h
  · exact nomatch h
  · next position agenda ha =>
    cases h
    simp [measure, remaining, ha]
  · next position agenda ha =>
    split at h
    · cases h
      simp [measure, remaining, ha]
    · next hnot =>
      split at h
      · cases h
        simp [measure, remaining, ha]
      · next n hn =>
        cases h
        have hlt := countP_not_mem_cons_lt (Tree.lt_size_of_get? hn) hnot
        have hlen : n.children.length ≤ 2 := by
          cases hl : n.lhs <;> cases hr : n.rhs <;> simp [Node.children, hl, hr]
        have hfilter := List.length_filter_le (fun c => decide (c ∉ position :: w.entered))
          n.children
        simp only [measure, remaining, ha, List.length_append, List.length_map, List.length_cons]
        omega

/-- Steps until the agenda is empty. -/
def run (t : Tree) (w : Walk) : Walk :=
  match h : w.step t with
  | none => w
  | some next =>
    have := measure_step_lt h
    run t next
termination_by w.measure t

end Walk

namespace Tree

/-- The positions that a root uses, each once and behind its operands. -/
def order (t : Tree) (root : Nat) : Except TreeError (List Nat) :=
  if root < t.size then .ok ((Walk.start root).run t).done.reverse
  else .error (.missingChild root root)

end Tree

end ArrayKernel
