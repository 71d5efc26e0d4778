import ArrayKernel.Helper.Expansion
import ArrayKernel.Symbol.Basic

/-!
# Symbol tables

A table holds symbols by the positions of their nodes, in the order of
positions.  A position is filled once.
-/

namespace ArrayKernel

/-- Symbols by position, in order. -/
structure Table where
  entries : List (Nat × Symbol)
  sorted : entries.Pairwise fun a b => a.1 < b.1

namespace Table

/-- Puts a symbol in its place in an ordered list. -/
def place (position : Nat) (s : Symbol) : List (Nat × Symbol) → List (Nat × Symbol)
  | [] => [(position, s)]
  | e :: es => if position < e.1 then (position, s) :: e :: es else e :: place position s es

@[simp] theorem mem_place {position : Nat} {s : Symbol} {es : List (Nat × Symbol)}
    {e : Nat × Symbol} : e ∈ place position s es ↔ e = (position, s) ∨ e ∈ es := by
  induction es with
  | nil => simp [place]
  | cons x xs ih =>
    rw [place]
    split
    · simp
    · simp only [List.mem_cons, ih]
      exact or_left_comm

theorem place_sorted {position : Nat} {s : Symbol} {es : List (Nat × Symbol)}
    (hes : es.Pairwise fun a b => a.1 < b.1) (hfree : ∀ e ∈ es, e.1 ≠ position) :
    (place position s es).Pairwise fun a b => a.1 < b.1 := by
  induction es with
  | nil => simp [place]
  | cons x xs ih =>
    obtain ⟨hx, hxs⟩ := List.pairwise_cons.mp hes
    rw [place]
    split
    · next hlt =>
      refine List.pairwise_cons.mpr ⟨fun z hz => ?_, hes⟩
      rcases List.mem_cons.mp hz with rfl | hz
      · exact hlt
      · exact Nat.lt_trans hlt (hx z hz)
    · next hlt =>
      have hne := hfree x List.mem_cons_self
      refine List.pairwise_cons.mpr ⟨fun z hz => ?_, ih hxs fun e he => hfree e (.tail _ he)⟩
      rcases mem_place.mp hz with rfl | hz
      · show x.1 < position
        omega
      · exact hx z hz

/-- The table without symbols. -/
def empty : Table := ⟨[], List.Pairwise.nil⟩

/-- The number of symbols. -/
def size (t : Table) : Nat := t.entries.length

/-- The symbol at a position. -/
def get? (t : Table) (position : Nat) : Option Symbol := t.entries.lookup position

def contains (t : Table) (position : Nat) : Bool := t.entries.any fun e => e.1 == position

/-- The symbol at a position that has to be filled. -/
def lookup (t : Table) (position : Nat) : Except SymbolError Symbol :=
  match t.get? position with
  | some s => .ok s
  | none => .error (.unknownPosition position)

/-- Fills a position that has to be free. -/
def insert (t : Table) (position : Nat) (s : Symbol) : Except SymbolError Table :=
  if h : t.contains position = true then .error (.occupiedPosition position)
  else
    .ok ⟨place position s t.entries, place_sorted t.sorted fun e he heq => h (by
      simp only [contains, List.any_eq_true]
      exact ⟨e, he, by simp [heq]⟩)⟩

theorem lookup_eq_some_iff {es : List (Nat × Symbol)} (hes : es.Pairwise fun a b => a.1 < b.1)
    {position : Nat} {s : Symbol} : es.lookup position = some s ↔ (position, s) ∈ es := by
  induction es with
  | nil => simp
  | cons e es ih =>
    obtain ⟨he, hrest⟩ := List.pairwise_cons.mp hes
    obtain ⟨k, x⟩ := e
    rw [List.lookup_cons]
    by_cases hk : position = k
    · subst hk
      have hnot : (position, s) ∉ es := fun hmem =>
        Nat.lt_irrefl position (he (position, s) hmem)
      simp [hnot, eq_comm]
    · have hbeq : (position == k) = false := beq_false_of_ne hk
      simp [hbeq, hk, ih hrest]

theorem get?_eq_some_iff {t : Table} {position : Nat} {s : Symbol} :
    t.get? position = some s ↔ (position, s) ∈ t.entries :=
  lookup_eq_some_iff t.sorted

theorem contains_iff {t : Table} {position : Nat} :
    t.contains position = true ↔ ∃ s, t.get? position = some s := by
  simp only [contains, List.any_eq_true, beq_iff_eq, get?_eq_some_iff]
  constructor
  · rintro ⟨⟨k, s⟩, hmem, hk⟩
    exact ⟨s, hk ▸ hmem⟩
  · rintro ⟨s, hmem⟩
    exact ⟨(position, s), hmem, rfl⟩

@[simp] theorem get?_empty (position : Nat) : empty.get? position = none := rfl

/-- A filled table holds what it held before, and the symbol in its place. -/
theorem get?_of_insert {t next : Table} {position : Nat} {s : Symbol}
    (h : t.insert position s = .ok next) (p : Nat) :
    next.get? p = if p = position then some s else t.get? p := by
  unfold insert at h
  split at h
  · exact nomatch h
  · next hfree =>
    cases h
    have hnone : t.get? position = none := by
      cases hget : t.get? position with
      | none => rfl
      | some x => exact absurd (contains_iff.mpr ⟨x, hget⟩) hfree
    ext x
    rw [get?_eq_some_iff]
    simp only [mem_place, Prod.mk.injEq]
    split
    · next hp =>
      subst hp
      have hnot : (p, x) ∉ t.entries := fun hmem => by
        rw [get?_eq_some_iff.mpr hmem] at hnone
        exact nomatch hnone
      simp [hnot, eq_comm]
    · next hp => simp [hp, get?_eq_some_iff]

/-- The helpers of all symbols. -/
def helpers (t : Table) : HelperSet := .ofList (t.entries.flatMap fun e => e.2.helpers.toList)

@[simp] theorem mem_helpers {t : Table} {h : Helper} :
    h ∈ t.helpers ↔ ∃ e ∈ t.entries, h ∈ e.2.helpers := by
  rw [helpers, HelperSet.mem_ofList, List.mem_flatMap]
  exact Iff.rfl

/-- The definitions of the helpers of all symbols. -/
def prelude (t : Table) : Text := t.helpers.definitions

/-- A text with the calls of the helpers of all symbols expanded. -/
def expand (t : Table) (text : Text) : Option Text := expandAll t.helpers.toList text

end Table

end ArrayKernel
