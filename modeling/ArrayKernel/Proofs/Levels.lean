import ArrayKernel.Text.Argument
import Mathlib.Data.List.Infix

/-!
# Brackets of one kind

The brackets of one kind are followed by counting alone: no part at the start of a text
closes more of them than are open.  The search for a closing parenthesis passes over a
text that closes its parentheses.  Commas that stand inside brackets have something open in
front of them, of one kind or the other.

The kinds need NOT be nested in each other.
-/

namespace ArrayKernel
namespace Text

/-- From one number of open brackets a text leads to another: no part at its start closes
more brackets than are open. -/
structure Levels (opening closing : Char) (depth : Nat) (t : Text) (last : Nat) : Prop where
  le : ∀ s, s <+: t → s.count closing ≤ depth + s.count opening
  eq : last + t.count closing = depth + t.count opening

/-- Every bracket of one kind is closed in the text, and none is closed that is not open. -/
abbrev Closes (opening closing : Char) (t : Text) : Prop := Levels opening closing 0 t 0

/-- Something is open in front of every comma, with the given numbers of brackets open at the
start. -/
def CommasInside (round square : Nat) (t : Text) : Prop :=
  ∀ s, s ++ [','] <+: t → s.count ')' < round + s.count '(' ∨ s.count ']' < square + s.count '['

instance (opening closing : Char) (depth : Nat) (t : Text) (last : Nat) :
    Decidable (Levels opening closing depth t last) :=
  decidable_of_iff ((∀ s ∈ t.inits, s.count closing ≤ depth + s.count opening) ∧
      last + t.count closing = depth + t.count opening) <| by
    simp only [List.mem_inits]
    exact ⟨fun h => ⟨h.1, h.2⟩, fun h => ⟨h.le, h.eq⟩⟩

instance (round square : Nat) (t : Text) : Decidable (CommasInside round square t) :=
  decidable_of_iff (∀ s ∈ t.inits, s ++ [','] <+: t →
      s.count ')' < round + s.count '(' ∨ s.count ']' < square + s.count '[') <| by
    simp only [List.mem_inits]
    refine ⟨fun h s hs => h s ?_ hs, fun h s _ hs => h s hs⟩
    exact (List.prefix_append s [',']).trans hs

/-- The number of open brackets of one kind after a character. -/
def level (opening closing : Char) (depth : Nat) (c : Char) : Nat :=
  if c = opening then depth + 1 else if c = closing then depth - 1 else depth

namespace Levels

variable {opening closing c : Char} {depth last : Nat} {t : Text}

theorem eq_of_nil (h : Levels opening closing depth [] last) : last = depth := by
  simpa using h.eq

/-- One character: a closing bracket has something to close. -/
theorem step (hKind : opening ≠ closing) (h : Levels opening closing depth (c :: t) last) :
    ¬ (c = closing ∧ depth = 0) ∧
      Levels opening closing (level opening closing depth c) t last := by
  have hFirst := h.le [c] ⟨t, rfl⟩
  have hGoesOn : ¬ (c = closing ∧ depth = 0) := by
    rintro ⟨rfl, rfl⟩
    simp [hKind.symm] at hFirst
  refine ⟨hGoesOn, ⟨fun s hs => ?_, ?_⟩⟩
  · have hLe := h.le (c :: s) (List.cons_prefix_cons.mpr ⟨rfl, hs⟩)
    simp only [List.count_cons, beq_iff_eq] at hLe
    grind [level]
  · have hEq := h.eq
    simp only [List.count_cons, beq_iff_eq] at hEq
    grind [level]

theorem cons (hKind : opening ≠ closing) (hGoesOn : ¬ (c = closing ∧ depth = 0))
    (h : Levels opening closing (level opening closing depth c) t last) :
    Levels opening closing depth (c :: t) last := by
  constructor
  · intro s hs
    cases s with
    | nil => simp
    | cons d s =>
        obtain ⟨rfl, hTail⟩ := List.cons_prefix_cons.mp hs
        have hLe := h.le s hTail
        simp only [List.count_cons, beq_iff_eq]
        grind [level]
  · have hEq := h.eq
    simp only [List.count_cons, beq_iff_eq]
    grind [level]

end Levels

theorem CommasInside.step {round square : Nat} {c : Char} {t : Text}
    (h : CommasInside round square (c :: t)) :
    ¬ (c = ',' ∧ round + square = 0) ∧
      CommasInside (level '(' ')' round c) (level '[' ']' square c) t := by
  constructor
  · rintro ⟨rfl, hZero⟩
    have hFirst := h [] ⟨t, rfl⟩
    simp only [List.count_nil] at hFirst
    omega
  · -- a closing bracket in front of the comma counts once on the left and takes one level away
    intro s hs
    have hComma := h (c :: s) (List.cons_prefix_cons.mpr ⟨rfl, hs⟩)
    simp only [List.count_cons, beq_iff_eq] at hComma
    grind [level]

/-! ## The closing parenthesis -/

/-- The search for the closing parenthesis passes over a text that closes no more than is
open. -/
theorem Levels.closing?_append {depth last : Nat} {t : Text} (h : Levels '(' ')' depth t last)
    (rest : Text) : closing? depth (t ++ rest) =
      (closing? last rest).map fun split => (t ++ split.1, split.2) := by
  induction t generalizing depth with
  | nil =>
      rw [h.eq_of_nil]
      simp
  | cons c t ih =>
      obtain ⟨hGoesOn, hNext⟩ := h.step (by decide)
      rw [List.cons_append, closing?, if_neg hGoesOn]
      show (closing? (level '(' ')' depth c) (t ++ rest)).map _ = _
      rw [ih hNext, Option.map_map]
      rfl

end Text
end ArrayKernel
