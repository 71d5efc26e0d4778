import ArrayKernel.Text.Parameter

/-!
# Helpers

A helper is a function-like definition that the kernel body calls: a name,
parameters and a body.  Helpers are ordered by name, then by parameters, then
by body; texts compare by code point.
-/

namespace ArrayKernel

/-- A function-like definition. -/
structure Helper where
  name : Text
  params : List Text
  body : Text
  deriving DecidableEq, Repr

namespace Helper

/-- The number of parameters. -/
def arity (h : Helper) : Nat := h.params.length

/-- The body with the parameters replaced by the arguments. -/
def apply (h : Helper) (args : List Text) : Except MissingArgument Text :=
  Text.substituteParams h.params args h.body

/-- The body with every parameter that has an argument replaced by it. -/
def fill (h : Helper) (args : List Text) : Text := Text.fill h.params args h.body

/-- The definition line, without the line end. -/
def definition (h : Helper) : Text :=
  "#define " ++ h.name ++ "(" ++ Text.join ", " h.params ++ ") " ++ h.body

theorem apply_of_length_eq {h : Helper} {args : List Text} (hArity : args.length = h.arity) :
    h.apply args = .ok (h.fill args) :=
  Text.substituteParams_of_length_le (Nat.le_of_eq hArity.symm) h.body

/-- Orders helpers by name, then by parameters, then by body. -/
def Before (a b : Helper) : Prop :=
  a.name < b.name ∨ a.name = b.name ∧
    (a.params < b.params ∨ a.params = b.params ∧ a.body < b.body)

instance (a b : Helper) : Decidable (a.Before b) :=
  inferInstanceAs (Decidable (_ ∨ _))

theorem Before.trans {a b c : Helper} (hab : a.Before b) (hbc : b.Before c) : a.Before c := by
  rcases hab with hab | ⟨hn, hab | ⟨hp, hab⟩⟩ <;> rcases hbc with hbc | ⟨hn', hbc | ⟨hp', hbc⟩⟩
  · exact .inl (List.lt_trans hab hbc)
  · exact .inl (hn' ▸ hab)
  · exact .inl (hn' ▸ hab)
  · exact .inl (hn ▸ hbc)
  · exact .inr ⟨hn.trans hn', .inl (List.lt_trans hab hbc)⟩
  · exact .inr ⟨hn.trans hn', .inl (hp' ▸ hab)⟩
  · exact .inl (hn ▸ hbc)
  · exact .inr ⟨hn.trans hn', .inl (hp ▸ hbc)⟩
  · exact .inr ⟨hn.trans hn', .inr ⟨hp.trans hp', List.lt_trans hab hbc⟩⟩

theorem Before.irrefl (a : Helper) : ¬ a.Before a := by
  rintro (h | ⟨-, h | ⟨-, h⟩⟩) <;> exact List.lt_irrefl _ h

theorem Before.not_name_lt {a b : Helper} (h : a.Before b) : ¬ b.name < a.name := by
  rcases h with hLt | ⟨hEq, -⟩
  · exact List.not_lt.mpr (List.le_of_lt hLt)
  · exact hEq ▸ List.lt_irrefl _

theorem Before.of_not_before {a b : Helper} (h : ¬ a.Before b) (hne : a ≠ b) : b.Before a := by
  have lt_of_ne {α : Type} [DecidableEq α] [LT α] [DecidableLT α]
      [Std.Trichotomous (fun x y : α => x < y)] {s t : List α} (hst : ¬ s < t) (hs : s ≠ t) :
      t < s :=
    Decidable.byContradiction fun hts =>
      hs (List.le_antisymm (List.not_lt.mp hts) (List.not_lt.mp hst))
  by_cases hn : a.name = b.name
  · by_cases hp : a.params = b.params
    · refine .inr ⟨hn.symm, .inr ⟨hp.symm, ?_⟩⟩
      refine lt_of_ne (fun hb => h (.inr ⟨hn, .inr ⟨hp, hb⟩⟩)) fun hb => hne ?_
      cases a
      cases b
      simp_all
    · exact .inr ⟨hn.symm, .inl (lt_of_ne (fun hb => h (.inr ⟨hn, .inl hb⟩)) hp)⟩
  · exact .inl (lt_of_ne (fun hb => h (.inl hb)) hn)

end Helper

end ArrayKernel
