import ArrayKernel.Text.Word

/-!
# Parameter substitution

Arguments take the place of the words that name a parameter.  Of two
parameters with one name the first counts.  A word that begins with a digit
names no parameter.
-/

namespace ArrayKernel

/-- A parameter stands in the text but the argument list is too short for it. -/
structure MissingArgument where
  /-- How many arguments there are. -/
  count : Nat
  /-- The place of the parameter in the parameter list. -/
  index : Nat
  deriving DecidableEq, Repr

namespace MissingArgument

/-- The wording of the failure. -/
def message (e : MissingArgument) : Text :=
  "index out of bounds: the len is " ++ Text.ofNat e.count ++ " but the index is " ++
    Text.ofNat e.index

end MissingArgument

namespace Text

/-- The place of the parameter that a word names. -/
def parameter? (params : List Text) (word : Text) : Option Nat :=
  if startsIdentifier word then params.idxOf? word else none

/-- What a word stands for: the argument of the parameter that it names, else itself. -/
def argument (params args : List Text) (word : Text) : Text :=
  match parameter? params word with
  | some k => args.getD k word
  | none => word

/-- A piece with its parameter replaced. -/
def Piece.fill (params args : List Text) : Piece → Text
  | .word w => argument params args w
  | .other c => [c]

/-- The text with every parameter that has an argument replaced by it. -/
def fill (params args : List Text) (t : Text) : Text :=
  (pieces t).flatMap (Piece.fill params args)

/-- The argument that a piece lacks. -/
def Piece.missing? (params args : List Text) : Piece → Option MissingArgument
  | .word w =>
    match parameter? params w with
    | some k => if args.length ≤ k then some ⟨args.length, k⟩ else none
    | none => none
  | .other _ => none

/-- The text with its parameters replaced by their arguments; fails at the first
parameter without an argument. -/
def substituteParams (params args : List Text) (t : Text) : Except MissingArgument Text :=
  match (pieces t).findSome? (Piece.missing? params args) with
  | some e => .error e
  | none => .ok (fill params args t)

theorem substituteParams_of_length_le {params args : List Text}
    (h : params.length ≤ args.length) (t : Text) :
    substituteParams params args t = .ok (fill params args t) := by
  have hNone : (pieces t).findSome? (Piece.missing? params args) = none := by
    rw [List.findSome?_eq_none_iff]
    intro p _
    cases p with
    | other c => rfl
    | word w =>
      simp only [Piece.missing?]
      split
      · next k hk =>
        have hk' : k < params.length := by
          unfold parameter? at hk
          split at hk
          · exact (List.idxOf?_eq_some_iff.mp hk).1
          · exact nomatch hk
        exact if_neg (by omega)
      · rfl
  simp only [substituteParams, hNone]

end Text

end ArrayKernel
