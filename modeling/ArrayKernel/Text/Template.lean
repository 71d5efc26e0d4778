import ArrayKernel.Text.Word

/-!
# Attribute templates

In a template, `#` before an identifier stands for an attribute.  The longest
non-empty start of the identifier that names an attribute gives way to the
value, and the rest of the identifier stays as written.  A `#` before anything
else stays too.  Values are not scanned again.
-/

namespace ArrayKernel

/-- Named texts; of two entries with one name the first counts. -/
abbrev Attributes := List (Text × Text)

namespace Attributes

/-- The value of an attribute. -/
def get? (attributes : Attributes) (name : Text) : Option Text :=
  List.lookup name attributes

/-- Resolves the longest start of a word that names an attribute and has at most
the given number of characters: its value, then the rest of the word. -/
def resolve? (attributes : Attributes) (word : Text) : Nat → Option Text
  | 0 => none
  | n + 1 =>
    match attributes.get? (word.take (n + 1)) with
    | some value => some (value ++ word.drop (n + 1))
    | none => resolve? attributes word n

/-- What `#` and the word behind it stand for. -/
def token (attributes : Attributes) (word : Text) : Text :=
  if Text.startsIdentifier word then
    (attributes.resolve? word word.length).getD ('#' :: word)
  else
    '#' :: word

/-- The pieces with every `#` before a word resolved. -/
def substitutePieces (attributes : Attributes) : List Text.Piece → Text
  | [] => []
  | .other '#' :: .word w :: ps => attributes.token w ++ substitutePieces attributes ps
  | .other c :: ps => c :: substitutePieces attributes ps
  | .word w :: ps => w ++ substitutePieces attributes ps

/-- The template with its attributes filled in. -/
def substitute (attributes : Attributes) (template : Text) : Text :=
  attributes.substitutePieces (Text.pieces template)

end Attributes

end ArrayKernel
