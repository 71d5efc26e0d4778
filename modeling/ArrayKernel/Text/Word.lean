import ArrayKernel.Text.Basic

/-!
# Words

A word is a maximal run of ASCII letters, digits and underscores.  `pieces`
cuts a text into its words and the single characters between them; templates
and parameter substitution both work on pieces, so that a name is replaced only
where it stands as a whole word.
-/

namespace ArrayKernel
namespace Text

/-- A letter, a digit or an underscore. -/
def isWordChar (c : Char) : Bool := c.isAlphanum || c == '_'

/-- A letter or an underscore. -/
def isWordStart (c : Char) : Bool := c.isAlpha || c == '_'

/-- The longest identifier at the start of a text, empty if it starts with none. -/
def leadingIdentifier : Text → Text
  | [] => []
  | c :: cs => if isWordStart c then c :: cs.takeWhile isWordChar else []

/-- Whether the text begins the way an identifier does. -/
def startsIdentifier (t : Text) : Bool := t.head?.any isWordStart

/-- Whether the last character belongs to a word. -/
def endsInWord (t : Text) : Bool := t.getLast?.any isWordChar

/-- A word, or one character that belongs to no word. -/
inductive Piece where
  | word (w : Text)
  | other (c : Char)
  deriving DecidableEq, Repr

/-- The characters of a piece. -/
def Piece.text : Piece → Text
  | .word w => w
  | .other c => [c]

/-- The words of a text and the characters between them, in order. -/
def pieces : Text → List Piece
  | [] => []
  | c :: cs =>
    if isWordChar c then
      match pieces cs with
      | .word w :: ps => .word (c :: w) :: ps
      | ps => .word [c] :: ps
    else
      .other c :: pieces cs

theorem isWordChar_of_isWordStart {c : Char} (h : isWordStart c = true) :
    isWordChar c = true := by
  simp only [isWordStart, isWordChar, Char.isAlphanum, Bool.or_eq_true] at h ⊢
  rcases h with h | h
  · exact .inl (.inl h)
  · exact .inr h

@[simp] theorem flatMap_text_pieces (t : Text) : (pieces t).flatMap Piece.text = t := by
  induction t with
  | nil => rfl
  | cons c cs ih =>
    rw [pieces]
    split
    · split
      · next w ps h =>
        rw [h] at ih
        simpa [Piece.text] using ih
      · simpa [Piece.text] using ih
    · simpa [Piece.text] using ih

theorem pieces_cons_other {c : Char} (h : isWordChar c = false) (t : Text) :
    pieces (c :: t) = .other c :: pieces t := by
  simp [pieces, h]

theorem pieces_ne_word {t : Text} (h : t.head?.any isWordChar = false) (w : Text)
    (ps : List Piece) : pieces t ≠ .word w :: ps := by
  cases t with
  | nil => simp [pieces]
  | cons c t =>
    have hc : isWordChar c = false := by simpa using h
    simp [pieces_cons_other hc]

/-- A text is cut where no word goes on. -/
theorem pieces_append {s t : Text} (h : t.head?.any isWordChar = false) :
    pieces (s ++ t) = pieces s ++ pieces t := by
  induction s with
  | nil => rfl
  | cons c s ih =>
    rw [List.cons_append, pieces, pieces, ih]
    split
    · cases hs : pieces s with
      | nil =>
        cases ht : pieces t with
        | nil => rfl
        | cons p ps =>
          cases p with
          | word w => exact absurd ht (pieces_ne_word h w ps)
          | other d => rfl
      | cons p ps => cases p <;> rfl
    · rfl

end Text
end ArrayKernel
