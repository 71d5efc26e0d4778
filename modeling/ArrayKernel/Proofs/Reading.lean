import ArrayKernel.Index.Expr
import ArrayKernel.Proofs.Identifier

/-!
# Reading index expressions

The text of an index expression is read back the way C reads it.  Products,
quotients and remainders bind tighter than sums, operators that bind equally are
taken from left to right, and parentheses group.  A numeral is decimal and has no
leading zero, which would make it octal; a dollar sign and digits are a name.

Values are unbounded integers.  A quotient is truncated towards zero, and there is
none for a divisor of zero.

Reading recovers an expression from its text if it has groups where the reader
needs them; other expressions are read as something else, or not at all.
-/

namespace ArrayKernel
namespace IndexExpr

/-! ## The reader -/

/-- The operators that bind tighter than a sum. -/
inductive Factor where
  | times
  | quotient
  | remainder
  deriving DecidableEq, Repr

/-- What the reader sees of a text. -/
inductive Token where
  | operand (e : IndexExpr)
  | plus
  | factor (f : Factor)
  | opening
  | closing
  deriving DecidableEq, Repr

/-- What stands before an open parenthesis: the sum so far, and a factor that waits for
its right operand. -/
structure Frame where
  sum : Option IndexExpr
  pending : Option (IndexExpr × Factor)
  deriving DecidableEq, Repr

/-- The state of the reader, inside some open parentheses. -/
inductive Reader where
  /-- An operand comes next. -/
  | before (frames : List Frame) (sum : Option IndexExpr) (pending : Option (IndexExpr × Factor))
  /-- An operator, a closing parenthesis or the end comes next. -/
  | after (frames : List Frame) (sum : Option IndexExpr) (term : IndexExpr)
  deriving DecidableEq, Repr

/-- The operation of a factor. -/
def Factor.apply : Factor → IndexExpr → IndexExpr → IndexExpr
  | times => mul
  | quotient => div
  | remainder => mod

/-- The operand that a word stands for. -/
def ofWord? (w : Text) : Option IndexExpr :=
  if Text.startsIdentifier w then some (var w)
  else if Text.ofNat (Nat.ofDigitChars 10 w 0) = w then some (const (Nat.ofDigitChars 10 w 0))
  else none

/-- The operator or parenthesis that a character stands for. -/
def Token.ofChar? : Char → Option Token
  | '+' => some plus
  | '*' => some (factor .times)
  | '/' => some (factor .quotient)
  | '%' => some (factor .remainder)
  | '(' => some opening
  | ')' => some closing
  | _ => none

/-- The tokens of a text; spaces only separate. -/
def tokens? : List Text.Piece → Option (List Token)
  | [] => some []
  | .other ' ' :: ps => tokens? ps
  | .other '$' :: .word w :: ps =>
    if w.all Char.isDigit then (tokens? ps).map (.operand (var ('$' :: w)) :: ·) else none
  | .other c :: ps => (Token.ofChar? c).bind fun token => (tokens? ps).map (token :: ·)
  | .word w :: ps => (ofWord? w).bind fun e => (tokens? ps).map (.operand e :: ·)

/-- A waiting factor with its right operand, or the operand alone. -/
def complete (pending : Option (IndexExpr × Factor)) (e : IndexExpr) : IndexExpr :=
  match pending with
  | none => e
  | some (lhs, f) => f.apply lhs e

/-- The sum so far with one more term. -/
def total (sum : Option IndexExpr) (term : IndexExpr) : IndexExpr :=
  match sum with
  | none => term
  | some lhs => add lhs term

/-- Reads one token. -/
def Reader.step : Reader → Token → Option Reader
  | before frames sum pending, .operand e => some (after frames sum (complete pending e))
  | before frames sum pending, .opening => some (before (⟨sum, pending⟩ :: frames) none none)
  | after frames sum term, .plus => some (before frames (some (total sum term)) none)
  | after frames sum term, .factor f => some (before frames sum (some (term, f)))
  | after (frame :: frames) sum term, .closing =>
    some (after frames frame.sum (complete frame.pending (group (total sum term))))
  | _, _ => none

/-- The expression that has been read, if it is complete. -/
def Reader.result? : Reader → Option IndexExpr
  | after [] sum term => some (total sum term)
  | _ => none

/-- The expression that a text stands for. -/
def read? (t : Text) : Option IndexExpr :=
  (tokens? (Text.pieces t)).bind fun tokens =>
    (tokens.foldlM Reader.step (.before [] none none)).bind Reader.result?

/-- The value of an expression, given the values of names. -/
def value? (env : Text → Option Int) : IndexExpr → Option Int
  | const n => some n
  | var name => env name
  | group e => e.value? env
  | add a b => (a.value? env).bind fun x => (b.value? env).map (x + ·)
  | mul a b => (a.value? env).bind fun x => (b.value? env).map (x * ·)
  | div a b =>
    (a.value? env).bind fun x => (b.value? env).bind fun y =>
      if y = 0 then none else some (x.tdiv y)
  | mod a b =>
    (a.value? env).bind fun x => (b.value? env).bind fun y =>
      if y = 0 then none else some (x.tmod y)

/-! ## Expressions that are read back -/

/-- An identifier, or a dollar sign and digits. -/
def isName : Text → Bool
  | '$' :: digits => !digits.isEmpty && digits.all Char.isDigit
  | name => Text.isIdentifier name

/-- Constants, variables and groups. -/
def isOperand : IndexExpr → Bool
  | const _ | var _ | group _ => true
  | _ => false

/-- All expressions but sums. -/
def isProduct : IndexExpr → Bool
  | add .. => false
  | _ => true

/-- Whether groups stand where the reader needs them. -/
def isReadable : IndexExpr → Bool
  | const _ => true
  | var name => isName name
  | group e => e.isReadable
  | add a b => a.isReadable && b.isReadable && b.isProduct
  | mul a b | div a b | mod a b => a.isReadable && b.isReadable && a.isProduct && b.isOperand

/-- The tokens of the text of an expression. -/
def tokens : IndexExpr → List Token
  | const n => [.operand (const n)]
  | var name => [.operand (var name)]
  | group e => .opening :: (e.tokens ++ [.closing])
  | add a b => a.tokens ++ .plus :: b.tokens
  | mul a b => a.tokens ++ .factor .times :: b.tokens
  | div a b => a.tokens ++ .factor .quotient :: b.tokens
  | mod a b => a.tokens ++ .factor .remainder :: b.tokens

/-! ## The tokens of a text -/

/-- Constants and names are read as themselves, whatever follows. -/
theorem tokens?_pieces_name {name : Text} (h : isName name = true) (ps : List Text.Piece) :
    tokens? (Text.pieces name ++ ps) = (tokens? ps).map (.operand (var name) :: ·) := by
  unfold isName at h
  split at h
  · next digits =>
    obtain ⟨hne, hall⟩ : digits ≠ [] ∧ digits.all Char.isDigit = true := by
      simpa using h
    have hWord : digits.all Text.isWordChar = true :=
      List.all_eq_true.mpr fun c hc =>
        Text.isWordChar_of_isDigit (List.all_eq_true.mp hall c hc)
    have hPieces : Text.pieces ('$' :: digits) = [.other '$', .word digits] := by
      rw [Text.pieces_cons_other (by decide), Text.pieces_word hne hWord]
    rw [hPieces]
    simp only [List.cons_append, List.nil_append, tokens?, hall, if_true]
  · rw [Text.pieces_identifier h]
    simp only [List.cons_append, List.nil_append, tokens?, ofWord?,
      Text.startsIdentifier_of_isIdentifier h, if_true, Option.bind_some]

theorem tokens?_pieces_const (n : Nat) (ps : List Text.Piece) :
    tokens? (Text.pieces (Text.ofNat n) ++ ps) = (tokens? ps).map (.operand (const n) :: ·) := by
  rw [Text.pieces_ofNat]
  simp only [List.cons_append, List.nil_append, tokens?, ofWord?, Text.startsIdentifier_ofNat,
    Text.ofDigitChars_ofNat, Bool.false_eq_true, if_false, if_true, Option.bind_some]

/-- A character between two texts that belongs to no word is a piece between their
pieces. -/
theorem pieces_between (s t : Text) {c : Char} (hc : Text.isWordChar c = false) :
    Text.pieces (s ++ c :: t) = Text.pieces s ++ .other c :: Text.pieces t := by
  rw [Text.pieces_append (by simpa using hc), Text.pieces_cons_other hc]

theorem pieces_text_group (e : IndexExpr) :
    Text.pieces (group e).text = .other '(' :: (Text.pieces e.text ++ [.other ')']) := by
  show Text.pieces ('(' :: (e.text ++ ')' :: [])) = _
  rw [Text.pieces_cons_other (by decide), pieces_between _ _ (by decide)]
  rfl

theorem pieces_text_add (a b : IndexExpr) :
    Text.pieces (add a b).text = Text.pieces a.text ++
      .other ' ' :: .other '+' :: .other ' ' :: Text.pieces b.text := by
  show Text.pieces (a.text ++ " + ".toList ++ b.text) = _
  rw [List.append_assoc]
  show Text.pieces (a.text ++ ' ' :: '+' :: ' ' :: b.text) = _
  rw [pieces_between _ _ (by decide), Text.pieces_cons_other (by decide),
    Text.pieces_cons_other (by decide)]

/-- The sign of a factor. -/
def Factor.sign : Factor → Char
  | times => '*'
  | quotient => '/'
  | remainder => '%'

theorem text_factor (f : Factor) (a b : IndexExpr) :
    (f.apply a b).text = a.text ++ f.sign :: b.text := by
  cases f <;> exact List.append_assoc ..

theorem pieces_text_factor (f : Factor) (a b : IndexExpr) :
    Text.pieces (f.apply a b).text =
      Text.pieces a.text ++ .other f.sign :: Text.pieces b.text := by
  rw [text_factor]
  exact pieces_between _ _ (by cases f <;> decide)

theorem tokens?_other_sign (f : Factor) (ps : List Text.Piece) :
    tokens? (.other f.sign :: ps) = (tokens? ps).map (.factor f :: ·) := by
  cases f <;> simp [tokens?, Factor.sign, Token.ofChar?]

theorem tokens?_factor {f : Factor} {a b : IndexExpr}
    (ha : ∀ ps, tokens? (Text.pieces a.text ++ ps) = (tokens? ps).map (a.tokens ++ ·))
    (hb : ∀ ps, tokens? (Text.pieces b.text ++ ps) = (tokens? ps).map (b.tokens ++ ·))
    (ps : List Text.Piece) :
    tokens? (Text.pieces (f.apply a b).text ++ ps) =
      (tokens? ps).map ((a.tokens ++ .factor f :: b.tokens) ++ ·) := by
  rw [pieces_text_factor, List.append_assoc, ha, List.cons_append, tokens?_other_sign, hb]
  simp [Function.comp_def]

/-- The text of an expression is read as its tokens, whatever follows. -/
theorem tokens?_pieces_text {e : IndexExpr} (h : e.isReadable = true) (ps : List Text.Piece) :
    tokens? (Text.pieces e.text ++ ps) = (tokens? ps).map (e.tokens ++ ·) := by
  induction e generalizing ps with
  | const n => exact tokens?_pieces_const n ps
  | var name => exact tokens?_pieces_name h ps
  | group e ih =>
      rw [pieces_text_group]
      simp [tokens?, Token.ofChar?, ih h, tokens, Function.comp_def]
  | add a b iha ihb =>
      simp only [isReadable, Bool.and_eq_true] at h
      rw [pieces_text_add]
      simp [tokens?, Token.ofChar?, iha h.1.1, ihb h.1.2, tokens, Function.comp_def]
  | mul a b iha ihb =>
      simp only [isReadable, Bool.and_eq_true] at h
      exact tokens?_factor (f := .times) (iha h.1.1.1) (ihb h.1.1.2) ps
  | div a b iha ihb =>
      simp only [isReadable, Bool.and_eq_true] at h
      exact tokens?_factor (f := .quotient) (iha h.1.1.1) (ihb h.1.1.2) ps
  | mod a b iha ihb =>
      simp only [isReadable, Bool.and_eq_true] at h
      exact tokens?_factor (f := .remainder) (iha h.1.1.1) (ihb h.1.1.2) ps

/-! ## The run over the tokens of an expression -/

/-- What the reader makes of the tokens of an expression.  An operand completes a waiting
factor; a product starts behind a sum; a sum starts in a place of its own, and its last
term may still be a factor of what follows. -/
structure Reads (e : IndexExpr) : Prop where
  operand : e.isOperand = true → ∀ frames sum pending,
    e.tokens.foldlM Reader.step (.before frames sum pending) =
      some (.after frames sum (complete pending e))
  product : e.isProduct = true → ∀ frames sum,
    e.tokens.foldlM Reader.step (.before frames sum none) = some (.after frames sum e)
  sum : ∀ frames, ∃ sum term, total sum term = e ∧
    e.tokens.foldlM Reader.step (.before frames none none) = some (.after frames sum term)

/-- For an operand, the first rule gives the others. -/
theorem Reads.of_operand {e : IndexExpr}
    (h : ∀ frames sum pending, e.tokens.foldlM Reader.step (.before frames sum pending) =
      some (.after frames sum (complete pending e))) : Reads e where
  operand _ := h
  product _ frames sum := h frames sum none
  sum frames := ⟨none, e, rfl, h frames none none⟩

theorem Reads.run_factor {f : Factor} {a b : IndexExpr} (ha : Reads a) (hb : Reads b)
    (hProduct : a.isProduct = true) (hOperand : b.isOperand = true) :
    ∀ frames sum,
      (a.tokens ++ .factor f :: b.tokens).foldlM Reader.step (.before frames sum none) =
        some (.after frames sum (f.apply a b)) := by
  intro frames sum
  rw [List.foldlM_append, ha.product hProduct]
  exact hb.operand hOperand frames sum (some (a, f))

theorem Reads.of_product {e : IndexExpr} (hNot : e.isOperand = false)
    (h : ∀ frames sum, e.tokens.foldlM Reader.step (.before frames sum none) =
      some (.after frames sum e)) : Reads e where
  operand hOperand := by simp [hNot] at hOperand
  product _ := h
  sum frames := ⟨none, e, rfl, h frames none⟩

theorem reads_of_isReadable {e : IndexExpr} (h : e.isReadable = true) : Reads e := by
  induction e with
  | const n => exact .of_operand fun _ _ _ => rfl
  | var name => exact .of_operand fun _ _ _ => rfl
  | group e ih =>
      -- the parenthesis puts the sum and the waiting factor aside, and its partner
      -- takes them up again
      refine .of_operand fun frames sum pending => ?_
      obtain ⟨inner, term, hTotal, hRun⟩ := (ih h).sum (⟨sum, pending⟩ :: frames)
      show (e.tokens ++ [Token.closing]).foldlM Reader.step
        (.before (⟨sum, pending⟩ :: frames) none none) = _
      rw [List.foldlM_append, hRun, ← hTotal]
      rfl
  | add a b iha ihb =>
      simp only [isReadable, Bool.and_eq_true] at h
      refine ⟨(nomatch ·), (nomatch ·), fun frames => ?_⟩
      obtain ⟨left, term, hTotal, hRun⟩ := (iha h.1.1).sum frames
      refine ⟨some a, b, rfl, ?_⟩
      show (a.tokens ++ Token.plus :: b.tokens).foldlM Reader.step (.before frames none none) = _
      rw [List.foldlM_append, hRun, ← hTotal]
      exact (ihb h.1.2).product h.2 frames (some (total left term))
  | mul a b iha ihb =>
      simp only [isReadable, Bool.and_eq_true] at h
      exact .of_product rfl ((iha h.1.1.1).run_factor (f := .times) (ihb h.1.1.2) h.1.2 h.2)
  | div a b iha ihb =>
      simp only [isReadable, Bool.and_eq_true] at h
      exact .of_product rfl ((iha h.1.1.1).run_factor (f := .quotient) (ihb h.1.1.2) h.1.2 h.2)
  | mod a b iha ihb =>
      simp only [isReadable, Bool.and_eq_true] at h
      exact .of_product rfl ((iha h.1.1.1).run_factor (f := .remainder) (ihb h.1.1.2) h.1.2 h.2)

/-- Reading recovers an expression from its text. -/
theorem read?_text {e : IndexExpr} (h : e.isReadable = true) : read? e.text = some e := by
  have hTokens : tokens? (Text.pieces e.text) = some e.tokens := by
    have hAll := tokens?_pieces_text h []
    simpa [tokens?] using hAll
  obtain ⟨sum, term, hTotal, hRun⟩ := (reads_of_isReadable h).sum []
  simp only [read?, hTokens, hRun, Option.bind_some, Reader.result?, hTotal]

example : (read? "a + b*2/c%(d + 1)").bind (value? fun _ => some 7) = some 9 := by decide +kernel

end IndexExpr
end ArrayKernel
