import ArrayKernel.Symbol.Name
import ArrayKernel.Text.Word

/-!
# Identifiers and numbered names

An identifier is a word that does not begin with a digit.  A name that is made
of a stem, a number and a suffix can be taken apart again, as long as the suffix
does not begin with a digit.  No assumption on the stem is needed for this.
-/

namespace ArrayKernel
namespace Text

/-- A letter or an underscore, then letters, digits and underscores. -/
def isIdentifier (t : Text) : Bool := startsIdentifier t && t.all isWordChar

/-- The letter `i` and digits, as in the parameters of access helpers. -/
def isAxisLike : Text → Bool
  | 'i' :: digits => digits.all Char.isDigit
  | _ => false

theorem isWordChar_of_isDigit {c : Char} (h : c.isDigit = true) : isWordChar c = true := by
  simp [isWordChar, Char.isAlphanum, h]

theorem all_isWordChar_of_isDigit {t : Text} (h : t.all Char.isDigit = true) :
    t.all isWordChar = true :=
  List.all_eq_true.mpr fun c hc => isWordChar_of_isDigit (List.all_eq_true.mp h c hc)

theorem isWordStart_of_isDigit {c : Char} (h : c.isDigit = true) : isWordStart c = false := by
  simp only [Char.isDigit, Bool.and_eq_true, decide_eq_true_eq] at h
  obtain ⟨hLow, hHigh⟩ := h
  have hUnderscore : c ≠ '_' := by
    rintro rfl
    exact absurd hHigh (by decide)
  unfold isWordStart Char.isAlpha Char.isUpper Char.isLower
  simp only [Bool.or_eq_false_iff,
    beq_eq_false_iff_ne, ne_eq, hUnderscore, not_false_iff, and_true, Bool.and_eq_false_iff,
    decide_eq_false_iff_not]
  constructor
  · rintro ⟨hUpper, -⟩
    exact absurd (UInt32.le_trans hUpper hHigh) (by decide)
  · left
    intro hLower
    exact absurd (UInt32.le_trans hLower hHigh) (by decide)

/-- A word is one piece. -/
theorem pieces_word {w : Text} (hw : w ≠ []) (hall : w.all isWordChar = true) :
    pieces w = [.word w] := by
  induction w with
  | nil => exact absurd rfl hw
  | cons c w ih =>
      obtain ⟨hc, hrest⟩ : isWordChar c = true ∧ w.all isWordChar = true := by
        simpa using hall
      rw [pieces, if_pos hc]
      cases w with
      | nil => rfl
      | cons d w => rw [ih (List.cons_ne_nil d w) hrest]

theorem ne_nil_of_isIdentifier {w : Text} (h : isIdentifier w = true) : w ≠ [] := by
  rintro rfl
  exact absurd h (by decide)

theorem startsIdentifier_of_isIdentifier {w : Text} (h : isIdentifier w = true) :
    startsIdentifier w = true :=
  (Bool.and_eq_true_iff.mp h).1

theorem all_isWordChar_of_isIdentifier {w : Text} (h : isIdentifier w = true) :
    w.all isWordChar = true :=
  (Bool.and_eq_true_iff.mp h).2

theorem pieces_identifier {w : Text} (h : isIdentifier w = true) : pieces w = [.word w] :=
  pieces_word (ne_nil_of_isIdentifier h) (all_isWordChar_of_isIdentifier h)

/-- An identifier with word characters behind it is an identifier. -/
theorem isIdentifier_append {w v : Text} (hw : isIdentifier w = true)
    (hv : v.all isWordChar = true) : isIdentifier (w ++ v) = true := by
  cases w with
  | nil => exact absurd rfl (ne_nil_of_isIdentifier hw)
  | cons c w =>
      have hAll := all_isWordChar_of_isIdentifier hw
      have hStart := startsIdentifier_of_isIdentifier hw
      simp only [isIdentifier, Bool.and_eq_true]
      refine ⟨hStart, ?_⟩
      rw [List.all_append, hAll, hv]
      rfl

/-! ## Decimal numerals -/

@[simp] theorem ofNat_ne_nil (n : Nat) : ofNat n ≠ [] := Nat.toDigits_ne_nil

theorem isDigit_of_mem_ofNat {n : Nat} {c : Char} (h : c ∈ ofNat n) : c.isDigit = true :=
  Nat.isDigit_of_mem_toDigits (by decide) (by decide) h

theorem all_isDigit_ofNat (n : Nat) : (ofNat n).all Char.isDigit = true :=
  List.all_eq_true.mpr fun _ hc => isDigit_of_mem_ofNat hc

theorem all_isWordChar_ofNat (n : Nat) : (ofNat n).all isWordChar = true :=
  all_isWordChar_of_isDigit (all_isDigit_ofNat n)

@[simp] theorem ofDigitChars_ofNat (n : Nat) : Nat.ofDigitChars 10 (ofNat n) 0 = n :=
  Nat.ofDigitChars_ten_toDigits

theorem ofNat_injective {m n : Nat} (h : ofNat m = ofNat n) : m = n := by
  rw [← ofDigitChars_ofNat m, h, ofDigitChars_ofNat]

@[simp] theorem pieces_ofNat (n : Nat) : pieces (ofNat n) = [.word (ofNat n)] :=
  pieces_word (ofNat_ne_nil n) (all_isWordChar_ofNat n)

/-- A numeral does not begin the way an identifier does. -/
@[simp] theorem startsIdentifier_ofNat (n : Nat) : startsIdentifier (ofNat n) = false := by
  cases h : ofNat n with
  | nil => exact absurd h (ofNat_ne_nil n)
  | cons c cs =>
      have hc : c.isDigit = true := isDigit_of_mem_ofNat (n := n) (by rw [h]; exact .head _)
      simpa [startsIdentifier] using isWordStart_of_isDigit hc

/-- The number in front of a suffix that does not begin with a digit. -/
theorem takeWhile_isDigit_ofNat_append (n : Nat) {suffix : Text}
    (h : suffix.head?.any Char.isDigit = false) :
    (ofNat n ++ suffix).takeWhile Char.isDigit = ofNat n := by
  rw [List.takeWhile_append_of_pos fun c hc => isDigit_of_mem_ofNat hc]
  cases suffix with
  | nil => simp
  | cons c suffix =>
      have hc : c.isDigit = false := by simpa using h
      simp [hc]

/-- A name made of a stem, a number and a suffix determines the number and the suffix. -/
theorem numbered_inj {stem suffix suffix' : Text} {m n : Nat}
    (hs : suffix.head?.any Char.isDigit = false) (hs' : suffix'.head?.any Char.isDigit = false)
    (h : stem ++ ofNat m ++ suffix = stem ++ ofNat n ++ suffix') :
    m = n ∧ suffix = suffix' := by
  rw [List.append_assoc, List.append_assoc] at h
  have hTail : ofNat m ++ suffix = ofNat n ++ suffix' := List.append_cancel_left h
  have hNumeral : ofNat m = ofNat n := by
    rw [← takeWhile_isDigit_ofNat_append m hs, hTail, takeWhile_isDigit_ofNat_append n hs']
  rw [hNumeral] at hTail
  exact ⟨ofNat_injective hNumeral, List.append_cancel_left hTail⟩

end Text
end ArrayKernel
