import ArrayKernel.Symbol.Form
import ArrayKernel.Proofs.Expansion

/-!
# Calls in composed texts

A call passes the arguments between its parenthesis and the one that closes it.  A
text whose brackets are closed and whose commas stand inside brackets can be an
operand: the calls in it pass the same arguments wherever it is put, and it is one
argument of a call around it.  Operators written around such texts add the call of
their own function at most.

A text with a bracket or a comma of its own is NOT such an operand in general: the
call around it may end early or pass more arguments.
-/

namespace ArrayKernel

namespace Text

/-- The number of arguments before the parenthesis that closes a call, if one does. -/
def argumentCount? (behind : Text) : Option Nat :=
  (closing? 0 behind).map fun split => (splitArguments split.1).length

/-- Every call in a text is closed, and passes a number of arguments that is wanted for
the name that it calls. -/
def CallsAnswered (wanted : Text → Nat → Prop) (t : Text) : Prop :=
  ∀ call ∈ callSites (pieces t), ∃ count, argumentCount? call.2 = some count ∧ wanted call.1 count

/-- A text that can be an operand, with calls that pass what is wanted. -/
structure WellCalled (wanted : Text → Nat → Prop) (t : Text) : Prop where
  sealed : Sealed t
  answered : CallsAnswered wanted t

/-! ## Texts behind a call -/

/-- What is closed stays closed by the same parenthesis when the text goes on. -/
theorem closing?_append_right {t inside after : Text} {depth : Nat}
    (h : closing? depth t = some (inside, after)) (rest : Text) :
    closing? depth (t ++ rest) = some (inside, after ++ rest) := by
  induction t generalizing depth inside with
  | nil => exact nomatch h
  | cons c t ih =>
      rw [List.cons_append]
      rw [closing?] at h ⊢
      split at h
      · next hc =>
        cases h
        rw [if_pos hc]
      · next hc =>
        obtain ⟨⟨further, behind⟩, hFurther, hEq⟩ := Option.map_eq_some_iff.mp h
        cases hEq
        rw [if_neg hc]
        dsimp only
        rw [ih hFurther]
        rfl

theorem argumentCount?_append {t : Text} {count : Nat} (h : argumentCount? t = some count)
    (rest : Text) : argumentCount? (t ++ rest) = some count := by
  obtain ⟨⟨inside, after⟩, hClosing, hCount⟩ := Option.map_eq_some_iff.mp h
  unfold argumentCount?
  rw [closing?_append_right hClosing]
  exact congrArg some hCount

/-- As many arguments are passed as there are texts in the list, where a single one is
not blank. -/
theorem length_splitArguments_join {ts : List Text} (hSealed : ∀ t ∈ ts, Sealed t)
    (hNot : ∀ t, ts = [t] → trim t ≠ []) :
    (splitArguments (join ", " ts)).length = ts.length := by
  by_cases hEmpty : ts = []
  · subst hEmpty
    rfl
  · have hParts := areParts_of_isSegment hEmpty fun t ht => (hSealed t ht).isSegment
    have hGiven : ts.map trim ≠ [[]] := by
      intro hBlank
      obtain ⟨t, rfl, hTrim⟩ := List.map_eq_singleton_iff.mp hBlank
      exact hNot t rfl hTrim
    rw [hParts.splitArguments_join_space, if_neg hGiven, List.length_map]

theorem argumentCount?_join {ts : List Text} (hSealed : ∀ t ∈ ts, Sealed t) (after : Text) :
    argumentCount? (join ", " ts ++ ')' :: after) =
      some (splitArguments (join ", " ts)).length := by
  have hBracketed := bracketed_join fun t ht => (hSealed t ht).bracketed
  unfold argumentCount?
  rw [hBracketed.closing?_eq_some]
  rfl

/-! ## Putting texts together -/

namespace CallsAnswered

variable {wanted : Text → Nat → Prop} {s t : Text} {c : Char}

theorem of_callSites_eq_nil (h : callSites (pieces t) = []) : CallsAnswered wanted t := by
  intro call hCall
  rw [h] at hCall
  exact absurd hCall List.not_mem_nil

/-- A character outside words begins no call, and ends none but by a parenthesis. -/
theorem cons_other (hc : isWordChar c = false) (ht : CallsAnswered wanted t) :
    CallsAnswered wanted (c :: t) := by
  intro call hCall
  rw [pieces_cons_other hc, callSites_cons_other] at hCall
  exact ht call hCall

theorem append_other (hc : isWordChar c = false) (hOpen : c ≠ '(')
    (hs : CallsAnswered wanted s) (ht : CallsAnswered wanted t) :
    CallsAnswered wanted (s ++ c :: t) := by
  have hPieces : pieces (s ++ c :: t) = pieces s ++ .other c :: pieces t := by
    rw [pieces_append (by simpa using hc), pieces_cons_other hc]
  intro call hCall
  rw [hPieces, callSites_append_other hOpen] at hCall
  rcases List.mem_append.mp hCall with hLeft | hRight
  · -- the text behind a call on the left goes on, which changes nothing once it is closed
    obtain ⟨inner, hInner, rfl⟩ := List.mem_map.mp hLeft
    obtain ⟨count, hCount, hWanted⟩ := hs inner hInner
    exact ⟨count, argumentCount?_append hCount _, hWanted⟩
  · exact ht call hRight

/-- A name before a parenthesis is one more call. -/
theorem call {name : Text} {count : Nat} (hName : isIdentifier name = true)
    (hCount : argumentCount? t = some count) (hWanted : wanted name count)
    (ht : CallsAnswered wanted t) : CallsAnswered wanted (name ++ '(' :: t) := by
  have hPieces : pieces (name ++ '(' :: t) = .word name :: .other '(' :: pieces t := by
    rw [pieces_append (by exact rfl), pieces_identifier hName, pieces_cons_other (by decide)]
    rfl
  intro site hSite
  rw [hPieces, callSites, flatMap_text_pieces] at hSite
  rcases List.mem_cons.mp hSite with rfl | hInner
  · exact ⟨count, hCount, hWanted⟩
  · exact ht site hInner

theorem of_all_isPlainChar (h : t.all isPlainChar = true) : CallsAnswered wanted t := by
  refine of_callSites_eq_nil ?_
  have hNot : .other '(' ∉ pieces t := by
    intro hMem
    have hText : '(' ∈ (pieces t).flatMap Piece.text :=
      List.mem_flatMap.mpr ⟨_, hMem, List.mem_singleton.mpr rfl⟩
    rw [flatMap_text_pieces] at hText
    exact absurd (List.all_eq_true.mp h _ hText) (by decide)
  generalize pieces t = ps at hNot
  fun_induction callSites ps with
  | case1 w ps ih => exact absurd (List.mem_cons_of_mem _ List.mem_cons_self) hNot
  | case2 p ps _ ih => exact ih fun hMem => hNot (.tail _ hMem)
  | case3 => rfl

theorem join {ts : List Text} (h : ∀ t ∈ ts, CallsAnswered wanted t) :
    CallsAnswered wanted (Text.join ", " ts) := by
  induction ts with
  | nil => exact of_callSites_eq_nil rfl
  | cons t ts ih =>
      cases ts with
      | nil => exact h t (.head _)
      | cons u ts =>
          have hRest := ih fun v hv => h v (.tail _ hv)
          have hText : Text.join ", " (t :: u :: ts) =
              t ++ ',' :: ' ' :: Text.join ", " (u :: ts) := by
            simp
          rw [hText]
          exact append_other (by decide) (by decide) (h t (.head _))
            (cons_other (by decide) hRest)

end CallsAnswered

/-- A character that belongs to no word and is no bracket and no comma. -/
def isSign (c : Char) : Bool := isPlainChar c && !isWordChar c

theorem isPlainChar_of_isSign {c : Char} (h : isSign c = true) : isPlainChar c = true := by
  simp only [isSign, Bool.and_eq_true] at h
  exact h.1

theorem isWordChar_of_isSign {c : Char} (h : isSign c = true) : isWordChar c = false := by
  simpa using (Bool.and_eq_true_iff.mp h).2

/-- A sign that is no blank. -/
def isMark (c : Char) : Bool := isSign c && !isBlank c

theorem all_isSign_of_isMark {t : Text} (h : t.all isMark = true) : t.all isSign = true := by
  refine List.all_eq_true.mpr fun c hc => ?_
  exact (Bool.and_eq_true_iff.mp (List.all_eq_true.mp h c hc)).1

theorem all_isPlainChar_of_isSign {t : Text} (h : t.all isSign = true) :
    t.all isPlainChar = true :=
  List.all_eq_true.mpr fun c hc => isPlainChar_of_isSign (List.all_eq_true.mp h c hc)

namespace WellCalled

variable {wanted : Text → Nat → Prop} {s t : Text}

theorem of_all_isPlainChar (h : t.all isPlainChar = true) : WellCalled wanted t :=
  ⟨sealed_of_all_isPlainChar h, .of_all_isPlainChar h⟩

theorem of_isIdentifier (h : isIdentifier t = true) : WellCalled wanted t := by
  refine of_all_isPlainChar (List.all_eq_true.mpr fun c hc => ?_)
  exact isPlainChar_of_isWordChar (List.all_eq_true.mp (all_isWordChar_of_isIdentifier h) c hc)

/-- Operands in parentheses, with commas between them. -/
theorem list {ts : List Text} (h : ∀ t ∈ ts, WellCalled wanted t) :
    WellCalled wanted ("(" ++ join ", " ts ++ ")") := by
  have hText : "(" ++ join ", " ts ++ ")" = '(' :: (join ", " ts ++ ')' :: []) := by simp
  have hBracketed := bracketed_join fun t ht => (h t ht).sealed.bracketed
  rw [hText]
  refine ⟨hBracketed.parenthesized, .cons_other (by decide) ?_⟩
  exact .append_other (by decide) (by decide) (.join fun t ht => (h t ht).answered)
    (.of_callSites_eq_nil rfl)

theorem parenthesized (h : WellCalled wanted t) : WellCalled wanted ("(" ++ t ++ ")") := by
  have hOne : ∀ u ∈ [t], WellCalled wanted u := by
    intro u hu
    rw [List.mem_singleton.mp hu]
    exact h
  exact list hOne

/-- Two texts with a symbol between them. -/
theorem between (hs : WellCalled wanted s) (ht : WellCalled wanted t) {symbol : Text}
    (hSymbol : symbol.all isPlainChar = true) :
    WellCalled wanted (s ++ " " ++ symbol ++ " " ++ t) := by
  have hText : s ++ " " ++ symbol ++ " " ++ t = s ++ ' ' :: (symbol ++ ' ' :: t) := by simp
  have hBlank : Sealed [' '] := by decide
  have hMiddle := sealed_of_all_isPlainChar hSymbol
  rw [hText]
  refine ⟨?_, ?_⟩
  · exact hs.sealed.append (hBlank.append (hMiddle.append (hBlank.append ht.sealed)))
  · exact .append_other (by decide) (by decide) hs.answered
      (.append_other (by decide) (by decide) (.of_all_isPlainChar hSymbol) ht.answered)

/-- A call whose arguments are operands. -/
theorem call {name : Text} (hName : isIdentifier name = true) {args : List Text}
    (hArgs : ∀ arg ∈ args, WellCalled wanted arg)
    (hWanted : wanted name (splitArguments (join ", " args)).length) :
    WellCalled wanted (name ++ ("(" ++ join ", " args ++ ")")) := by
  have hText : name ++ ("(" ++ join ", " args ++ ")") =
      name ++ '(' :: (join ", " args ++ ')' :: []) := by simp
  have hFunction : WellCalled wanted name := of_isIdentifier hName
  have hCount := argumentCount?_join (fun arg hArg => (hArgs arg hArg).sealed) []
  refine ⟨hFunction.sealed.append (list hArgs).sealed, ?_⟩
  rw [hText]
  refine .call hName hCount hWanted ?_
  exact .append_other (by decide) (by decide) (.join fun arg hArg => (hArgs arg hArg).answered)
    (.of_callSites_eq_nil rfl)

/-- Signs in front of an operand. -/
theorem signed {symbol : Text} (hSymbol : symbol.all isSign = true) (h : WellCalled wanted t) :
    WellCalled wanted (symbol ++ t) := by
  induction symbol with
  | nil => exact h
  | cons c symbol ih =>
      obtain ⟨hc, hRest⟩ : isSign c = true ∧ symbol.all isSign = true := by simpa using hSymbol
      have hPlain : [c].all isPlainChar = true := by simp [isPlainChar_of_isSign hc]
      have hFurther := ih hRest
      exact ⟨(sealed_of_all_isPlainChar hPlain).append hFurther.sealed,
        .cons_other (isWordChar_of_isSign hc) hFurther.answered⟩

/-- A type in parentheses in front of an operand. -/
theorem converted {type : Text} (hType : type.all isPlainChar = true) (h : WellCalled wanted t) :
    WellCalled wanted ("(" ++ type ++ ")(" ++ t ++ ")") := by
  have hTyped : WellCalled wanted type := of_all_isPlainChar hType
  have hText : "(" ++ type ++ ")(" ++ t ++ ")" = ("(" ++ type ++ ")") ++ ("(" ++ t ++ ")") := by
    simp
  have hChars : "(" ++ type ++ ")(" ++ t ++ ")" =
      '(' :: (type ++ ')' :: '(' :: (t ++ ')' :: [])) := by simp
  refine ⟨?_, ?_⟩
  · rw [hText]
    exact hTyped.parenthesized.sealed.append h.parenthesized.sealed
  · -- the second parenthesis follows the first one, so no word stands before it
    rw [hChars]
    exact .cons_other (by decide) (.append_other (by decide) (by decide) hTyped.answered
      (.cons_other (by decide) (.append_other (by decide) (by decide) h.answered
        (.of_callSites_eq_nil rfl))))

end WellCalled

end Text

/-! ## Texts of operators -/

/-- The name is formed as that of an access helper. -/
def isAccessName (name : Text) : Bool := "_at".toList.isSuffixOf name

/-- The name is formed as that of a combining helper. -/
def isCombiningName (name : Text) : Bool := "reduce_".toList.isPrefixOf name

/-- The name is an identifier that is not formed as that of a helper. -/
def isFunctionName (name : Text) : Bool :=
  Text.isIdentifier name && !isAccessName name && !isCombiningName name

namespace Form

/-- What a form writes around its operands calls nothing, its own function apart. -/
def Admits (wanted : Text → Nat → Prop) : Form → Prop
  | between symbol | leading symbol | select symbol => symbol.all Text.isSign = true
  | call function => Text.isIdentifier function = true ∧ ∀ count, wanted function count
  | cast type => type.all Text.isPlainChar = true

variable {wanted : Text → Nat → Prop} {form : Form} {lhs rhs operand : Text}

theorem wellCalled_binaryText (hForm : form.Admits wanted) (hLhs : Text.WellCalled wanted lhs)
    (hRhs : Text.WellCalled wanted rhs) : Text.WellCalled wanted (form.binaryText lhs rhs) := by
  have hBoth : ∀ t ∈ [lhs, rhs], Text.WellCalled wanted t := by
    intro t ht
    rcases List.mem_cons.mp ht with rfl | ht
    · exact hLhs
    · rw [List.mem_singleton.mp ht]
      exact hRhs
  have hList (head : Text) : head ++ "(" ++ lhs ++ ", " ++ rhs ++ ")" =
      head ++ ("(" ++ Text.join ", " [lhs, rhs] ++ ")") := by
    simp
  cases form with
  | between symbol => exact hLhs.between hRhs (Text.all_isPlainChar_of_isSign hForm)
  | call function =>
      show Text.WellCalled wanted (function ++ "(" ++ lhs ++ ", " ++ rhs ++ ")")
      rw [hList]
      exact .call hForm.1 hBoth (hForm.2 _)
  | leading symbol =>
      show Text.WellCalled wanted (symbol ++ "(" ++ lhs ++ ", " ++ rhs ++ ")")
      rw [hList]
      exact (Text.WellCalled.list hBoth).signed hForm
  | cast type => exact hLhs.converted hForm
  | select comparison =>
      have hTest := hLhs.parenthesized.between hRhs.parenthesized
        (Text.all_isPlainChar_of_isSign hForm)
      have hColon : (":" : Text).all Text.isPlainChar = true := by decide
      have hChoices := hLhs.parenthesized.between hRhs.parenthesized hColon
      have hMark : ("?" : Text).all Text.isPlainChar = true := by decide
      have hWhole := (hTest.between hChoices hMark).parenthesized
      show Text.WellCalled wanted ("((" ++ lhs ++ ") " ++ comparison ++ " (" ++ rhs ++ ") ? (" ++
        lhs ++ ") : (" ++ rhs ++ "))")
      simpa using hWhole

theorem wellCalled_unaryText (hForm : form.Admits wanted)
    (hOperand : Text.WellCalled wanted operand) :
    Text.WellCalled wanted (form.unaryText operand) := by
  have hSigned {symbol : Text} (hSymbol : symbol.all Text.isSign = true) :
      Text.WellCalled wanted (symbol ++ "(" ++ operand ++ ")") := by
    rw [List.append_assoc, List.append_assoc]
    exact hOperand.parenthesized.signed hSymbol
  cases form with
  | between symbol => exact hSigned hForm
  | leading symbol => exact hSigned hForm
  | select symbol => exact hSigned hForm
  | call function =>
      have hOne : ∀ t ∈ [operand], Text.WellCalled wanted t := by
        intro t ht
        rw [List.mem_singleton.mp ht]
        exact hOperand
      show Text.WellCalled wanted (function ++ "(" ++ operand ++ ")")
      rw [List.append_assoc, List.append_assoc]
      exact .call hForm.1 hOne (hForm.2 _)
  | cast type => exact hOperand.converted hForm

/-! ## Forms of operators -/

/-- The forms that operators with a number of operands take.  Symbols are signs without
blanks, and functions are no helpers. -/
inductive Regular : Nat → Form → Prop
  | between {symbol : Text} (h : symbol.all Text.isMark = true) : Regular 2 (.between symbol)
  | select {comparison : Text} (h : comparison.all Text.isMark = true) :
      Regular 2 (.select comparison)
  | leading {symbol : Text} (h : symbol.all Text.isMark = true) : Regular 1 (.leading symbol)
  | cast {type : Text} (h : type.all Text.isPlainChar = true) : Regular 1 (.cast type)
  | call {function : Text} (h : isFunctionName function = true) (count : Nat) :
      Regular count (.call function)

theorem regular_mathName {function : Text} (h : isFunctionName function = true)
    (hSingle : isFunctionName (function ++ "f") = true) (d : Dialect) (t : ScalarType)
    (count : Nat) : Regular count (call (d.mathName function t)) := by
  unfold Dialect.mathName
  split
  · exact .call h count
  · exact .call hSingle count

theorem regular_ofBinary (op : BinaryOp) (t : ScalarType) (d : Dialect) :
    Regular 2 (ofBinary op t d) := by
  cases op with
  | add | sub | mul | div | lt | le | gt | ge | eq | ne | xor | shl | shr | assign =>
      exact .between (by decide)
  | pow => exact regular_mathName (by decide) (by decide) d t 2
  | mod =>
      show Regular 2 (if t.isFloat then call (d.mathName "fmod" t) else between "%")
      split
      · exact regular_mathName (by decide) (by decide) d t 2
      · exact .between (by decide)
  | max =>
      show Regular 2 (if t.isFloat then call (d.mathName "fmax" t)
        else if d = .c then select ">" else call "max")
      split
      · exact regular_mathName (by decide) (by decide) d t 2
      · split
        · exact .select (by decide)
        · exact .call (by decide) 2
  | min =>
      show Regular 2 (if t.isFloat then call (d.mathName "fmin" t)
        else if d = .c then select "<" else call "min")
      split
      · exact regular_mathName (by decide) (by decide) d t 2
      · split
        · exact .select (by decide)
        · exact .call (by decide) 2
  | and =>
      refine .between ?_
      show (if t.isBool then ("&&" : Text) else "&").all Text.isMark = true
      split <;> decide
  | or =>
      refine .between ?_
      show (if t.isBool then ("||" : Text) else "|").all Text.isMark = true
      split <;> decide

theorem regular_ofUnary (op : UnaryOp) (operand result : ScalarType) (d : Dialect) :
    Regular 1 (ofUnary op operand result d) := by
  cases op with
  | neg | not => exact .leading (by decide)
  | abs =>
      show Regular 1 (if operand.isFloat then call (d.mathName "fabs" operand)
        else if d = .c ∧ operand.bytes = 8 then call "llabs" else call "abs")
      split
      · exact regular_mathName (by decide) (by decide) d operand 1
      · split
        · exact .call (by decide) 1
        · exact .call (by decide) 1
  | sqrt | exp | log | sin | cos | tanh | floor | ceil =>
      exact regular_mathName (by decide) (by decide) d operand 1
  | cast =>
      refine .cast ?_
      cases result <;> decide

/-- Where only helpers are counted, what a regular form writes calls nothing that is counted. -/
theorem Regular.admits {count : Nat} (h : Regular count form)
    (hFree : ∀ name count, isAccessName name = false → isCombiningName name = false →
      wanted name count) : form.Admits wanted := by
  cases h with
  | between h | select h | leading h => exact Text.all_isSign_of_isMark h
  | cast h => exact h
  | @call function h =>
      simp only [isFunctionName, Bool.and_eq_true, Bool.not_eq_true'] at h
      obtain ⟨⟨hName, hAccess⟩, hCombining⟩ := h
      exact ⟨hName, fun count => hFree function count hAccess hCombining⟩

end Form

end ArrayKernel
