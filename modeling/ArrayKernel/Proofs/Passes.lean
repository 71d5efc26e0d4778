import ArrayKernel.Proofs.Calls
import ArrayKernel.Proofs.FirstCall

/-!
# One pass over a composed text

The pass of a helper works on the parts of a text one by one: what it makes of an
operator and its operands is the operator with what it makes of the operands.  A part
that does not call the helper stays, and a call of the helper with all its arguments
gives way to the filled body.

The arguments have to be operands, that is sealed and without blanks at their ends.
The pass does NOT look at what it has put in the place of a call.
-/

namespace ArrayKernel

namespace Text

/-! ## Operands -/

/-- A text that is one argument wherever it is passed. -/
structure IsOperand (t : Text) : Prop where
  sealed : Sealed t
  solid : HasSolidEnds t
  ne_nil : t ≠ []

theorem solid_append {s t : Text} (hs : HasSolidEnds s) (ht : HasSolidEnds t) (hne : t ≠ []) :
    HasSolidEnds (s ++ t) := by
  by_cases hNil : s = []
  · rw [hNil]
    exact ht
  · exact hs.between ht hNil hne []

namespace IsOperand

variable {s t : Text}

theorem of_isIdentifier (h : isIdentifier t = true) : IsOperand t :=
  ⟨sealed_word (all_isWordChar_of_isIdentifier h), solid_word (all_isWordChar_of_isIdentifier h),
    ne_nil_of_isIdentifier h⟩

theorem of_isReadable {e : IndexExpr} (h : e.isReadable = true) : IsOperand e.text :=
  ⟨(IndexExpr.sealed_solid_text h).1, (IndexExpr.sealed_solid_text h).2, IndexExpr.text_ne_nil h⟩

/-- Operands in parentheses, behind a text that has no blanks at its ends. -/
theorem list {head : Text} (hSealed : Sealed head) (hSolid : HasSolidEnds head) {args : List Text}
    (hArgs : ∀ arg ∈ args, IsOperand arg) :
    IsOperand (head ++ ("(" ++ join ", " args ++ ")")) := by
  have hText : "(" ++ join ", " args ++ ")" = '(' :: (join ", " args ++ [')']) := by simp
  have hBracketed := bracketed_join fun arg hArg => (hArgs arg hArg).sealed.bracketed
  have hOpen : HasSolidEnds ['('] := solid_singleton (by decide)
  have hClose : HasSolidEnds [')'] := solid_singleton (by decide)
  have hInside : HasSolidEnds ('(' :: (join ", " args ++ [')'])) :=
    hOpen.between hClose (List.cons_ne_nil _ _) (List.cons_ne_nil _ _) (join ", " args)
  rw [hText]
  exact ⟨hSealed.append hBracketed.parenthesized,
    solid_append hSolid hInside (List.cons_ne_nil _ _), by simp⟩

theorem call {name : Text} (hName : isIdentifier name = true) {args : List Text}
    (hArgs : ∀ arg ∈ args, IsOperand arg) :
    IsOperand (name ++ ("(" ++ join ", " args ++ ")")) :=
  list (of_isIdentifier hName).sealed (of_isIdentifier hName).solid hArgs

theorem listed {head : Text} (hSealed : Sealed head) (hSolid : HasSolidEnds head)
    (h : IsOperand t) : IsOperand (head ++ ("(" ++ t ++ ")")) := by
  have hOne : ∀ arg ∈ [t], IsOperand arg := by
    intro arg hArg
    rw [List.mem_singleton.mp hArg]
    exact h
  exact list hSealed hSolid hOne

theorem parenthesized (h : IsOperand t) : IsOperand ("(" ++ t ++ ")") := by
  have hSealed : Sealed [] := rfl
  have hSolid : HasSolidEnds [] := by
    constructor
    · intro c hc
      cases hc
    · intro c hc
      cases hc
  exact h.listed hSealed hSolid

/-- A type in parentheses in front of an operand. -/
theorem converted {type : Text} (hType : type.all isPlainChar = true) (h : IsOperand t) :
    IsOperand ("(" ++ type ++ ")(" ++ t ++ ")") := by
  have hText : "(" ++ type ++ ")(" ++ t ++ ")" = "(" ++ type ++ ")" ++ ("(" ++ t ++ ")") := by simp
  have hOpen : HasSolidEnds "(" := solid_singleton (by decide)
  have hClose : HasSolidEnds ")" := solid_singleton (by decide)
  have hSealed : Sealed ('(' :: (type ++ [')'])) :=
    (sealed_of_all_isPlainChar hType).bracketed.parenthesized
  have hSolid : HasSolidEnds ('(' :: (type ++ [')'])) :=
    hOpen.between hClose (List.cons_ne_nil _ _) (List.cons_ne_nil _ _) type
  rw [hText]
  exact h.listed hSealed hSolid

theorem between (hs : IsOperand s) (ht : IsOperand t) {symbol : Text}
    (hSymbol : symbol.all isPlainChar = true) : IsOperand (s ++ " " ++ symbol ++ " " ++ t) := by
  have hText : s ++ " " ++ symbol ++ " " ++ t = s ++ ((" " ++ symbol ++ " ") ++ t) := by simp
  have hBlank : Sealed " " := by decide
  have hMiddle := (hBlank.append (sealed_of_all_isPlainChar hSymbol)).append hBlank
  rw [hText]
  exact ⟨hs.sealed.append (hMiddle.append ht.sealed),
    hs.solid.between ht.solid hs.ne_nil ht.ne_nil _, by simp [hs.ne_nil]⟩

/-- Operands can be split off an argument list again. -/
theorem splitArguments_join {args : List Text} (h : ∀ arg ∈ args, IsOperand arg) :
    splitArguments (join ", " args) = args := by
  refine IsArgument.splitArguments_join
    (fun arg hArg => (h arg hArg).sealed.isArgument (h arg hArg).solid) ?_
  intro hBlank
  exact (h [] (by simp [hBlank])).ne_nil rfl

end IsOperand

/-! ## Texts without words -/

/-- No character belongs to a word. -/
def isWordless (t : Text) : Bool := t.all fun c => !isWordChar c

theorem isWordless_append {s t : Text} (hs : isWordless s = true) (ht : isWordless t = true) :
    isWordless (s ++ t) = true := by
  rw [isWordless, List.all_append, Bool.and_eq_true]
  exact ⟨hs, ht⟩

theorem isWordless_of_isSign {t : Text} (h : t.all isSign = true) : isWordless t = true := by
  refine List.all_eq_true.mpr fun c hc => ?_
  rw [isWordChar_of_isSign (List.all_eq_true.mp h c hc)]
  rfl

theorem endsInWord_of_isWordless {t : Text} (h : isWordless t = true) : endsInWord t = false := by
  cases hLast : t.getLast? with
  | none => simp [endsInWord, hLast]
  | some c =>
      have hc := List.all_eq_true.mp h c (List.mem_of_getLast? hLast)
      simpa [endsInWord, hLast] using hc

theorem callNames_of_isWordless {t : Text} (h : isWordless t = true) :
    callNames (pieces t) = [] := by
  induction t with
  | nil => rfl
  | cons c t ih =>
      obtain ⟨hc, ht⟩ : isWordChar c = false ∧ isWordless t = true := by
        simpa [isWordless] using h
      rw [pieces_cons_other hc, callNames_cons_other, ih ht]

theorem not_mem_callNames_of_isWordless {t : Text} (h : isWordless t = true) (name : Text) :
    name ∉ callNames (pieces t) := by
  rw [callNames_of_isWordless h]
  exact List.not_mem_nil

/-- The text can stand behind an operand without becoming part of it. -/
def isSeparator : Text → Bool
  | [] => false
  | c :: t => c != '(' && isWordless (c :: t)

theorem isWordless_of_isSeparator {t : Text} (h : isSeparator t = true) : isWordless t = true := by
  cases t with
  | nil => rfl
  | cons c t => exact (Bool.and_eq_true_iff.mp h).2

theorem detached_of_isSeparator {s : Text} (h : isSeparator s = true) (t : Text) :
    Detached (s ++ t) := by
  cases s with
  | nil => cases h
  | cons c s =>
      simp only [isSeparator, isWordless, List.all_cons, Bool.and_eq_true, bne_iff_ne, ne_eq,
        Bool.not_eq_true'] at h
      exact detached_cons h.2.1 h.1 (s ++ t)

end Text

namespace Helper

variable {h : Helper}

/-! ## What a pass does at the first call -/

theorem expand_of_unclosed (hName : Text.isIdentifier h.name = true) {before after : Text}
    (hEnds : Text.endsInWord before = false)
    (hFirst : h.name ∉ Text.callNames (Text.pieces before))
    (hClosing : Text.closing? 0 after = none) :
    h.expand (before ++ h.name ++ '(' :: after) = some (before ++ h.name ++ '(' :: after) :=
  expand_of_find_unclosed ((CallSearch.find_eq_call_iff hName).mpr ⟨rfl, hEnds, hFirst⟩) hClosing

theorem expand_of_closed (hName : Text.isIdentifier h.name = true)
    {before after inside rest : Text} (hEnds : Text.endsInWord before = false)
    (hFirst : h.name ∉ Text.callNames (Text.pieces before))
    (hClosing : Text.closing? 0 after = some (inside, rest)) :
    h.expand (before ++ h.name ++ '(' :: after) =
      (h.expand rest).map fun more => before ++ h.callText inside ++ more :=
  expand_of_find_closed ((CallSearch.find_eq_call_iff hName).mpr ⟨rfl, hEnds, hFirst⟩) hClosing

/-- A pass leaves alone what stands in front and does not call the helper. -/
theorem expand_append (hName : Text.isIdentifier h.name = true) {s t : Text}
    (hParted : Text.Parted s t) (hNot : h.name ∉ Text.callNames (Text.pieces s)) :
    h.expand (s ++ t) = (h.expand t).map (s ++ ·) := by
  by_cases hCalled : h.name ∈ Text.callNames (Text.pieces t)
  · obtain ⟨before, after, rfl, hEnds, hFirst⟩ := Text.exists_first_call hCalled
    have hne := Text.ne_nil_of_isIdentifier hName
    -- a call at the very start of the second text has a word in front of its parenthesis
    have hStart : before = [] → Text.endsInWord s = false := by
      rintro rfl
      rcases hParted with hs | hDetached
      · exact hs
      · obtain ⟨c, w, hw⟩ := List.exists_cons_of_ne_nil hne
        have hc : Text.isWordChar c = true :=
          List.all_eq_true.mp (Text.all_isWordChar_of_isIdentifier hName) c (by simp [hw])
        have hHead := (hDetached c (by simp [hw])).1
        rw [hc] at hHead
        cases hHead
    have hEnds' : Text.endsInWord (s ++ before) = false := by
      by_cases hNil : before = []
      · rw [hNil, List.append_nil]
        exact hStart hNil
      · rwa [Text.endsInWord_append hNil]
    have hParted' : Text.Parted s before := by
      refine hParted.imp_right fun hDetached c hc => hDetached c ?_
      rw [List.append_assoc, List.head?_append, hc]
      rfl
    have hFirst' : h.name ∉ Text.callNames (Text.pieces (s ++ before)) := by
      rw [Text.callNames_append hParted', List.mem_append]
      exact fun hMem => hMem.elim hNot hFirst
    have hText : s ++ (before ++ h.name ++ '(' :: after) =
        s ++ before ++ h.name ++ '(' :: after := by
      simp
    rw [hText]
    cases hClosing : Text.closing? 0 after with
    | none =>
        rw [expand_of_unclosed hName hEnds' hFirst' hClosing,
          expand_of_unclosed hName hEnds hFirst hClosing, Option.map_some, hText]
    | some split =>
        rw [expand_of_closed hName hEnds' hFirst' hClosing,
          expand_of_closed hName hEnds hFirst hClosing, Option.map_map]
        simp [Function.comp_def]
  · have hBoth : h.name ∉ Text.callNames (Text.pieces (s ++ t)) := by
      rw [Text.callNames_append hParted, List.mem_append]
      exact fun hMem => hMem.elim hNot hCalled
    rw [expand_of_not_called hName hBoth, expand_of_not_called hName hCalled]
    rfl

/-! ## Rewriting the parts of a text -/

/-- The pass of the helper makes the second text of the first one, whatever follows it,
as long as neither a word goes on nor a call begins there. -/
def Rewrites (h : Helper) (t result : Text) : Prop :=
  ∀ u, Text.Detached u → h.expand (t ++ u) = (h.expand u).map (result ++ ·)

namespace Rewrites

variable {s s' t t' : Text}

theorem expand_eq (hName : Text.isIdentifier h.name = true) (ht : h.Rewrites t t') :
    h.expand t = some t' := by
  have hEmpty : h.expand [] = some [] := expand_of_not_called hName List.not_mem_nil
  have hWhole := ht [] Text.detached_nil
  rw [hEmpty] at hWhole
  simpa using hWhole

theorem of_not_called (hName : Text.isIdentifier h.name = true)
    (hNot : h.name ∉ Text.callNames (Text.pieces t)) : h.Rewrites t t :=
  fun _ hu => expand_append hName (.inr hu) hNot

/-- A text that ends outside words can stand in front of anything. -/
theorem behind (hName : Text.isIdentifier h.name = true) (hEnds : Text.endsInWord s = false)
    (hNot : h.name ∉ Text.callNames (Text.pieces s)) (ht : h.Rewrites t t') :
    h.Rewrites (s ++ t) (s ++ t') := by
  intro u hu
  rw [List.append_assoc, expand_append hName (.inl hEnds) hNot, ht u hu, Option.map_map]
  simp [Function.comp_def]

theorem append (hs : h.Rewrites s s') (hDetached : Text.Detached t) (ht : h.Rewrites t t') :
    h.Rewrites (s ++ t) (s' ++ t') := by
  intro u hu
  rw [List.append_assoc, hs (t ++ u) (hDetached.append hu), ht u hu, Option.map_map]
  simp [Function.comp_def]

theorem behind_wordless (hName : Text.isIdentifier h.name = true)
    (hs : Text.isWordless s = true) (ht : h.Rewrites t t') : h.Rewrites (s ++ t) (s ++ t') :=
  ht.behind hName (Text.endsInWord_of_isWordless hs) (Text.not_mem_callNames_of_isWordless hs _)

theorem joined (hName : Text.isIdentifier h.name = true) {separator : Text}
    (hSeparator : Text.isSeparator separator = true) (hs : h.Rewrites s s')
    (ht : h.Rewrites t t') : h.Rewrites (s ++ (separator ++ t)) (s' ++ (separator ++ t')) :=
  hs.append (Text.detached_of_isSeparator hSeparator t)
    (ht.behind_wordless hName (Text.isWordless_of_isSeparator hSeparator))

/-- An operand with a text without words behind it, as a closing parenthesis. -/
theorem closed (hName : Text.isIdentifier h.name = true) {separator : Text}
    (hSeparator : Text.isSeparator separator = true) (hs : h.Rewrites s s') :
    h.Rewrites (s ++ separator) (s' ++ separator) := by
  have hEmpty : h.Rewrites [] [] := of_not_called hName List.not_mem_nil
  have hWhole := hs.joined hName hSeparator hEmpty
  rwa [List.append_nil] at hWhole

/-- A call with all its arguments gives way to the filled body. -/
theorem call (hName : Text.isIdentifier h.name = true) {args : List Text}
    (hArity : args.length = h.arity) (hArgs : ∀ arg ∈ args, Text.IsOperand arg) :
    h.Rewrites (h.name ++ ("(" ++ Text.join ", " args ++ ")")) (h.fill args) := by
  intro u _
  have hBracketed := Text.bracketed_join fun arg hArg => (hArgs arg hArg).sealed.bracketed
  have hClosing : Text.closing? 0 (Text.join ", " args ++ ')' :: u) =
      some (Text.join ", " args, u) :=
    hBracketed.closing?_eq_some u
  have hText : h.name ++ ("(" ++ Text.join ", " args ++ ")") ++ u =
      h.name ++ '(' :: (Text.join ", " args ++ ')' :: u) := by
    simp
  have hCall : h.callText (Text.join ", " args) = h.fill args := by
    rw [callText, Text.IsOperand.splitArguments_join hArgs]
    exact if_pos hArity
  have hFirst := @expand_of_closed h hName [] _ _ _ rfl List.not_mem_nil hClosing
  rw [hText, ← List.nil_append h.name, hFirst, hCall]
  rfl

/-- One operand in parentheses, behind a text that does not call the helper. -/
theorem single (hName : Text.isIdentifier h.name = true) {head : Text}
    (hNot : h.name ∉ Text.callNames (Text.pieces (head ++ "("))) (ht : h.Rewrites t t') :
    h.Rewrites (head ++ "(" ++ (t ++ ")")) (head ++ "(" ++ (t' ++ ")")) :=
  (ht.closed hName (by decide)).behind hName (Text.endsInWord_append_cons (by decide) head []) hNot

/-- Two operands in parentheses, behind a text that does not call the helper. -/
theorem pair (hName : Text.isIdentifier h.name = true) {head : Text}
    (hNot : h.name ∉ Text.callNames (Text.pieces (head ++ "("))) (hs : h.Rewrites s s')
    (ht : h.Rewrites t t') :
    h.Rewrites (head ++ "(" ++ (s ++ (", " ++ t) ++ ")"))
      (head ++ "(" ++ (s' ++ (", " ++ t') ++ ")")) :=
  (hs.joined hName (by decide) ht).single hName hNot

end Rewrites

end Helper

/-! ## Operators -/

namespace Form

variable {wanted : Text → Nat → Prop} {form : Form} {h : Helper} {lhs lhs' rhs rhs'
    operand operand' : Text}

theorem not_mem_callNames_function {name function : Text}
    (hFunction : Text.isIdentifier function = true) (hne : name ≠ function) :
    name ∉ Text.callNames (Text.pieces (function ++ "(")) := by
  show name ∉ Text.callNames (Text.pieces (function ++ '(' :: []))
  rw [Text.callNames_word_append (Text.all_isWordChar_of_isIdentifier hFunction) (by decide),
    if_pos ⟨Text.ne_nil_of_isIdentifier hFunction, rfl⟩]
  simpa [Text.pieces] using hne

theorem not_mem_callNames_conversion {type : Text} (hType : type.all Text.isPlainChar = true)
    (name : Text) : name ∉ Text.callNames (Text.pieces ("(" ++ type ++ ")" ++ "(")) := by
  have hAnswered : Text.CallsAnswered (fun _ _ => False) type := .of_all_isPlainChar hType
  have hNone : name ∉ Text.callNames (Text.pieces type) := by
    intro hMem
    obtain ⟨call, hCall, -⟩ := List.mem_map.mp hMem
    obtain ⟨-, -, hFalse⟩ := hAnswered call hCall
    exact hFalse
  have hOpen : Text.Parted "(" (type ++ ")(") := .inl (by decide)
  have hClose : Text.Parted type ")(" := .inr (Text.detached_cons (by decide) (by decide) _)
  have hText : "(" ++ type ++ ")" ++ "(" = "(" ++ (type ++ ")(") := by simp
  have hLeft : Text.callNames (Text.pieces "(") = [] := rfl
  have hRight : Text.callNames (Text.pieces ")(") = [] := rfl
  rw [hText, Text.callNames_append hOpen, Text.callNames_append hClose, hLeft, hRight]
  simpa using hNone

/-- What an operator makes of two operands is rewritten by rewriting the operands, if its
function is not the helper. -/
theorem rewrites_binaryText (hName : Text.isIdentifier h.name = true) (hForm : form.Admits wanted)
    (hOwn : ∀ count, ¬ wanted h.name count) (hLhs : h.Rewrites lhs lhs')
    (hRhs : h.Rewrites rhs rhs') :
    h.Rewrites (form.binaryText lhs rhs) (form.binaryText lhs' rhs') := by
  cases form with
  | between symbol =>
      have hSign := Text.isWordless_of_isSign hForm
      have hSymbol : Text.isSeparator (" " ++ symbol ++ " ") = true :=
        Text.isWordless_append (Text.isWordless_append (by decide) hSign) (by decide)
      have hWhole := hLhs.joined hName hSymbol hRhs
      show h.Rewrites (lhs ++ " " ++ symbol ++ " " ++ rhs) (lhs' ++ " " ++ symbol ++ " " ++ rhs')
      simpa using hWhole
  | call function =>
      have hne : h.name ≠ function := fun hEq => hOwn 0 (hEq ▸ hForm.2 0)
      have hWhole := hLhs.pair hName (not_mem_callNames_function hForm.1 hne) hRhs
      show h.Rewrites (function ++ "(" ++ lhs ++ ", " ++ rhs ++ ")")
        (function ++ "(" ++ lhs' ++ ", " ++ rhs' ++ ")")
      simpa using hWhole
  | leading symbol =>
      have hSymbol : Text.isWordless (symbol ++ "(") = true :=
        Text.isWordless_append (Text.isWordless_of_isSign hForm) (by decide)
      have hWhole := hLhs.pair hName (Text.not_mem_callNames_of_isWordless hSymbol _) hRhs
      show h.Rewrites (symbol ++ "(" ++ lhs ++ ", " ++ rhs ++ ")")
        (symbol ++ "(" ++ lhs' ++ ", " ++ rhs' ++ ")")
      simpa using hWhole
  | cast type =>
      have hWhole := hLhs.single hName (not_mem_callNames_conversion hForm h.name)
      show h.Rewrites ("(" ++ type ++ ")(" ++ lhs ++ ")") ("(" ++ type ++ ")(" ++ lhs' ++ ")")
      simpa using hWhole
  | select comparison =>
      have hSign := Text.isWordless_of_isSign hForm
      have hSymbol : Text.isSeparator (") " ++ comparison ++ " (") = true :=
        Text.isWordless_append (Text.isWordless_append (by decide) hSign) (by decide)
      have hMark : Text.isSeparator ") ? (" = true := by decide
      have hColon : Text.isSeparator ") : (" = true := by decide
      have hClose : Text.isSeparator "))" = true := by decide
      have hChoices := hLhs.joined hName hColon (hRhs.closed hName hClose)
      have hTest := hLhs.joined hName hSymbol (hRhs.joined hName hMark hChoices)
      have hWhole := hTest.behind_wordless hName (by decide : Text.isWordless "((" = true)
      show h.Rewrites ("((" ++ lhs ++ ") " ++ comparison ++ " (" ++ rhs ++ ") ? (" ++ lhs ++
          ") : (" ++ rhs ++ "))")
        ("((" ++ lhs' ++ ") " ++ comparison ++ " (" ++ rhs' ++ ") ? (" ++ lhs' ++ ") : (" ++
          rhs' ++ "))")
      simpa using hWhole

theorem rewrites_unaryText (hName : Text.isIdentifier h.name = true) (hForm : form.Admits wanted)
    (hOwn : ∀ count, ¬ wanted h.name count) (hOperand : h.Rewrites operand operand') :
    h.Rewrites (form.unaryText operand) (form.unaryText operand') := by
  have hSigned {symbol : Text} (hSymbol : symbol.all Text.isSign = true) :
      h.Rewrites (symbol ++ "(" ++ operand ++ ")") (symbol ++ "(" ++ operand' ++ ")") := by
    have hHead : Text.isWordless (symbol ++ "(") = true :=
      Text.isWordless_append (Text.isWordless_of_isSign hSymbol) (by decide)
    have hWhole := hOperand.single hName (Text.not_mem_callNames_of_isWordless hHead _)
    simpa using hWhole
  cases form with
  | between symbol => exact hSigned hForm
  | leading symbol => exact hSigned hForm
  | select symbol => exact hSigned hForm
  | call function =>
      have hne : h.name ≠ function := fun hEq => hOwn 0 (hEq ▸ hForm.2 0)
      have hWhole := hOperand.single hName (not_mem_callNames_function hForm.1 hne)
      show h.Rewrites (function ++ "(" ++ operand ++ ")") (function ++ "(" ++ operand' ++ ")")
      simpa using hWhole
  | cast type =>
      have hWhole := hOperand.single hName (not_mem_callNames_conversion hForm h.name)
      show h.Rewrites ("(" ++ type ++ ")(" ++ operand ++ ")")
        ("(" ++ type ++ ")(" ++ operand' ++ ")")
      simpa using hWhole

/-- The symbol that the form writes, if it writes one, has no blanks. -/
def isDense : Form → Bool
  | between symbol | leading symbol | select symbol => symbol.all fun c => !Text.isBlank c
  | call _ | cast _ => true

theorem solid_of_dense {symbol : Text} (h : (symbol.all fun c => !Text.isBlank c) = true) :
    Text.HasSolidEnds symbol := by
  have hAll : ∀ c ∈ symbol, Text.isBlank c = false := by simpa using h
  exact ⟨fun c hc => hAll c (List.mem_of_head? hc), fun c hc => hAll c (List.mem_of_getLast? hc)⟩

/-- What an operator makes of two operands is an operand again. -/
theorem isOperand_binaryText (hForm : form.Admits wanted) (hDense : form.isDense = true)
    (hLhs : Text.IsOperand lhs) (hRhs : Text.IsOperand rhs) :
    Text.IsOperand (form.binaryText lhs rhs) := by
  have hBoth : ∀ arg ∈ [lhs, rhs], Text.IsOperand arg := by
    intro arg hArg
    rcases List.mem_cons.mp hArg with rfl | hArg
    · exact hLhs
    · rw [List.mem_singleton.mp hArg]
      exact hRhs
  have hList (head : Text) : head ++ "(" ++ lhs ++ ", " ++ rhs ++ ")" =
      head ++ ("(" ++ Text.join ", " [lhs, rhs] ++ ")") := by
    simp
  cases form with
  | between symbol => exact hLhs.between hRhs (Text.all_isPlainChar_of_isSign hForm)
  | call function =>
      show Text.IsOperand (function ++ "(" ++ lhs ++ ", " ++ rhs ++ ")")
      rw [hList]
      exact .call hForm.1 hBoth
  | leading symbol =>
      have hSealed := Text.sealed_of_all_isPlainChar (Text.all_isPlainChar_of_isSign hForm)
      show Text.IsOperand (symbol ++ "(" ++ lhs ++ ", " ++ rhs ++ ")")
      rw [hList]
      exact .list hSealed (solid_of_dense hDense) hBoth
  | cast type => exact hLhs.converted hForm
  | select comparison =>
      have hTest := hLhs.parenthesized.between hRhs.parenthesized
        (Text.all_isPlainChar_of_isSign hForm)
      have hColon : (":" : Text).all Text.isPlainChar = true := by decide
      have hChoices := hLhs.parenthesized.between hRhs.parenthesized hColon
      have hMark : ("?" : Text).all Text.isPlainChar = true := by decide
      have hWhole := (hTest.between hChoices hMark).parenthesized
      show Text.IsOperand ("((" ++ lhs ++ ") " ++ comparison ++ " (" ++ rhs ++ ") ? (" ++
        lhs ++ ") : (" ++ rhs ++ "))")
      simpa using hWhole

theorem isOperand_unaryText (hForm : form.Admits wanted) (hDense : form.isDense = true)
    (hOperand : Text.IsOperand operand) :
    Text.IsOperand (form.unaryText operand) := by
  have hSigned {symbol : Text} (hSymbol : symbol.all Text.isSign = true)
      (hSolid : (symbol.all fun c => !Text.isBlank c) = true) :
      Text.IsOperand (symbol ++ "(" ++ operand ++ ")") := by
    have hSealed := Text.sealed_of_all_isPlainChar (Text.all_isPlainChar_of_isSign hSymbol)
    rw [List.append_assoc, List.append_assoc]
    exact hOperand.listed hSealed (solid_of_dense hSolid)
  cases form with
  | between symbol => exact hSigned hForm hDense
  | leading symbol => exact hSigned hForm hDense
  | select symbol => exact hSigned hForm hDense
  | call function =>
      have hFunction := Text.IsOperand.of_isIdentifier hForm.1
      show Text.IsOperand (function ++ "(" ++ operand ++ ")")
      rw [List.append_assoc, List.append_assoc]
      exact hOperand.listed hFunction.sealed hFunction.solid
  | cast type => exact hOperand.converted hForm

theorem Regular.isDense {count : Nat} (h : Regular count form) : form.isDense = true := by
  cases h with
  | between h | select h | leading h =>
      refine List.all_eq_true.mpr fun c hc => ?_
      exact (Bool.and_eq_true_iff.mp (List.all_eq_true.mp h c hc)).2
  | cast | call => rfl

end Form

end ArrayKernel
