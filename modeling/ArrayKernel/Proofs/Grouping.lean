import ArrayKernel.Proofs.Prelude

/-!
# Grouping of operands

An operator is written around the texts of its operands.  The tree can be read off the text
under any precedence of operators if no operator of an operand is exposed: its parentheses
are closed, and no blank and no comma stands outside them.

A text of a symbol is guarded in this sense unless the symbol is a reduction or an operator
that stands between its operands.  As an operand, the first is named by its accumulator and
the second is put in parentheses.  A loop passes the text of its operand on, which is
guarded already.
-/

namespace ArrayKernel

namespace Text

/-! ## Nesting of parentheses -/

/-- The number of open parentheses after a character. -/
def roundDepth (depth : Nat) (c : Char) : Nat :=
  if c = '(' then depth + 1 else if c = ')' then depth - 1 else depth

/-- As `roundDepth`, where a closing parenthesis and some further characters have to stand
inside parentheses. -/
def nestStep (inner : List Char) (depth : Nat) (c : Char) : Option Nat :=
  if depth = 0 ∧ (c = ')' ∨ c ∈ inner) then none else some (roundDepth depth c)

/-- Every parenthesis is closed, none is closed before it is opened, and the given characters
stand inside parentheses only. -/
def Nested (inner : List Char) (t : Text) : Prop := t.foldlM (nestStep inner) 0 = some 0

/-- The parentheses are closed. -/
abbrev Balanced (t : Text) : Prop := Nested [] t

/-- The parentheses are closed, and blanks and commas stand inside them. -/
abbrev Guarded (t : Text) : Prop := Nested [' ', ','] t

instance (inner : List Char) (t : Text) : Decidable (Nested inner t) :=
  inferInstanceAs (Decidable (_ = _))

theorem roundDepth_add {depth : Nat} {c : Char} (h : c = ')' → depth ≠ 0) (k : Nat) :
    roundDepth (depth + k) c = roundDepth depth c + k := by
  unfold roundDepth
  split
  · omega
  · split
    · next hc =>
      have hOpen := h hc
      omega
    · rfl

/-- A step that is allowed is allowed inside further parentheses, where nothing more is
asked, and where less is asked. -/
theorem nestStep_add {inner inner' : List Char} {depth next k : Nat} {c : Char}
    (hInner : k ≠ 0 ∨ inner' ⊆ inner) (h : nestStep inner depth c = some next) :
    nestStep inner' (depth + k) c = some (next + k) := by
  unfold nestStep at h ⊢
  split at h
  · exact nomatch h
  · next hAllowed =>
    cases h
    have hStill : ¬ (depth + k = 0 ∧ (c = ')' ∨ c ∈ inner')) := by
      -- where nothing is open, no less was asked of the first step
      rintro ⟨hDepth, hc⟩
      obtain ⟨hZero, hOutside⟩ : depth = 0 ∧ k = 0 := by omega
      refine hAllowed ⟨hZero, hc.imp_right fun hMem => ?_⟩
      rcases hInner with hNonzero | hSubset
      · exact absurd hOutside hNonzero
      · exact hSubset hMem
    rw [if_neg hStill, roundDepth_add fun hc hZero => hAllowed ⟨hZero, .inl hc⟩]

/-- As `nestStep_add`, for a text. -/
theorem foldlM_nestStep_add {inner inner' : List Char} {depth last k : Nat} {t : Text}
    (hInner : k ≠ 0 ∨ inner' ⊆ inner) (h : t.foldlM (nestStep inner) depth = some last) :
    t.foldlM (nestStep inner') (depth + k) = some (last + k) :=
  foldlM_simulates (f := (· + k)) (nestStep_add hInner) h

/-! ## Building nested texts -/

namespace Nested

variable {inner inner' : List Char} {s t : Text}

/-- A nested text leaves the number of open parentheses as it is. -/
theorem foldlM (h : Nested inner t) {k : Nat} (hInner : k ≠ 0 ∨ inner' ⊆ inner) :
    t.foldlM (nestStep inner') k = some k := by
  have hRun := foldlM_nestStep_add hInner h
  rwa [Nat.zero_add] at hRun

theorem mono (h : Nested inner t) (hInner : inner' ⊆ inner) : Nested inner' t :=
  h.foldlM (.inr hInner)

theorem balanced (h : Nested inner t) : Balanced t := h.mono (List.nil_subset _)

theorem append (hs : Nested inner s) (ht : Nested inner t) : Nested inner (s ++ t) := by
  unfold Nested
  rw [List.foldlM_append, hs]
  exact ht

/-- In parentheses, blanks and commas may stand. -/
theorem parenthesized (h : Nested inner t) : Guarded ("(" ++ t ++ ")") := by
  have hRun : t.foldlM (nestStep [' ', ',']) 1 = some 1 := h.foldlM (.inl Nat.one_ne_zero)
  have hText : "(" ++ t ++ ")" = '(' :: (t ++ [')']) := by simp
  rw [hText]
  show (t ++ [')']).foldlM (nestStep [' ', ',']) 1 = some 0
  rw [List.foldlM_append, hRun]
  rfl

theorem of_all (h : ∀ c ∈ t, c ≠ '(' ∧ c ≠ ')' ∧ c ∉ inner) : Nested inner t := by
  unfold Nested
  induction t with
  | nil => rfl
  | cons c t ih =>
      obtain ⟨hOpen, hClose, hInner⟩ := h c (.head _)
      have hStep : nestStep inner 0 c = some 0 := by
        simp [nestStep, roundDepth, hOpen, hClose, hInner]
      rw [List.foldlM_cons, hStep]
      exact ih fun d hd => h d (.tail _ hd)

end Nested

/-- A character that can stand outside parentheses: no parenthesis, blank or comma. -/
def isTight (c : Char) : Bool := c != '(' && c != ')' && c != ' ' && c != ','

theorem guarded_of_all_isTight {t : Text} (h : t.all isTight = true) : Guarded t := by
  refine .of_all fun c hc => ?_
  have hTight := List.all_eq_true.mp h c hc
  simpa [isTight, and_assoc] using hTight

theorem isTight_of_isWordChar {c : Char} (h : isWordChar c = true) : isTight c = true := by
  simp only [isTight, Bool.and_eq_true, bne_iff_ne, ne_eq]
  refine ⟨⟨⟨?_, ?_⟩, ?_⟩, ?_⟩ <;> rintro rfl <;> exact absurd h (by decide)

theorem isTight_of_isMark {c : Char} (h : isMark c = true) : isTight c = true := by
  simp only [isTight, Bool.and_eq_true, bne_iff_ne, ne_eq]
  refine ⟨⟨⟨?_, ?_⟩, ?_⟩, ?_⟩ <;> rintro rfl <;> exact absurd h (by decide)

theorem all_isTight_of_isIdentifier {t : Text} (h : isIdentifier t = true) :
    t.all isTight = true := by
  refine List.all_eq_true.mpr fun c hc => ?_
  exact isTight_of_isWordChar (List.all_eq_true.mp (all_isWordChar_of_isIdentifier h) c hc)

theorem guarded_of_isIdentifier {t : Text} (h : isIdentifier t = true) : Guarded t :=
  guarded_of_all_isTight (all_isTight_of_isIdentifier h)

/-- Square brackets play no part in the nesting of parentheses. -/
theorem nestStep_of_bracketStep {stack next : List Char} {c : Char}
    (h : bracketStep stack c = some next) :
    nestStep [] (stack.count ')') c = some (next.count ')') := by
  -- a parenthesis that is closed is on the stack, so it is counted
  obtain ⟨hGoesOn, hCount⟩ := count_bracketStep .round h
  have hAllowed : ¬ (stack.count ')' = 0 ∧ (c = ')' ∨ c ∈ ([] : List Char))) := by
    rintro ⟨hZero, hc | hc⟩
    · exact hGoesOn ⟨hc, hZero⟩
    · exact nomatch hc
  rw [nestStep, if_neg hAllowed, hCount]
  rfl

theorem Bracketed.balanced {t : Text} (h : Bracketed t) : Balanced t := by
  have hRun : t.foldlM (nestStep []) 0 = some 0 :=
    foldlM_simulates (f := List.count ')') nestStep_of_bracketStep h
  exact hRun

/-- Texts with a symbol between them. -/
theorem Nested.between {inner : List Char} {s t symbol : Text} (hs : Nested inner s)
    (hSymbol : Nested inner symbol) (ht : Nested inner t) :
    Balanced (s ++ " " ++ symbol ++ " " ++ t) := by
  have hBlank : Balanced " " := by decide
  exact (((hs.balanced.append hBlank).append hSymbol.balanced).append hBlank).append ht.balanced

theorem balanced_join {ts : List Text} (h : ∀ t ∈ ts, Balanced t) :
    Balanced (join ", " ts) := by
  induction ts with
  | nil => exact rfl
  | cons t ts ih =>
      cases ts with
      | nil => exact h t (.head _)
      | cons u ts =>
          have hComma : Balanced ", " := by decide
          rw [join_cons_cons]
          exact ((h t (.head _)).append hComma).append (ih fun v hv => h v (.tail _ hv))

/-- A head before arguments in parentheses. -/
theorem Nested.call {head : Text} (hHead : Guarded head) {args : List Text}
    (hArgs : ∀ arg ∈ args, Balanced arg) : Guarded (head ++ "(" ++ join ", " args ++ ")") := by
  have hText : head ++ "(" ++ join ", " args ++ ")" = head ++ ("(" ++ join ", " args ++ ")") := by
    simp
  rw [hText]
  exact hHead.append (balanced_join hArgs).parenthesized

/-! ## Words outside parentheses -/

/-- The words of a text that are divided by the blanks outside its parentheses: the first
one, and the others. -/
def outerWords : Nat → Text → Text × List Text
  | _, [] => ([], [])
  | depth, c :: t =>
    let rest := outerWords (roundDepth depth c) t
    if c = ' ' ∧ depth = 0 then ([], rest.1 :: rest.2) else (c :: rest.1, rest.2)

/-- A guarded run stays in one word. -/
theorem outerWords_append {t : Text} {depth last : Nat}
    (h : t.foldlM (nestStep [' ', ',']) depth = some last) (rest : Text) :
    outerWords depth (t ++ rest) = (t ++ (outerWords last rest).1, (outerWords last rest).2) := by
  induction t generalizing depth with
  | nil =>
      cases h
      rfl
  | cons c t ih =>
      rw [List.foldlM_cons, nestStep] at h
      split at h
      · exact nomatch h
      · next hAllowed =>
        have hNoCut : ¬ (c = ' ' ∧ depth = 0) := fun hCut =>
          hAllowed ⟨hCut.2, .inr (hCut.1 ▸ .head _)⟩
        rw [List.cons_append, outerWords, ih h, if_neg hNoCut]
        rfl

/-- Guarded texts with a symbol between them are its words outside parentheses. -/
theorem outerWords_between {s t symbol : Text} (hs : Guarded s) (hSymbol : Guarded symbol)
    (ht : Guarded t) : outerWords 0 (s ++ " " ++ symbol ++ " " ++ t) = (s, [symbol, t]) := by
  have hBlank (rest : Text) :
      outerWords 0 (' ' :: rest) = ([], (outerWords 0 rest).1 :: (outerWords 0 rest).2) := rfl
  have hText : s ++ " " ++ symbol ++ " " ++ t = s ++ ' ' :: (symbol ++ ' ' :: t) := by simp
  have hLast : outerWords 0 t = (t, []) := by
    have hRun := outerWords_append ht []
    rwa [List.append_nil, outerWords, List.append_nil] at hRun
  rw [hText, outerWords_append hs, hBlank, outerWords_append hSymbol, hBlank, hLast]
  simp

end Text

/-! ## Texts of operators -/

namespace Form

/-- What a form writes outside the parentheses of its operands is tight. -/
def isTight : Form → Bool
  | between symbol | leading symbol | select symbol | call symbol => symbol.all Text.isTight
  | cast type => type.all Text.isPlainChar

variable {form : Form} {lhs rhs operand : Text}

/-- A type in parentheses before an operand in parentheses. -/
theorem guarded_cast {type : Text} (hType : type.all Text.isPlainChar = true)
    (hOperand : Text.Balanced operand) :
    Text.Guarded ("(" ++ type ++ ")(" ++ operand ++ ")") := by
  have hTyped : Text.Balanced type := (Text.sealed_of_all_isPlainChar hType).bracketed.balanced
  have hText : "(" ++ type ++ ")(" ++ operand ++ ")" =
      ("(" ++ type ++ ")") ++ ("(" ++ operand ++ ")") := by
    simp
  rw [hText]
  exact hTyped.parenthesized.append hOperand.parenthesized

/-- An operation on one operand is guarded. -/
theorem guarded_unaryText (hForm : form.isTight = true) (hOperand : Text.Balanced operand) :
    Text.Guarded (form.unaryText operand) := by
  have hOne : ∀ t ∈ [operand], Text.Balanced t := by
    intro t ht
    rw [List.mem_singleton.mp ht]
    exact hOperand
  cases form with
  | between symbol | leading symbol | select symbol | call symbol =>
      exact .call (Text.guarded_of_all_isTight hForm) hOne
  | cast type => exact guarded_cast hForm hOperand

/-- An operation on two operands is guarded, unless it stands between them. -/
theorem guarded_binaryText (hForm : form.isTight = true) (hGroups : form.needsGrouping = false)
    (hLhs : Text.Balanced lhs) (hRhs : Text.Balanced rhs) :
    Text.Guarded (form.binaryText lhs rhs) := by
  have hBoth : ∀ t ∈ [lhs, rhs], Text.Balanced t := by
    intro t ht
    rcases List.mem_cons.mp ht with rfl | ht
    · exact hLhs
    · rw [List.mem_singleton.mp ht]
      exact hRhs
  have hCall {head : Text} (hHead : head.all Text.isTight = true) :
      Text.Guarded (head ++ "(" ++ lhs ++ ", " ++ rhs ++ ")") := by
    have hWhole := Text.Nested.call (Text.guarded_of_all_isTight hHead) hBoth
    simpa using hWhole
  cases form with
  | between symbol => exact nomatch hGroups
  | leading symbol => exact hCall hForm
  | call function => exact hCall hForm
  | cast type => exact guarded_cast hForm hLhs
  | select comparison =>
      have hTest := hLhs.parenthesized.between (Text.guarded_of_all_isTight hForm)
        hRhs.parenthesized
      have hChoices := hLhs.parenthesized.between (by decide : Text.Guarded ":") hRhs.parenthesized
      have hWhole := (hTest.between (by decide : Text.Balanced "?") hChoices).parenthesized
      show Text.Guarded ("((" ++ lhs ++ ") " ++ comparison ++ " (" ++ rhs ++ ") ? (" ++
        lhs ++ ") : (" ++ rhs ++ "))")
      simpa using hWhole

theorem balanced_binaryText (hForm : form.isTight = true) (hLhs : Text.Balanced lhs)
    (hRhs : Text.Balanced rhs) : Text.Balanced (form.binaryText lhs rhs) := by
  cases hGroups : form.needsGrouping with
  | false => exact (guarded_binaryText hForm hGroups hLhs hRhs).balanced
  | true =>
      cases form with
      | between symbol => exact hLhs.between (Text.guarded_of_all_isTight hForm).balanced hRhs
      | leading | call | cast | select => exact nomatch hGroups

theorem Regular.isTight {count : Nat} (h : Regular count form) : form.isTight = true := by
  cases h with
  | between h | select h | leading h =>
      exact List.all_eq_true.mpr fun c hc => Text.isTight_of_isMark (List.all_eq_true.mp h c hc)
  | cast h => exact h
  | @call function h =>
      simp only [isFunctionName, Bool.and_eq_true] at h
      exact Text.all_isTight_of_isIdentifier h.1.1

end Form

/-! ## Texts of symbols -/

/-- The operator of a kind, if it has one. -/
def Kind.form? : Kind → Option Form
  | .binary _ form | .unary _ form => some form
  | _ => none

/-- A text of the kind is balanced, and guarded unless the kind is exposed. -/
def Kind.Groups (kind : Kind) (text : Text) : Prop :=
  Text.Balanced text ∧ (kind.isExposed = false → Text.Guarded text)

theorem Kind.groups_of_guarded {kind : Kind} {text : Text} (h : Text.Guarded text) :
    kind.Groups text := ⟨h.balanced, fun _ => h⟩

namespace Symbol

variable {s : Symbol} {text : Text}

/-- The name and the operator of a symbol bring no parenthesis, blank or comma. -/
structure Tight (s : Symbol) : Prop where
  handle : Text.isIdentifier s.handle = true
  form : ∀ form, s.kind.form? = some form → form.isTight = true

/-- The element of an array is a call, whose arguments are in parentheses. -/
theorem Tight.guarded_broadcast (hTight : s.Tight) {domain : Shape}
    (hText : s.broadcast domain = .ok text) : Text.Guarded text := by
  cases hShape : s.shape? with
  | none =>
      unfold broadcast elementRef at hText
      rw [hShape] at hText
      exact nomatch hText
  | some shape =>
      obtain ⟨indices, hIndices, rfl⟩ := (broadcast_eq_ok_iff hShape).mp hText
      obtain ⟨-, hReadable⟩ := Shape.isReadable_of_broadcastIndices? hIndices
      have hName : Text.isIdentifier s.accessName = true :=
        Text.isIdentifier_append hTight.handle (by decide)
      refine .call (Text.guarded_of_isIdentifier hName) fun arg hArg => ?_
      obtain ⟨e, he, rfl⟩ := List.mem_map.mp hArg
      exact (IndexExpr.sealed_solid_text (hReadable e he)).1.bracketed.balanced

end Symbol

namespace Table

variable {table : Table} {p : Nat} {s : Symbol} {domain : Option Shape} {text : Text}

/-- All symbols are tight. -/
def Tight (table : Table) : Prop := ∀ p s, table.get? p = some s → s.Tight

/-- The text of the symbol at a position groups. -/
def GroupsWithin (table : Table) (p : Nat) (_ : Option Shape) (text : Text) : Prop :=
  ∀ s, table.get? p = some s → s.kind.Groups text

/-- The text of an operand is guarded if the texts of symbols group. -/
theorem Tight.guarded_asOperand (hTight : table.Tight)
    (h : table.AsOperand table.GroupsWithin domain p text) : Text.Guarded text := by
  cases h with
  | accumulator hs hKind =>
      -- the node above reads the accumulator, not the text that updates it
      exact Text.guarded_of_isIdentifier (Symbol.isIdentifier_accumulator (hTight _ _ hs).handle 1)
  | element hs hShape hDomain hText => exact (hTight _ _ hs).guarded_broadcast hText
  | grouped hs hKind hGroups hText => exact (hText _ hs).1.parenthesized
  | plain hs hExposed hArray hText => exact (hText _ hs).2 hExposed

/-- One step of rendering: the text of a symbol groups if its operands are guarded. -/
theorem Tight.groups_of_composes (hTight : table.Tight)
    (h : table.Composes (table.AsOperand table.GroupsWithin) p domain text) :
    table.GroupsWithin p domain text := by
  intro u hu
  have hForm := (hTight _ _ hu).form
  cases h with
  | array hs hShape hText => exact Kind.groups_of_guarded ((hTight _ _ hs).guarded_broadcast hText)
  | scalar hs hScalar =>
      exact Kind.groups_of_guarded (Text.guarded_of_isIdentifier (hTight _ _ hs).handle)
  | @binary s links form a b l r hs hKind ha hb hl hr =>
      cases hu.symm.trans hs
      rw [hKind] at hForm ⊢
      have hl := (hTight.guarded_asOperand hl).balanced
      have hr := (hTight.guarded_asOperand hr).balanced
      exact ⟨Form.balanced_binaryText (hForm form rfl) hl hr,
        fun hGroups => Form.guarded_binaryText (hForm form rfl) hGroups hl hr⟩
  | @unary s links form a l hs hKind ha hl =>
      cases hu.symm.trans hs
      rw [hKind] at hForm
      have hl := (hTight.guarded_asOperand hl).balanced
      exact Kind.groups_of_guarded (Form.guarded_unaryText (hForm form rfl) hl)
  | @reduction s links op scopes a l hs hKind ha hl =>
      cases hu.symm.trans hs
      rw [hKind]
      refine ⟨?_, nofun⟩
      have hTarget : Text.Guarded (u.target scopes) :=
        Text.guarded_of_isIdentifier (Symbol.isIdentifier_accumulator (hTight _ _ hu).handle _)
      have hArgs : ∀ arg ∈ [u.target scopes, l], Text.Balanced arg := by
        intro arg hArg
        rcases List.mem_cons.mp hArg with rfl | hArg
        · exact hTarget.balanced
        · rw [List.mem_singleton.mp hArg]
          exact (hTight.guarded_asOperand hl).balanced
      have hHelper := Text.guarded_of_isIdentifier (op.isIdentifier_helperName u.dtype)
      have hWhole := hTarget.between (by decide : Text.Guarded "=") (hHelper.call hArgs)
      simpa using hWhole
  | loop hs hKind ha hl =>
      -- the text of the operand goes on as it is
      exact Kind.groups_of_guarded (hTight.guarded_asOperand hl)

/-- Every operand that rendering puts into a text, to whatever depth, is guarded. -/
theorem Tight.guarded_operand (hTight : table.Tight) {depth : Nat}
    (hText : table.operandText (table.renderWithin depth) domain p = .ok text) :
    Text.Guarded text :=
  hTight.guarded_asOperand (operandText_induction hTight.groups_of_composes hText)

end Table

/-- The symbols of a lowered tree are tight if both stems are identifiers. -/
theorem Covered.tight {t : Tree} {usage : Usage} {device : Device} {settings : Settings}
    {order : List Nat} {table : Table} (hL : Covered t usage device settings order table)
    (hName : Text.isIdentifier settings.nameStem = true)
    (hCounter : Text.isIdentifier settings.inductionStem = true) : table.Tight := by
  intro p s hs
  refine ⟨?_, ?_⟩
  · rcases hL.name_cases hs with ⟨level, -, hHandle⟩ | ⟨-, hHandle⟩
    · rw [hHandle]
      exact Text.isIdentifier_append hCounter (Text.all_isWordChar_ofNat _)
    · rw [hHandle]
      exact Text.isIdentifier_append hName (Text.all_isWordChar_ofNat _)
  · intro form hForm
    cases hKind : s.kind with
    | binary =>
        rw [hKind] at hForm
        cases hForm
        exact (hL.regular_of_binary hs hKind).isTight
    | unary =>
        rw [hKind] at hForm
        cases hForm
        exact (hL.regular_of_unary hs hKind).isTight
    | buffer | hostScalar | placeholder | reduction | view | loop =>
        rw [hKind] at hForm
        exact nomatch hForm

/-- **Operands are grouped.**  If both stems are identifiers, then every text of a symbol
has its parentheses closed, and every text of an operand, in whatever loop domain, has
besides no blank and no comma outside them.  Hence an operator that stands between its
operands is, with their two texts, all that its text shows outside parentheses. -/
theorem operands_grouped {t : Tree} {root : Nat} {device : Device} {settings : Settings}
    {table : Table} (hTable : Table.ofTree t root device settings = .ok table)
    (hName : Text.isIdentifier settings.nameStem = true)
    (hCounter : Text.isIdentifier settings.inductionStem = true) :
    (∀ {p : Nat} {text : Text}, table.render p = .ok text → Text.Balanced text) ∧
      (∀ {depth p : Nat} {domain : Option Shape} {text : Text},
        table.operandText (table.renderWithin depth) domain p = .ok text →
          Text.Balanced text ∧ Text.Guarded text) ∧
      ∀ {depth p : Nat} {domain : Option Shape} {text symbol : Text} {s : Symbol} {links : Links},
        table.get? p = some s → s.kind = .binary links (.between symbol) →
        table.renderWithin (depth + 1) p domain = .ok text →
          ∃ a b lhs rhs, links.lhs = some a ∧ links.rhs = some b ∧
            table.operandText (table.renderWithin depth) (some (domain.getD links.shape)) a =
              .ok lhs ∧
            table.operandText (table.renderWithin depth) (some (domain.getD links.shape)) b =
              .ok rhs ∧
            Text.outerWords 0 text = (lhs, [symbol, rhs]) := by
  obtain ⟨order, usage, -, -, hL⟩ := Covered.of_ofTree hTable
  have hTight := hL.tight hName hCounter
  refine ⟨?_, ?_, ?_⟩
  · intro p text hText
    have hGroups := Table.renderWithin_induction hTight.groups_of_composes hText
    obtain ⟨s, hs⟩ := (Table.composes_of_renderWithin hText).exists_symbol
    exact (hGroups s hs).1
  · intro depth p domain text hText
    have hGuarded := hTight.guarded_operand hText
    exact ⟨hGuarded.balanced, hGuarded⟩
  · intro depth p domain text symbol s links hs hKind hText
    obtain ⟨a, b, lhs, rhs, ha, hb, hLhs, hRhs, rfl⟩ :=
      (Table.composes_of_renderWithin hText).of_binary hs hKind
    have hForm : s.kind.form? = some (.between symbol) := by
      rw [hKind]
      rfl
    have hSymbol : (Form.between symbol).isTight = true := (hTight _ _ hs).form _ hForm
    exact ⟨a, b, lhs, rhs, ha, hb, hLhs, hRhs, Text.outerWords_between
      (hTight.guarded_operand hLhs) (Text.guarded_of_all_isTight hSymbol)
      (hTight.guarded_operand hRhs)⟩

/-- The product in the loop shows two operands outside parentheses, of which the first is a
sum; the loop around it shows none. -/
theorem operands_grouped_loopedProduct :
    ∃ table text lhs rhs loop, Table.ofTree .loopedProduct 6 .cpu {} = .ok table ∧
      table.render 5 = .ok text ∧ Text.Balanced text ∧ ¬ Text.Guarded text ∧
      Text.outerWords 0 text = (lhs, ["*".toList, rhs]) ∧ Text.Guarded lhs ∧ Text.Guarded rhs ∧
      table.operandText (table.renderWithin 4) (some [2, 2]) 6 = .ok loop ∧
      Text.Guarded loop := by
  have hEval : ((Table.ofTree .loopedProduct 6 .cpu {}).toOption.bind fun table =>
      (table.get? 5).bind fun s => (table.render 5).toOption.bind fun text =>
        (table.operandText (table.renderWithin 4) (some [2, 2]) 6).toOption.map fun _ =>
          (s.kind, decide (Text.Guarded text))) =
      some (.binary ⟨5, .binary .mul, [2, 2], some 3, some 4⟩ (.between "*"), false) := by
    decide +kernel
  obtain ⟨table, hOption, hGet⟩ := Option.bind_eq_some_iff.mp hEval
  obtain ⟨s, hs, hGet⟩ := Option.bind_eq_some_iff.mp hGet
  obtain ⟨text, hText, hGet⟩ := Option.bind_eq_some_iff.mp hGet
  obtain ⟨loop, hLoop, hPair⟩ := Option.map_eq_some_iff.mp hGet
  obtain ⟨hKind, hOpen⟩ := Prod.mk.inj hPair
  have hTable := eq_ok_of_toOption hOption
  have hRendered := eq_ok_of_toOption hText
  have hLooped := eq_ok_of_toOption hLoop
  obtain ⟨hBalanced, hOperands, hWords⟩ := operands_grouped hTable (by decide) (by decide)
  obtain ⟨_, _, lhs, rhs, -, -, hLhs, hRhs, hOuter⟩ := hWords hs hKind hRendered
  exact ⟨table, text, lhs, rhs, loop, hTable, hRendered, hBalanced hRendered,
    of_decide_eq_false hOpen, hOuter, (hOperands hLhs).2, (hOperands hRhs).2, hLooped,
    (hOperands hLooped).2⟩

end ArrayKernel
