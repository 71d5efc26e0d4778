import ArrayKernel.Proofs.Attributes
import ArrayKernel.Proofs.Broadcast
import ArrayKernel.Proofs.Image
import ArrayKernel.Table.Render

/-!
# One step of rendering

A step makes the text of a symbol from the texts of its operands.  `Symbol.Evaluates` says
what the text of a symbol is, `Table.AsOperand` how a symbol is written as an operand, and
`Table.Composes` puts both together: what one step of rendering gives, in terms of what
holds of the texts of symbols one step further down.

What every step keeps holds of every text that rendering gives, to whatever depth, and of
every operand in it.  This is the one induction over the depth; what a property needs besides
is a lemma about a step.  That there is a text at all does NOT follow in this way, since a
step can fail.
-/

namespace ArrayKernel

/-! ## The text of a symbol -/

namespace Symbol

variable {s : Symbol} {lhs rhs : Option Text} {text : Text}

theorem composed?_of_shape? {shape : Shape} (h : s.shape? = some shape) :
    s.kind.composed? = none := by
  unfold Symbol.shape? at h
  cases hKind : s.kind with
  | buffer | view | hostScalar | placeholder => rfl
  | binary | unary | reduction | loop =>
      rw [hKind] at h
      exact nomatch h

/-- An array is written as a call of its access helper with the indices of the loop
domain. -/
theorem broadcast_eq_ok_iff {shape domain : Shape} (hShape : s.shape? = some shape) :
    s.broadcast domain = .ok text ↔ ∃ indices, shape.broadcastIndices? domain = some indices ∧
      text = (ElementRef.through s.accessName indices).text := by
  unfold Symbol.broadcast Symbol.elementRef
  rw [hShape]
  dsimp only
  cases shape.broadcastIndices? domain with
  | none =>
      constructor
      · exact nofun
      · rintro ⟨indices, hIndices, -⟩
        exact nomatch hIndices
  | some found =>
      constructor
      · intro hText
        exact ⟨found, rfl, (Except.ok.inj hText).symm⟩
      · rintro ⟨indices, hIndices, rfl⟩
        cases hIndices
        rfl

/-- A host scalar or a loop counter. -/
def IsScalar (s : Symbol) : Prop := s.kind = .hostScalar ∨ ∃ level, s.kind = .placeholder level

theorem IsScalar.composed? (h : s.IsScalar) : s.kind.composed? = none := by
  rcases h with hKind | ⟨level, hKind⟩ <;> rw [hKind] <;> rfl

theorem IsScalar.shape? (h : s.IsScalar) : s.shape? = none := by
  unfold Symbol.shape?
  rcases h with hKind | ⟨level, hKind⟩ <;> rw [hKind] <;> rfl

/-- What the text of a symbol is, given the texts of its operands. -/
inductive Evaluates (s : Symbol) (lhs rhs : Option Text) : Text → Prop
  | array {shape : Shape} {text : Text} (hShape : s.shape? = some shape)
      (hText : s.broadcast shape = .ok text) : Evaluates s lhs rhs text
  | scalar (hScalar : s.IsScalar) : Evaluates s lhs rhs s.handle
  | binary {links : Links} {form : Form} {l r : Text} (hKind : s.kind = .binary links form)
      (hLhs : lhs = some l) (hRhs : rhs = some r) : Evaluates s lhs rhs (form.binaryText l r)
  | unary {links : Links} {form : Form} {l : Text} (hKind : s.kind = .unary links form)
      (hLhs : lhs = some l) : Evaluates s lhs rhs (form.unaryText l)
  | reduction {links : Links} {op : ReduceOp} {scopes : Nat} {l : Text}
      (hKind : s.kind = .reduction links op scopes) (hLhs : lhs = some l) :
      Evaluates s lhs rhs (s.target scopes ++ " = " ++ op.helperName s.dtype ++ "(" ++
        s.target scopes ++ ", " ++ l ++ ")")
  | loop {links : Links} {bounds : LoopBounds} {stem l : Text}
      (hKind : s.kind = .loop links bounds stem) (hLhs : lhs = some l) : Evaluates s lhs rhs l

theorem operandText_eq_ok {slot : Slot} {operand : Option Text} :
    s.operandText slot operand = .ok text ↔ operand = some text := by
  cases operand with
  | none => exact ⟨nofun, nofun⟩
  | some t =>
      show Except.ok t = .ok text ↔ some t = some text
      simp

theorem Evaluates.of_evaluate (h : s.evaluate lhs rhs = .ok text) : s.Evaluates lhs rhs text := by
  have hScalar (hIs : s.IsScalar) (hName : s.attr "name" = .ok text) :
      s.Evaluates lhs rhs text := by
    cases (attr_name hIs.shape?).symm.trans hName
    exact .scalar hIs
  unfold evaluate at h
  cases hKind : s.kind with
  | buffer | view =>
      rw [hKind] at h
      refine .array ?_ h
      unfold shape?
      rw [hKind]
      rfl
  | hostScalar =>
      rw [hKind] at h
      exact hScalar (.inl hKind) h
  | placeholder level =>
      rw [hKind] at h
      exact hScalar (.inr ⟨level, hKind⟩) h
  | binary links form =>
      rw [hKind] at h
      obtain ⟨l, hl, h⟩ := bind_eq_ok.mp h
      obtain ⟨r, hr, h⟩ := bind_eq_ok.mp h
      cases h
      exact .binary hKind (operandText_eq_ok.mp hl) (operandText_eq_ok.mp hr)
  | unary links form =>
      rw [hKind] at h
      obtain ⟨l, hl, h⟩ := bind_eq_ok.mp h
      cases h
      exact .unary hKind (operandText_eq_ok.mp hl)
  | reduction links op scopes =>
      rw [hKind] at h
      dsimp only at h
      rw [attr_target hKind, ok_bind, attr_combine hKind, ok_bind] at h
      obtain ⟨l, hl, h⟩ := bind_eq_ok.mp h
      cases h
      exact .reduction hKind (operandText_eq_ok.mp hl)
  | loop links bounds stem =>
      rw [hKind] at h
      exact .loop hKind (operandText_eq_ok.mp h)

theorem Evaluates.evaluate_eq (h : s.Evaluates lhs rhs text) : s.evaluate lhs rhs = .ok text := by
  unfold evaluate
  cases h with
  | @array shape _ hShape hText =>
      unfold shape? at hShape
      cases hKind : s.kind with
      | buffer | view =>
          rw [hKind] at hShape
          cases hShape
          exact hText
      | hostScalar | placeholder | binary | unary | reduction | loop =>
          rw [hKind] at hShape
          exact nomatch hShape
  | scalar hScalar =>
      have hName := attr_name hScalar.shape?
      rcases hScalar with hKind | ⟨level, hKind⟩ <;> rw [hKind] <;> exact hName
  | binary hKind hLhs hRhs =>
      subst hLhs hRhs
      rw [hKind]
      rfl
  | unary hKind hLhs | loop hKind hLhs =>
      subst hLhs
      rw [hKind]
      rfl
  | reduction hKind hLhs =>
      subst hLhs
      rw [hKind]
      dsimp only
      rw [attr_target hKind, ok_bind, attr_combine hKind]
      rfl

/-- A symbol with one operand has a text for every text of the operand. -/
theorem exists_evaluate {links : Links} (hLinks : s.kind.composed? = some links)
    (hNot : ∀ form, s.kind ≠ .binary links form) (l : Text) :
    ∃ text, s.evaluate (some l) none = .ok text := by
  cases hKind : s.kind with
  | unary => exact ⟨_, (Evaluates.unary hKind rfl).evaluate_eq⟩
  | reduction => exact ⟨_, (Evaluates.reduction hKind rfl).evaluate_eq⟩
  | loop => exact ⟨_, (Evaluates.loop hKind rfl).evaluate_eq⟩
  | binary =>
      rw [hKind] at hLinks hNot
      cases hLinks
      exact absurd rfl (hNot _)
  | buffer | view | hostScalar | placeholder =>
      rw [hKind] at hLinks
      exact nomatch hLinks

end Symbol

/-- The text of the kind shows blanks outside parentheses. -/
def Kind.isExposed : Kind → Bool
  | .binary _ form => form.needsGrouping
  | .reduction .. => true
  | _ => false

namespace Table

variable {table : Table} {p depth : Nat} {s : Symbol} {domain : Option Shape} {text : Text}
  {P P' : Nat → Option Shape → Text → Prop} {Q Q' : Option Shape → Nat → Text → Prop}

/-! ## The text of an operand -/

/-- How the symbol at a position is written as an operand in a loop domain, given what holds
of the texts of symbols. -/
inductive AsOperand (table : Table) (P : Nat → Option Shape → Text → Prop)
    (domain : Option Shape) (p : Nat) : Text → Prop
  | accumulator {s : Symbol} {links : Links} {op : ReduceOp} {scopes : Nat}
      (hs : table.get? p = some s) (hKind : s.kind = .reduction links op scopes) :
      AsOperand table P domain p (Symbol.accumulator s.handle 1)
  | element {s : Symbol} {shape target : Shape} {text : Text} (hs : table.get? p = some s)
      (hShape : s.shape? = some shape) (hDomain : domain = some target)
      (hText : s.broadcast target = .ok text) : AsOperand table P domain p text
  | grouped {s : Symbol} {links : Links} {form : Form} {text : Text} (hs : table.get? p = some s)
      (hKind : s.kind = .binary links form) (hGroups : form.needsGrouping = true)
      (hText : P p domain text) : AsOperand table P domain p ("(" ++ text ++ ")")
  | plain {s : Symbol} {text : Text} (hs : table.get? p = some s)
      (hExposed : s.kind.isExposed = false) (hArray : s.isArray = true → domain = none)
      (hText : P p domain text) : AsOperand table P domain p text

theorem AsOperand.mono (h : table.AsOperand P domain p text)
    (hP : ∀ {text}, P p domain text → P' p domain text) : table.AsOperand P' domain p text := by
  cases h with
  | accumulator hs hKind => exact .accumulator hs hKind
  | element hs hShape hDomain hText => exact .element hs hShape hDomain hText
  | grouped hs hKind hGroups hText => exact .grouped hs hKind hGroups (hP hText)
  | plain hs hExposed hArray hText => exact .plain hs hExposed hArray (hP hText)

theorem AsOperand.exists_symbol (h : table.AsOperand P domain p text) :
    ∃ s, table.get? p = some s := by
  cases h with
  | accumulator hs | element hs | grouped hs | plain hs => exact ⟨_, hs⟩

section

variable {render : Nat → Option Shape → Except SymbolError Text}

theorem AsOperand.of_operandText (h : table.operandText render domain p = .ok text) :
    table.AsOperand (fun q inner t => render q inner = .ok t) domain p text := by
  unfold operandText at h
  obtain ⟨s, hLookup, h⟩ := bind_eq_ok.mp h
  have hs := lookup_eq_ok_iff.mp hLookup
  have hNoArray (hShape : s.kind.shape? = none) : s.isArray = true → domain = none := by
    unfold Symbol.isArray Symbol.shape?
    rw [hShape]
    exact nofun
  cases hKind : s.kind with
  | reduction links op scopes =>
      rw [hKind] at h
      cases (Symbol.attr_acc hKind).symm.trans h
      exact .accumulator hs hKind
  | binary links form =>
      rw [hKind] at h hNoArray
      obtain ⟨inner, hInner, h⟩ := bind_eq_ok.mp h
      cases h
      cases hGroups : form.needsGrouping with
      | true => exact .grouped hs hKind hGroups hInner
      | false => exact .plain hs (by rw [hKind]; exact hGroups) (hNoArray rfl) hInner
  | buffer | view =>
      rw [hKind] at h
      -- without a loop domain around it, an array is written as it is by itself
      cases domain with
      | none => exact .plain hs (by rw [hKind]; rfl) (fun _ => rfl) h
      | some target =>
          obtain ⟨shape, hShape⟩ : ∃ shape, s.shape? = some shape := by
            unfold Symbol.shape?
            rw [hKind]
            exact ⟨_, rfl⟩
          exact .element hs hShape rfl h
  | hostScalar | placeholder | unary | loop =>
      rw [hKind] at h hNoArray
      exact .plain hs (by rw [hKind]; rfl) (hNoArray rfl) h

theorem AsOperand.operandText_eq
    (h : table.AsOperand (fun q inner t => render q inner = .ok t) domain p text) :
    table.operandText render domain p = .ok text := by
  unfold operandText
  cases h with
  | accumulator hs hKind =>
      rw [lookup_eq_ok_iff.mpr hs, ok_bind, hKind]
      exact Symbol.attr_acc hKind
  | @element s shape target _ hs hShape hDomain hText =>
      subst hDomain
      unfold Symbol.shape? at hShape
      rw [lookup_eq_ok_iff.mpr hs, ok_bind]
      cases hKind : s.kind with
      | buffer | view => exact hText
      | hostScalar | placeholder | binary | unary | reduction | loop =>
          rw [hKind] at hShape
          exact nomatch hShape
  | grouped hs hKind hGroups hText =>
      rw [lookup_eq_ok_iff.mpr hs, ok_bind, hKind]
      dsimp only
      rw [hText, ok_bind, hGroups]
      rfl
  | @plain s _ hs hExposed hArray hText =>
      rw [lookup_eq_ok_iff.mpr hs, ok_bind]
      unfold Symbol.isArray Symbol.shape? at hArray
      cases hKind : s.kind with
      | reduction =>
          rw [hKind] at hExposed
          exact nomatch hExposed
      | binary links form =>
          have hPlain : form.needsGrouping = false := by
            rw [hKind] at hExposed
            exact hExposed
          dsimp only
          rw [hText, ok_bind, hPlain]
          rfl
      | buffer | view =>
          rw [hKind] at hArray
          cases hArray rfl
          exact hText
      | hostScalar | placeholder | unary | loop => exact hText

end

/-! ## One step -/

theorem renderWithin_leaf (hs : table.get? p = some s) (hLeaf : s.kind.composed? = none) :
    table.renderWithin (depth + 1) p domain = s.evaluate none none := by
  have hLookup : table.lookup p = .ok s := lookup_eq_ok_iff.mpr hs
  unfold renderWithin
  rw [hLookup]
  dsimp only [bind, Except.bind]
  rw [hLeaf]

theorem renderWithin_composed {links : Links} {lhs rhs : Option Text}
    (hs : table.get? p = some s) (hLinks : s.kind.composed? = some links)
    (hLhs : table.operandText? (table.renderWithin depth) (operandDomain s links domain) links.lhs =
      .ok lhs)
    (hRhs : table.operandText? (table.renderWithin depth) (operandDomain s links domain) links.rhs =
      .ok rhs) :
    table.renderWithin (depth + 1) p domain = s.evaluate lhs rhs := by
  have hLookup : table.lookup p = .ok s := lookup_eq_ok_iff.mpr hs
  unfold renderWithin
  rw [hLookup]
  dsimp only [bind, Except.bind]
  rw [hLinks]
  dsimp only
  rw [hLhs, hRhs]

/-- The text of an array is a call of its access helper. -/
theorem render_array {shape : Shape} (hs : table.get? p = some s)
    (hShape : s.shape? = some shape) :
    ∃ indices, shape.broadcastIndices? shape = some indices ∧
      table.render p = .ok (ElementRef.through s.accessName indices).text := by
  obtain ⟨indices, hIndices⟩ := Shape.exists_broadcastIndices? (Shape.Fits.refl shape)
  have hText := (Symbol.broadcast_eq_ok_iff hShape).mpr ⟨indices, hIndices, rfl⟩
  refine ⟨indices, hIndices, ?_⟩
  exact (renderWithin_leaf hs (Symbol.composed?_of_shape? hShape)).trans
    (Symbol.Evaluates.array hShape hText).evaluate_eq

/-- What one step of rendering gives for the symbol at a position in a loop domain, given what
holds of operands in loop domains. -/
inductive Composes (table : Table) (Q : Option Shape → Nat → Text → Prop) (p : Nat)
    (domain : Option Shape) : Text → Prop
  | array {s : Symbol} {shape : Shape} {text : Text} (hs : table.get? p = some s)
      (hShape : s.shape? = some shape) (hText : s.broadcast shape = .ok text) :
      Composes table Q p domain text
  | scalar {s : Symbol} (hs : table.get? p = some s) (hScalar : s.IsScalar) :
      Composes table Q p domain s.handle
  | binary {s : Symbol} {links : Links} {form : Form} {a b : Nat} {l r : Text}
      (hs : table.get? p = some s) (hKind : s.kind = .binary links form)
      (ha : links.lhs = some a) (hb : links.rhs = some b)
      (hl : Q (some (domain.getD links.shape)) a l) (hr : Q (some (domain.getD links.shape)) b r) :
      Composes table Q p domain (form.binaryText l r)
  | unary {s : Symbol} {links : Links} {form : Form} {a : Nat} {l : Text}
      (hs : table.get? p = some s) (hKind : s.kind = .unary links form) (ha : links.lhs = some a)
      (hl : Q (some (domain.getD links.shape)) a l) :
      Composes table Q p domain (form.unaryText l)
  | reduction {s : Symbol} {links : Links} {op : ReduceOp} {scopes a : Nat} {l : Text}
      (hs : table.get? p = some s) (hKind : s.kind = .reduction links op scopes)
      (ha : links.lhs = some a) (hl : Q none a l) :
      Composes table Q p domain (s.target scopes ++ " = " ++ op.helperName s.dtype ++ "(" ++
        s.target scopes ++ ", " ++ l ++ ")")
  | loop {s : Symbol} {links : Links} {bounds : LoopBounds} {stem : Text} {a : Nat} {l : Text}
      (hs : table.get? p = some s) (hKind : s.kind = .loop links bounds stem)
      (ha : links.lhs = some a) (hl : Q (some (domain.getD links.shape)) a l) :
      Composes table Q p domain l

theorem Composes.mono (h : table.Composes Q p domain text)
    (hQ : ∀ {inner c l}, Q inner c l → Q' inner c l) : table.Composes Q' p domain text := by
  cases h with
  | array hs hShape hText => exact .array hs hShape hText
  | scalar hs hScalar => exact .scalar hs hScalar
  | binary hs hKind ha hb hl hr => exact .binary hs hKind ha hb (hQ hl) (hQ hr)
  | unary hs hKind ha hl => exact .unary hs hKind ha (hQ hl)
  | reduction hs hKind ha hl => exact .reduction hs hKind ha (hQ hl)
  | loop hs hKind ha hl => exact .loop hs hKind ha (hQ hl)

theorem Composes.exists_symbol (h : table.Composes Q p domain text) :
    ∃ s, table.get? p = some s := by
  cases h with
  | array hs | scalar hs | binary hs | unary hs | reduction hs | loop hs => exact ⟨_, hs⟩

theorem Composes.of_binary {links : Links} {form : Form} (h : table.Composes Q p domain text)
    (hs : table.get? p = some s) (hKind : s.kind = .binary links form) :
    ∃ a b l r, links.lhs = some a ∧ links.rhs = some b ∧
      Q (some (domain.getD links.shape)) a l ∧ Q (some (domain.getD links.shape)) b r ∧
        text = form.binaryText l r := by
  cases h with
  | binary hs' hKind' ha hb hl hr =>
      cases hs.symm.trans hs'
      cases hKind.symm.trans hKind'
      exact ⟨_, _, _, _, ha, hb, hl, hr, rfl⟩
  | array hs' hShape =>
      cases hs.symm.trans hs'
      rw [Symbol.shape?, hKind] at hShape
      exact nomatch hShape
  | scalar hs' hScalar =>
      cases hs.symm.trans hs'
      have hNone := hScalar.composed?
      rw [hKind] at hNone
      exact nomatch hNone
  | unary hs' hKind' | reduction hs' hKind' | loop hs' hKind' =>
      cases hs.symm.trans hs'
      cases hKind.symm.trans hKind'

theorem Composes.of_reduction {links : Links} {op : ReduceOp} {scopes : Nat}
    (h : table.Composes Q p domain text) (hs : table.get? p = some s)
    (hKind : s.kind = .reduction links op scopes) :
    ∃ a l, links.lhs = some a ∧ Q none a l ∧ text = s.target scopes ++ " = " ++
      op.helperName s.dtype ++ "(" ++ s.target scopes ++ ", " ++ l ++ ")" := by
  cases h with
  | reduction hs' hKind' ha hl =>
      cases hs.symm.trans hs'
      cases hKind.symm.trans hKind'
      exact ⟨_, _, ha, hl, rfl⟩
  | array hs' hShape =>
      cases hs.symm.trans hs'
      rw [Symbol.shape?, hKind] at hShape
      exact nomatch hShape
  | scalar hs' hScalar =>
      cases hs.symm.trans hs'
      have hNone := hScalar.composed?
      rw [hKind] at hNone
      exact nomatch hNone
  | binary hs' hKind' | unary hs' hKind' | loop hs' hKind' =>
      cases hs.symm.trans hs'
      cases hKind.symm.trans hKind'

theorem operandText?_some {render : Nat → Option Shape → Except SymbolError Text}
    {link : Option Nat} {c : Nat} (hLink : link = some c)
    (h : table.operandText render domain c = .ok text) :
    table.operandText? render domain link = .ok (some text) := by
  rw [hLink]
  show (table.operandText render domain c).map some = _
  rw [h]
  rfl

theorem exists_of_operandText? {render : Nat → Option Shape → Except SymbolError Text}
    {link : Option Nat} (h : table.operandText? render domain link = .ok (some text)) :
    ∃ c, link = some c ∧ table.operandText render domain c = .ok text := by
  cases link with
  | none => exact nomatch h
  | some c =>
      have hMap : (table.operandText render domain c).map some = .ok (some text) := h
      refine ⟨c, rfl, ?_⟩
      cases hOperand : table.operandText render domain c with
      | error e =>
          rw [hOperand] at hMap
          exact nomatch hMap
      | ok inner =>
          rw [hOperand] at hMap
          cases hMap
          rfl

theorem composes_of_renderWithin (h : table.renderWithin (depth + 1) p domain = .ok text) :
    table.Composes (fun inner c l => table.operandText (table.renderWithin depth) inner c = .ok l)
      p domain text := by
  unfold renderWithin at h
  obtain ⟨s, hLookup, h⟩ := bind_eq_ok.mp h
  have hs := lookup_eq_ok_iff.mp hLookup
  cases hLinks : s.kind.composed? with
  | none =>
      rw [hLinks] at h
      -- no operands are rendered for a leaf, so the forms that need one are out
      cases Symbol.Evaluates.of_evaluate h with
      | array hShape hText => exact .array hs hShape hText
      | scalar hScalar => exact .scalar hs hScalar
      | binary hKind hLhs | unary hKind hLhs | reduction hKind hLhs | loop hKind hLhs =>
          exact nomatch hLhs
  | some links =>
      rw [hLinks] at h
      obtain ⟨lhs, hl, h⟩ := bind_eq_ok.mp h
      obtain ⟨rhs, hr, h⟩ := bind_eq_ok.mp h
      unfold operandDomain at hl hr
      cases Symbol.Evaluates.of_evaluate h with
      | array hShape =>
          rw [Symbol.composed?_of_shape? hShape] at hLinks
          exact nomatch hLinks
      | scalar hScalar =>
          rw [hScalar.composed?] at hLinks
          exact nomatch hLinks
      | binary hKind hLhs hRhs =>
          subst hLhs hRhs
          rw [hKind] at hLinks hl hr
          cases hLinks
          obtain ⟨a, ha, hl⟩ := exists_of_operandText? hl
          obtain ⟨b, hb, hr⟩ := exists_of_operandText? hr
          exact .binary hs hKind ha hb hl hr
      | unary hKind hLhs =>
          subst hLhs
          rw [hKind] at hLinks hl
          cases hLinks
          obtain ⟨a, ha, hl⟩ := exists_of_operandText? hl
          exact .unary hs hKind ha hl
      | reduction hKind hLhs =>
          subst hLhs
          rw [hKind] at hLinks hl
          cases hLinks
          obtain ⟨a, ha, hl⟩ := exists_of_operandText? hl
          exact .reduction hs hKind ha hl
      | loop hKind hLhs =>
          subst hLhs
          rw [hKind] at hLinks hl
          cases hLinks
          obtain ⟨a, ha, hl⟩ := exists_of_operandText? hl
          exact .loop hs hKind ha hl

/-! ## All steps -/

section

variable (hStep : ∀ {p : Nat} {domain : Option Shape} {text : Text},
  table.Composes (table.AsOperand P) p domain text → P p domain text)

include hStep

/-- What every step keeps holds one step further down, to whatever depth. -/
theorem composes_renderWithin (h : table.renderWithin depth p domain = .ok text) :
    table.Composes (table.AsOperand P) p domain text := by
  -- on the depth, which is one less for the operands, in other positions and loop domains
  induction depth generalizing p domain text with
  | zero => exact nomatch h
  | succ depth ih =>
      refine (composes_of_renderWithin h).mono fun hOperand => ?_
      exact (AsOperand.of_operandText hOperand).mono fun hText => hStep (ih hText)

/-- What every step keeps holds of every text that rendering gives. -/
theorem renderWithin_induction (h : table.renderWithin depth p domain = .ok text) :
    P p domain text :=
  hStep (composes_renderWithin hStep h)

/-- What every step keeps holds behind every operand. -/
theorem operandText_induction
    (h : table.operandText (table.renderWithin depth) domain p = .ok text) :
    table.AsOperand P domain p text :=
  (AsOperand.of_operandText h).mono fun hText => renderWithin_induction hStep hText

end

end Table
end ArrayKernel
