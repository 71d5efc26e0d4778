import ArrayKernel.Proofs.Entries
import ArrayKernel.Proofs.Passes

/-!
# Rounds of expansion

A round makes one pass per helper.  The call of an access helper moves on when the pass
of that helper comes, and perhaps again in the same round if the helper that it moves on
to comes later.  `Takes` counts the rounds that a call needs in a given order of the
helpers; `Settles` bounds them in any order by the number of helpers in the chain.

An expression is made of calls of access helpers by operators, and a statement of a
reduction has one call of a combining helper around an expression.  Rounds work on the
calls in them independently, so the result does not depend on the order of the helpers.

The number of rounds of a call does depend on the order, and a call that needs more
rounds than are made is NOT expanded to the end.
-/

namespace ArrayKernel

/-! ## Running rounds -/

section

variable {helpers : List Helper} {P : List Helper → Nat → Text → Prop}
  (hStep : ∀ {g : Helper} {todo : List Helper} {n : Nat} {t : Text}, g ∈ helpers →
    P (g :: todo) n t → ∃ next, g.expand t = some next ∧ P todo n next)

include hStep

/-- What every pass preserves holds after the rest of a round. -/
theorem expandRound_of_steps {todo : List Helper} (hTodo : ∀ g ∈ todo, g ∈ helpers) {n : Nat}
    {t : Text} (ht : P todo n t) : ∃ next, expandRound todo t = some next ∧ P [] n next := by
  induction todo generalizing t with
  | nil => exact ⟨t, rfl, ht⟩
  | cons g todo ih =>
      obtain ⟨middle, hExpand, hMiddle⟩ := hStep (hTodo g (.head _)) ht
      obtain ⟨next, hRound, hNext⟩ := ih (fun f hf => hTodo f (.tail _ hf)) hMiddle
      refine ⟨next, ?_, hNext⟩
      show (g.expand t).bind (expandRound todo) = some next
      rw [hExpand]
      exact hRound

/-- If a round can begin with one round less to go, then after some rounds as many fewer
are left. -/
theorem expandRounds_of_steps
    (hTurn : ∀ {n : Nat} {t : Text}, P [] (n + 1) t → P helpers n t) (rounds left : Nat)
    {t : Text} (ht : P [] (rounds + left) t) :
    ∃ result, expandRounds helpers rounds t = some result ∧ P [] left result := by
  induction rounds generalizing t with
  | zero =>
      rw [Nat.zero_add] at ht
      exact ⟨t, rfl, ht⟩
  | succ rounds ih =>
      rw [Nat.succ_add] at ht
      obtain ⟨next, hRound, hNext⟩ := expandRound_of_steps hStep (fun _ hg => hg) (hTurn ht)
      obtain ⟨result, hRounds, hResult⟩ := ih hNext
      refine ⟨result, ?_, hResult⟩
      rw [expandRounds, hRound, Option.bind_some]
      split
      · next hFixed =>
        -- the round has changed nothing, so the further rounds have not either
        rw [hFixed] at hRound hRounds
        exact (expandRounds_of_fixed hRound rounds).symm.trans hRounds
      · exact hRounds

end

/-! ## Calls of access helpers -/

/-- An operand that calls nothing. -/
structure Text.IsAtom (t : Text) : Prop extends Text.IsOperand t where
  quiet : Text.callNames (Text.pieces t) = []

namespace Text.IsAtom

theorem of_isIdentifier {t : Text} (h : isIdentifier t = true) : IsAtom t :=
  ⟨.of_isIdentifier h, callNames_pieces_word (all_isWordChar_of_isIdentifier h)⟩

theorem of_isReadable {e : IndexExpr} (h : e.isReadable = true) : IsAtom e.text :=
  ⟨.of_isReadable h, IndexExpr.callNames_text h⟩

theorem callNames_join {args : List Text} (h : ∀ arg ∈ args, IsAtom arg) :
    callNames (pieces (join ", " args)) = [] := by
  induction args with
  | nil => rfl
  | cons arg args ih =>
      have hArg := (h arg (.head _)).quiet
      cases args with
      | nil => exact hArg
      | cons next args =>
          have hRest := ih fun a ha => h a (.tail _ ha)
          have hComma : Parted arg (", " ++ join ", " (next :: args)) :=
            .inr (detached_cons (by decide) (by decide) _)
          have hBlank : Parted ", " (join ", " (next :: args)) := .inl (by decide)
          rw [join_cons_cons, List.append_assoc, callNames_append hComma, callNames_append hBlank,
            hArg, hRest]
          rfl

end Text.IsAtom

namespace Helper

/-- The text of a call. -/
def callOf (h : Helper) (args : List Text) : Text := h.name ++ ("(" ++ Text.join ", " args ++ ")")

/-- The helper is an access helper, and the arguments are all that it needs. -/
structure Accesses (h : Helper) (args : List Text) : Prop where
  identifier : Text.isIdentifier h.name = true
  access : isAccessName h.name = true
  arity : args.length = h.arity
  atom : ∀ arg ∈ args, Text.IsAtom arg

namespace Accesses

variable {h : Helper} {args : List Text}

theorem callNames_callOf (hCall : h.Accesses args) :
    Text.callNames (Text.pieces (h.callOf args)) = [h.name] := by
  have hText : h.callOf args = h.name ++ '(' :: (Text.join ", " args ++ ")") := by simp [callOf]
  have hClose : Text.Parted (Text.join ", " args) ")" :=
    .inr (Text.detached_cons (by decide) (by decide) _)
  rw [hText, Text.callNames_word_append (Text.all_isWordChar_of_isIdentifier hCall.identifier)
      (by decide), if_pos ⟨Text.ne_nil_of_isIdentifier hCall.identifier, rfl⟩,
    Text.callNames_append hClose, Text.IsAtom.callNames_join hCall.atom]
  rfl

theorem isOperand_callOf (hCall : h.Accesses args) : Text.IsOperand (h.callOf args) :=
  .call hCall.identifier fun arg hArg => (hCall.atom arg hArg).toIsOperand

end Accesses

end Helper

/-- With the passes of some helpers left in a round, the first text becomes the second, and
rounds as many as the number are begun until then. -/
inductive Takes (helpers : List Helper) : List Helper → Nat → Text → Text → Prop
  /-- Nothing is called. -/
  | atom {todo : List Helper} {t : Text} (hAtom : Text.IsAtom t) : Takes helpers todo 0 t t
  /-- The pass of another helper changes nothing. -/
  | other {h g : Helper} {todo : List Helper} {n : Nat} {args : List Text} {result : Text}
      (hCall : h.Accesses args) (hne : g.name ≠ h.name)
      (hRest : Takes helpers todo n (h.callOf args) result) :
      Takes helpers (g :: todo) n (h.callOf args) result
  /-- The pass of the helper puts its body in the place of the call. -/
  | own {h : Helper} {todo : List Helper} {n : Nat} {args : List Text} {result : Text}
      (hCall : h.Accesses args) (hRest : Takes helpers todo n (h.fill args) result) :
      Takes helpers (h :: todo) n (h.callOf args) result
  /-- The call is left for the next round. -/
  | turn {h : Helper} {n : Nat} {args : List Text} {result : Text} (hMem : h ∈ helpers)
      (hCall : h.Accesses args) (hRest : Takes helpers helpers n (h.callOf args) result) :
      Takes helpers [] (n + 1) (h.callOf args) result

namespace Takes

variable {helpers todo : List Helper} {n : Nat} {x result : Text} {g h : Helper}
  {args : List Text}

theorem isOperand (hx : Takes helpers todo n x result) : Text.IsOperand x := by
  cases hx with
  | atom hAtom => exact hAtom.toIsOperand
  | other hCall => exact hCall.isOperand_callOf
  | own hCall => exact hCall.isOperand_callOf
  | turn hMem hCall => exact hCall.isOperand_callOf

/-- One pass. -/
theorem step (hName : Text.isIdentifier g.name = true)
    (hx : Takes helpers (g :: todo) n x result) :
    ∃ next, g.Rewrites x next ∧ Takes helpers todo n next result := by
  cases hx with
  | atom hAtom =>
      refine ⟨x, .of_not_called hName ?_, .atom hAtom⟩
      rw [hAtom.quiet]
      exact List.not_mem_nil
  | other hCall hne hRest =>
      refine ⟨_, .of_not_called hName ?_, hRest⟩
      rw [hCall.callNames_callOf, List.mem_singleton]
      exact hne
  | own hCall hRest =>
      exact ⟨_, .call hName hCall.arity fun arg hArg => (hCall.atom arg hArg).toIsOperand, hRest⟩

/-- The pass of a helper that accesses no elements comes and goes. -/
theorem skip (hOther : isAccessName g.name = false) (hx : Takes helpers (g :: todo) n x result) :
    Takes helpers todo n x result := by
  cases hx with
  | atom hAtom => exact .atom hAtom
  | other hCall hne hRest => exact hRest
  | own hCall hRest =>
      rw [hCall.access] at hOther
      cases hOther

theorem next (hx : Takes helpers [] (n + 1) x result) : Takes helpers helpers n x result := by
  cases hx with
  | turn hMem hCall hRest => exact hRest

/-- A text that needs a round calls a helper. -/
theorem exists_called (hx : Takes helpers [] (n + 1) x result) :
    ∃ h ∈ helpers, h.name ∈ Text.callNames (Text.pieces x) := by
  cases hx with
  | @turn h n args result hMem hCall hRest =>
      refine ⟨h, hMem, ?_⟩
      rw [hCall.callNames_callOf]
      exact .head _

theorem eq_of_zero (hx : Takes helpers [] 0 x result) : x = result ∧ Text.IsAtom result := by
  cases hx with
  | atom hAtom => exact ⟨rfl, hAtom⟩

/-- The passes of other helpers come and go. -/
theorem others (hCall : h.Accesses args) {before : List Helper}
    (hne : ∀ g ∈ before, g.name ≠ h.name) (hRest : Takes helpers todo n (h.callOf args) result) :
    Takes helpers (before ++ todo) n (h.callOf args) result := by
  induction before with
  | nil => exact hRest
  | cons g before ih =>
      exact .other hCall (hne g (.head _)) (ih fun f hf => hne f (.tail _ hf))

end Takes

/-- The call leads through at most the given number of helpers to a text that calls
nothing. -/
inductive Settles (helpers : List Helper) : Nat → Text → Text → Prop
  | atom {n : Nat} {t : Text} (hAtom : Text.IsAtom t) : Settles helpers n t t
  | call {h : Helper} {args : List Text} {n : Nat} {result : Text} (hMem : h ∈ helpers)
      (hCall : h.Accesses args) (hRest : Settles helpers n (h.fill args) result) :
      Settles helpers (n + 1) (h.callOf args) result

/-- Every round goes at least one helper further, in whatever order the helpers are. -/
theorem Settles.exists_takes {helpers : List Helper} {n : Nat} {x result : Text}
    (hDistinct : DistinctNames helpers) (hx : Settles helpers n x result) {todo : List Helper}
    (hTodo : ∀ g ∈ todo, g ∈ helpers) : ∃ k ≤ n, Takes helpers todo k x result := by
  induction hx generalizing todo with
  | atom hAtom => exact ⟨0, Nat.zero_le _, .atom hAtom⟩
  | @call h args n result hMem hCall hRest ih =>
      have hNames {g : Helper} (hg : g ∈ helpers) (hne : g ≠ h) : g.name ≠ h.name :=
        fun hEq => hne (hDistinct.eq_of_name_eq g hg h hMem hEq)
      -- where the pass of the helper is still to come, this round goes on with its body
      have hHere {left : List Helper} (hLeft : ∀ g ∈ left, g ∈ helpers) (hOwn : h ∈ left) :
          ∃ k ≤ n, Takes helpers left k (h.callOf args) result := by
        obtain ⟨before, behind, rfl, hNot⟩ := List.eq_append_cons_of_mem hOwn
        obtain ⟨k, hk, hTakes⟩ := ih fun g hg => hLeft g (List.mem_append_right _ (.tail _ hg))
        refine ⟨k, hk, .others hCall (fun g hg => ?_) (.own hCall hTakes)⟩
        exact hNames (hLeft g (List.mem_append_left _ hg)) fun hEq => hNot (hEq ▸ hg)
      by_cases hOwn : h ∈ todo
      · obtain ⟨k, hk, hTakes⟩ := hHere hTodo hOwn
        exact ⟨k, Nat.le_succ_of_le hk, hTakes⟩
      · obtain ⟨k, hk, hTakes⟩ := hHere (fun _ hg => hg) hMem
        have hne : ∀ g ∈ todo, g.name ≠ h.name := fun g hg =>
          hNames (hTodo g hg) fun hEq => hOwn (hEq ▸ hg)
        have hWait := Takes.others hCall hne (.turn hMem hCall hTakes)
        rw [List.append_nil] at hWait
        exact ⟨k + 1, Nat.succ_le_succ hk, hWait⟩

/-! ## Expressions -/

/-- No helper of the list has the name. -/
def Foreign (helpers : List Helper) (name : Text) (_ : Nat) : Prop :=
  ∀ h ∈ helpers, h.name ≠ name

/-- An expression whose calls of access helpers need at most the given number of rounds
more, and what it becomes. -/
inductive Leads (helpers todo : List Helper) (n : Nat) : Text → Text → Prop
  | access {k : Nat} {x result : Text} (hk : k ≤ n) (hx : Takes helpers todo k x result) :
      Leads helpers todo n x result
  | parenthesized {t result : Text} (ht : Leads helpers todo n t result) :
      Leads helpers todo n ("(" ++ t ++ ")") ("(" ++ result ++ ")")
  | unary {form : Form} {t result : Text} (hForm : form.Admits (Foreign helpers))
      (hDense : form.isDense = true) (ht : Leads helpers todo n t result) :
      Leads helpers todo n (form.unaryText t) (form.unaryText result)
  | binary {form : Form} {s t s' t' : Text} (hForm : form.Admits (Foreign helpers))
      (hDense : form.isDense = true) (hs : Leads helpers todo n s s')
      (ht : Leads helpers todo n t t') :
      Leads helpers todo n (form.binaryText s t) (form.binaryText s' t')

namespace Leads

variable {helpers todo : List Helper} {n : Nat} {t result : Text} {g : Helper}

theorem atom (ht : Text.IsAtom t) : Leads helpers todo n t t := .access (Nat.zero_le n) (.atom ht)

theorem isOperand (ht : Leads helpers todo n t result) : Text.IsOperand t := by
  induction ht with
  | access hk hx => exact hx.isOperand
  | parenthesized ht ih => exact ih.parenthesized
  | unary hForm hDense ht ih => exact Form.isOperand_unaryText hForm hDense ih
  | binary hForm hDense hs ht ihs iht => exact Form.isOperand_binaryText hForm hDense ihs iht

/-- One pass. -/
theorem step (hDistinct : DistinctNames helpers) (hMem : g ∈ helpers)
    (ht : Leads helpers (g :: todo) n t result) :
    ∃ next, g.Rewrites t next ∧ Leads helpers todo n next result := by
  have hName := hDistinct.identifier g hMem
  have hOwn (count : Nat) : ¬ Foreign helpers g.name count := fun hForeign => hForeign g hMem rfl
  induction ht with
  | access hk hx =>
      obtain ⟨next, hRewrites, hNext⟩ := hx.step hName
      exact ⟨next, hRewrites, .access hk hNext⟩
  | parenthesized ht ih =>
      obtain ⟨next, hRewrites, hNext⟩ := ih
      refine ⟨_, ?_, .parenthesized hNext⟩
      have hInside := hRewrites.closed hName (by decide : Text.isSeparator ")" = true)
      rw [List.append_assoc, List.append_assoc]
      exact hInside.behind_wordless hName (by decide)
  | unary hForm hDense ht ih =>
      obtain ⟨next, hRewrites, hNext⟩ := ih
      exact ⟨_, Form.rewrites_unaryText hName hForm hOwn hRewrites, .unary hForm hDense hNext⟩
  | binary hForm hDense hs ht ihs iht =>
      obtain ⟨left, hLeft, hNextLeft⟩ := ihs
      obtain ⟨right, hRight, hNextRight⟩ := iht
      exact ⟨_, Form.rewrites_binaryText hName hForm hOwn hLeft hRight,
        .binary hForm hDense hNextLeft hNextRight⟩

/-- The pass of a helper that accesses no elements comes and goes. -/
theorem skip (hOther : isAccessName g.name = false)
    (ht : Leads helpers (g :: todo) n t result) : Leads helpers todo n t result := by
  induction ht with
  | access hk hx => exact .access hk (hx.skip hOther)
  | parenthesized ht ih => exact .parenthesized ih
  | unary hForm hDense ht ih => exact .unary hForm hDense ih
  | binary hForm hDense hs ht ihs iht => exact .binary hForm hDense ihs iht

/-- With a round to go, the next one can begin. -/
theorem next (ht : Leads helpers [] (n + 1) t result) : Leads helpers helpers n t result := by
  induction ht with
  | @access k x result hk hx =>
      cases k with
      | zero =>
          obtain ⟨rfl, hAtom⟩ := hx.eq_of_zero
          exact .atom hAtom
      | succ k => exact .access (Nat.le_of_succ_le_succ hk) hx.next
  | parenthesized ht ih => exact .parenthesized ih
  | unary hForm hDense ht ih => exact .unary hForm hDense ih
  | binary hForm hDense hs ht ihs iht => exact .binary hForm hDense ihs iht

/-- With no round to go, nothing is left to expand. -/
theorem eq_of_zero (ht : Leads helpers [] 0 t result) :
    t = result ∧ Text.WellCalled (Foreign helpers) result := by
  induction ht with
  | access hk hx =>
      obtain rfl := Nat.le_zero.mp hk
      obtain ⟨rfl, hAtom⟩ := hx.eq_of_zero
      exact ⟨rfl, hAtom.sealed, .of_callSites_eq_nil (List.map_eq_nil_iff.mp hAtom.quiet)⟩
  | parenthesized ht ih =>
      obtain ⟨rfl, hWell⟩ := ih
      exact ⟨rfl, hWell.parenthesized⟩
  | unary hForm hDense ht ih =>
      obtain ⟨rfl, hWell⟩ := ih
      exact ⟨rfl, Form.wellCalled_unaryText hForm hWell⟩
  | binary hForm hDense hs ht ihs iht =>
      obtain ⟨rfl, hLeft⟩ := ihs
      obtain ⟨rfl, hRight⟩ := iht
      exact ⟨rfl, Form.wellCalled_binaryText hForm hLeft hRight⟩

end Leads

/-! ## Statements of reductions -/

theorem ReduceOp.isAccessName_helperName (op : ReduceOp) (t : ScalarType) :
    isAccessName (op.helperName t) = false := by
  rw [Bool.eq_false_iff]
  intro hAccess
  obtain ⟨handle, hName⟩ := List.isSuffixOf_iff_suffix.mp hAccess
  exact op.helperName_ne_accessName t handle hName.symm

/-- The helpers have different names, and the names are formed as those of helpers. -/
structure FormedNames (helpers : List Helper) : Prop extends DistinctNames helpers where
  formed : ∀ h ∈ helpers, isAccessName h.name = true ∨ isCombiningName h.name = true

theorem FormedNames.foreign {helpers : List Helper} (h : FormedNames helpers) (name : Text)
    (count : Nat) (hAccess : isAccessName name = false)
    (hCombining : isCombiningName name = false) : Foreign helpers name count := by
  rintro g hg rfl
  rcases h.formed g hg with hName | hName
  · rw [hAccess] at hName
    cases hName
  · rw [hCombining] at hName
    cases hName

namespace ReduceOp

/-- What a combining helper makes of two operands: an operator between them, a function of
them, or a choice by a comparison. -/
inductive Combines (h : Helper) : Prop
  | between (symbol : Text) (hForm : symbol.all Text.isSign = true)
      (hDense : (Form.between symbol).isDense = true)
      (hFill : ∀ a b, h.fill [a, b] =
        "(" ++ (Form.between symbol).binaryText ("(" ++ a ++ ")") ("(" ++ b ++ ")") ++ ")")
  | call (function : Text) (hFunction : isFunctionName function = true)
      (hFill : ∀ a b, h.fill [a, b] =
        (Form.call function).binaryText ("(" ++ a ++ ")") ("(" ++ b ++ ")"))
  | select (comparison : Text) (hForm : comparison.all Text.isSign = true)
      (hDense : (Form.select comparison).isDense = true)
      (hFill : ∀ a b, h.fill [a, b] = (Form.select comparison).binaryText a b)

theorem combines_of_infix {h : Helper} (symbol : Text) (hForm : symbol.all Text.isSign = true)
    (hDense : (Form.between symbol).isDense = true)
    (hFill : ∀ a b, h.fill [a, b] = "((" ++ (a ++ (") " ++ symbol ++ " (" ++ (b ++ "))")))) :
    Combines h := by
  refine .between symbol hForm hDense fun a b => (hFill a b).trans ?_
  show _ = "(" ++ ("(" ++ a ++ ")" ++ " " ++ symbol ++ " " ++ ("(" ++ b ++ ")")) ++ ")"
  simp

theorem combines_of_choice {h : Helper} (comparison : Text)
    (hForm : comparison.all Text.isSign = true)
    (hDense : (Form.select comparison).isDense = true)
    (hFill : ∀ a b, h.fill [a, b] = "((" ++ (a ++ (") " ++ comparison ++ " (" ++
      (b ++ (") ? (" ++ (a ++ (") : (" ++ (b ++ "))")))))))) :
    Combines h := by
  refine .select comparison hForm hDense fun a b => (hFill a b).trans ?_
  show _ = "((" ++ a ++ ") " ++ comparison ++ " (" ++ b ++ ") ? (" ++ a ++ ") : (" ++ b ++ "))"
  simp

theorem combines_of_function {h : Helper} {function : Text}
    (hFunction : isFunctionName function = true) (hParams : h.params = ["a".toList, "b".toList])
    (hNot : function ∉ h.params) (hBody : h.body = function ++ "((a), (b))") : Combines h := by
  have hName : Text.isIdentifier function = true := by
    simp only [isFunctionName, Bool.and_eq_true] at hFunction
    exact hFunction.1.1
  refine .call function hFunction fun a b => ?_
  have hFill : Text.fill h.params [a, b] (function ++ '(' :: "(a), (b))") =
      function ++ "(" ++ ("(" ++ a ++ ")") ++ ", " ++ ("(" ++ b ++ ")") ++ ")" := by
    rw [Text.fill_between _ _ _ _ (by decide), Text.fill_identifier hName hNot, hParams]
    show function ++ '(' :: ("(" ++ (a ++ ("), (" ++ (b ++ "))")))) = _
    simp
  rw [Helper.fill, hBody]
  exact hFill

theorem combines (op : ReduceOp) (t : ScalarType) (d : Dialect) : Combines (op.helper t d) := by
  have hMath (name : Text) (hName : isFunctionName name = true)
      (hSingle : isFunctionName (name ++ "f") = true) (hNot : name ∉ ["a".toList, "b".toList])
      (hNotSingle : name ++ "f" ∉ ["a".toList, "b".toList]) :
      isFunctionName (d.mathName name t) = true ∧ d.mathName name t ∉ ["a".toList, "b".toList] := by
    unfold Dialect.mathName
    split
    · exact ⟨hName, hNot⟩
    · exact ⟨hSingle, hNotSingle⟩
  have hChoice (op : ReduceOp) (comparison : Text)
      (hBody : op.combination t d = "((a) " ++ comparison ++ " (b) ? (a) : (b))")
      (hFill : ∀ a b, Text.fill ["a", "b"] [a, b] ("((a) " ++ comparison ++ " (b) ? (a) : (b))") =
        "((" ++ (a ++ (") " ++ comparison ++ " (" ++
          (b ++ (") ? (" ++ (a ++ (") : (" ++ (b ++ "))"))))))))
      (a b : Text) : (op.helper t d).fill [a, b] = "((" ++ (a ++ (") " ++ comparison ++ " (" ++
          (b ++ (") ? (" ++ (a ++ (") : (" ++ (b ++ "))"))))))) := by
    show Text.fill ["a", "b"] [a, b] (op.combination t d) = _
    rw [hBody, hFill]
  cases op with
  | add => exact combines_of_infix "+" rfl rfl fun _ _ => rfl
  | mul => exact combines_of_infix "*" rfl rfl fun _ _ => rfl
  | max =>
      by_cases hFloat : t.isFloat = true
      · obtain ⟨hFunction, hNot⟩ := hMath "fmax" (by decide) (by decide) (by decide) (by decide)
        exact combines_of_function hFunction rfl hNot (if_pos hFloat)
      · exact combines_of_choice ">=" rfl rfl (hChoice .max ">=" (if_neg hFloat) fun _ _ => rfl)
  | min =>
      by_cases hFloat : t.isFloat = true
      · obtain ⟨hFunction, hNot⟩ := hMath "fmin" (by decide) (by decide) (by decide) (by decide)
        exact combines_of_function hFunction rfl hNot (if_pos hFloat)
      · exact combines_of_choice "<=" rfl rfl (hChoice .min "<=" (if_neg hFloat) fun _ _ => rfl)

end ReduceOp

/-- A combination is an expression in its operands. -/
theorem Leads.combination {helpers todo : List Helper} {n : Nat} {h : Helper} {a b a' b' : Text}
    (hNames : FormedNames helpers) (hCombines : ReduceOp.Combines h)
    (ha : Leads helpers todo n a a') (hb : Leads helpers todo n b b') :
    Leads helpers todo n (h.fill [a, b]) (h.fill [a', b']) := by
  cases hCombines with
  | between symbol hForm hDense hFill =>
      rw [hFill, hFill]
      exact .parenthesized (.binary hForm hDense ha.parenthesized hb.parenthesized)
  | call function hFunction hFill =>
      rw [hFill, hFill]
      have hForm : Form.Regular 2 (.call function) := .call hFunction 2
      exact .binary (hForm.admits hNames.foreign) rfl ha.parenthesized hb.parenthesized
  | select comparison hForm hDense hFill =>
      rw [hFill, hFill]
      exact .binary hForm hDense ha hb

/-- An expression, or an assignment of the combination of a name and an expression, whose
calls need at most the given number of rounds more, and what it becomes. -/
inductive Reaches (helpers todo : List Helper) (n : Nat) : Text → Text → Prop
  | expression {t result : Text} (ht : Leads helpers todo n t result) :
      Reaches helpers todo n t result
  | combined {op : ReduceOp} {dtype : ScalarType} {d : Dialect} {target x result : Text}
      (hMem : op.helper dtype d ∈ helpers) (hLate : op.helper dtype d ∈ todo ∨ 0 < n)
      (hTarget : Text.isIdentifier target = true) (hx : Leads helpers todo n x result) :
      Reaches helpers todo n (target ++ (" = " ++ (op.helper dtype d).callOf [target, x]))
        (target ++ (" = " ++ (op.helper dtype d).fill [target, result]))

namespace Reaches

variable {helpers todo : List Helper} {n : Nat} {t result : Text} {g : Helper}

/-- One pass. -/
theorem step (hNames : FormedNames helpers) (hMem : g ∈ helpers)
    (ht : Reaches helpers (g :: todo) n t result) :
    ∃ next, g.expand t = some next ∧ Reaches helpers todo n next result := by
  have hName := hNames.identifier g hMem
  cases ht with
  | expression ht =>
      obtain ⟨next, hRewrites, hNext⟩ := ht.step hNames.toDistinctNames hMem
      exact ⟨next, hRewrites.expand_eq hName, .expression hNext⟩
  | @combined op dtype d target x result hOp hLate hTarget hx =>
      have hAtom := Text.IsAtom.of_isIdentifier hTarget
      have hSame : g.Rewrites target target := by
        refine .of_not_called hName ?_
        rw [hAtom.quiet]
        exact List.not_mem_nil
      have hEquals : Text.isSeparator " = " = true := by decide
      by_cases hOwn : op.helper dtype d = g
      · subst hOwn
        have hArity : [target, x].length = (op.helper dtype d).arity := rfl
        have hArgs : ∀ arg ∈ [target, x], Text.IsOperand arg := by
          intro arg hArg
          rcases List.mem_cons.mp hArg with rfl | hArg
          · exact hAtom.toIsOperand
          · rw [List.mem_singleton.mp hArg]
            exact hx.isOperand
        refine ⟨_, (hSame.joined hName hEquals (.call hName hArity hArgs)).expand_eq hName, ?_⟩
        -- the call has given way to an expression, in which nothing else has changed
        have hSkip := hx.skip (op.isAccessName_helperName dtype)
        have hFilled := Leads.combination hNames (op.combines dtype d) (.atom hAtom) hSkip
        have hText (u : Text) :
            target ++ (" = " ++ u) = (Form.between "=").binaryText target u := by
          show _ = target ++ " " ++ "=" ++ " " ++ u
          simp
        rw [hText, hText]
        exact .expression (.binary (rfl : (Form.between "=").Admits (Foreign helpers)) rfl
          (.atom hAtom) hFilled)
      · obtain ⟨next, hRewrites, hNext⟩ := hx.step hNames.toDistinctNames hMem
        have hne : g.name ≠ op.helperName dtype :=
          fun hEq => hOwn (hNames.eq_of_name_eq _ hOp g hMem hEq.symm)
        have hNot := Form.not_mem_callNames_function (op.isIdentifier_helperName dtype) hne
        have hCall := hSame.pair hName hNot hRewrites
        have hText (u : Text) : (op.helper dtype d).callOf [target, u] =
            op.helperName dtype ++ "(" ++ (target ++ (", " ++ u) ++ ")") := by
          show op.helperName dtype ++ ("(" ++ (target ++ ", " ++ u) ++ ")") = _
          simp
        rw [hText]
        refine ⟨_, (hSame.joined hName hEquals hCall).expand_eq hName, ?_⟩
        rw [← hText]
        refine .combined hOp (hLate.imp_left fun hTodo => ?_) hTarget hNext
        exact (List.mem_cons.mp hTodo).resolve_left hOwn

/-- With a round to go, the next one can begin. -/
theorem next (ht : Reaches helpers [] (n + 1) t result) : Reaches helpers helpers n t result := by
  cases ht with
  | expression ht => exact .expression ht.next
  | combined hMem hLate hTarget hx => exact .combined hMem (.inl hMem) hTarget hx.next

/-- With no round to go, nothing is left to expand. -/
theorem eq_of_zero (ht : Reaches helpers [] 0 t result) :
    t = result ∧ ∀ h ∈ helpers, h.name ∉ Text.callNames (Text.pieces result) := by
  cases ht with
  | expression ht =>
      obtain ⟨hEq, hWell⟩ := ht.eq_of_zero
      refine ⟨hEq, fun h hMem hCalled => ?_⟩
      obtain ⟨call, hCall, hName⟩ := List.mem_map.mp hCalled
      obtain ⟨count, -, hForeign⟩ := hWell.answered call hCall
      exact hForeign h hMem hName.symm
  | combined hMem hLate =>
      rcases hLate with hTodo | hRound
      · exact absurd hTodo List.not_mem_nil
      · exact absurd hRound (Nat.lt_irrefl 0)

/-- As many rounds as are needed make the result of the text, and the result calls no
helper. -/
theorem expandRounds_eq (hNames : FormedNames helpers) (ht : Reaches helpers [] n t result) :
    expandRounds helpers n t = some result ∧
      ∀ h ∈ helpers, h.name ∉ Text.callNames (Text.pieces result) := by
  obtain ⟨last, hRounds, hLast⟩ := expandRounds_of_steps
    (P := fun todo n t => Reaches helpers todo n t result) (fun hMem ht => ht.step hNames hMem)
    (fun ht => ht.next) n 0 ht
  obtain ⟨rfl, hFree⟩ := hLast.eq_of_zero
  exact ⟨hRounds, hFree⟩

end Reaches

/-- Rounds leave a text alone that calls no helper. -/
theorem expandRounds_of_not_called {helpers : List Helper} (hDistinct : DistinctNames helpers)
    {t : Text} (hNot : ∀ h ∈ helpers, h.name ∉ Text.callNames (Text.pieces t)) (n : Nat) :
    expandRounds helpers n t = some t := by
  have hStep {g : Helper} {todo : List Helper} {k : Nat} {u : Text} (hg : g ∈ helpers)
      (hu : u = t) : ∃ next, g.expand u = some next ∧ next = t := by
    rw [hu]
    exact ⟨t, Helper.expand_of_not_called (hDistinct.identifier g hg) (hNot g hg), rfl⟩
  obtain ⟨next, hRound, rfl⟩ := expandRound_of_steps (P := fun _ _ u => u = t)
    (fun {_ todo k _} hg hu => @hStep _ todo k _ hg hu) (n := n) (fun _ hg => hg) rfl
  exact expandRounds_of_fixed hRound n

end ArrayKernel
