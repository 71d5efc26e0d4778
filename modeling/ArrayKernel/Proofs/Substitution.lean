import ArrayKernel.Proofs.Reading
import ArrayKernel.Text.Parameter

/-!
# Arguments in place of parameters

Filling arguments into the text of an expression gives the text of the expression
with the arguments in place of the variables.  The result is read back as it was
meant when a parameter stands alone, at the start of a sum or inside parentheses,
because an argument may be a sum itself.  The value of the result is the value of
the expression where the parameters have the values of the arguments.
-/

namespace ArrayKernel

namespace Text

theorem startsIdentifier_of_all_isDigit {t : Text} (h : t.all Char.isDigit = true) :
    startsIdentifier t = false := by
  cases t with
  | nil => rfl
  | cons c t =>
      have hc : c.isDigit = true := by
        simp only [List.all_cons, Bool.and_eq_true] at h
        exact h.1
      simpa [startsIdentifier] using isWordStart_of_isDigit hc

theorem parameter?_eq_none_of_not_mem {params : List Text} {w : Text} (h : w ∉ params) :
    parameter? params w = none := by
  unfold parameter?
  split
  · exact List.idxOf?_eq_none_iff.mpr h
  · rfl

theorem fill_eq_flatMap (params args : List Text) (t : Text) :
    fill params args t = (pieces t).flatMap (Piece.fill params args) := rfl

/-- A name that is no parameter stays. -/
theorem fill_identifier {params : List Text} {w : Text} (hw : isIdentifier w = true)
    (hNot : w ∉ params) (args : List Text) : fill params args w = w := by
  simp [fill_eq_flatMap, pieces_identifier hw, Piece.fill, argument,
    parameter?_eq_none_of_not_mem hNot]

/-- Filling passes through a character that belongs to no word. -/
theorem fill_between (params args : List Text) (s t : Text) {c : Char}
    (hc : isWordChar c = false) :
    fill params args (s ++ c :: t) = fill params args s ++ c :: fill params args t := by
  simp only [fill_eq_flatMap, IndexExpr.pieces_between s t hc, List.flatMap_append,
    List.flatMap_cons, Piece.fill, List.singleton_append]

theorem fill_cons_other (params args : List Text) (t : Text) {c : Char}
    (hc : isWordChar c = false) : fill params args (c :: t) = c :: fill params args t :=
  fill_between params args [] t hc

/-- A list of arguments is filled argument by argument. -/
theorem fill_join (params args : List Text) (ts : List Text) :
    fill params args (join ", " ts) = join ", " (ts.map (fill params args)) := by
  induction ts with
  | nil => rfl
  | cons t ts ih =>
      cases ts with
      | nil => rfl
      | cons u ts =>
          rw [join_cons_cons, List.append_assoc]
          show fill params args (t ++ ',' :: ' ' :: join ", " (u :: ts)) = _
          rw [fill_between _ _ _ _ (by decide), fill_cons_other _ _ _ (by decide), ih]
          simp

end Text

namespace IndexExpr

/-! ## Substitution in expressions -/

/-- The expression with the arguments in place of the parameters. -/
def subst (params : List Text) (args : List IndexExpr) : IndexExpr → IndexExpr
  | const n => const n
  | var name =>
    match Text.parameter? params name with
    | some k => args.getD k (var name)
    | none => var name
  | group e => group (e.subst params args)
  | add a b => add (a.subst params args) (b.subst params args)
  | mul a b => mul (a.subst params args) (b.subst params args)
  | div a b => div (a.subst params args) (b.subst params args)
  | mod a b => mod (a.subst params args) (b.subst params args)

theorem subst_factor (params : List Text) (args : List IndexExpr) (f : Factor)
    (a b : IndexExpr) :
    (f.apply a b).subst params args =
      f.apply (a.subst params args) (b.subst params args) := by
  cases f <;> rfl

theorem fill_name {params : List Text} {name : Text} (h : isName name = true)
    (args : List IndexExpr) :
    Text.fill params (args.map text) name = ((var name).subst params args).text := by
  unfold isName at h
  split at h
  · next digits =>
    obtain ⟨hne, hall⟩ : digits ≠ [] ∧ digits.all Char.isDigit = true := by
      simpa using h
    have hWord : digits.all Text.isWordChar = true :=
      List.all_eq_true.mpr fun c hc =>
        Text.isWordChar_of_isDigit (List.all_eq_true.mp hall c hc)
    have hDollar : Text.startsIdentifier ('$' :: digits) = false := rfl
    have hSubst : (var ('$' :: digits)).subst params args = var ('$' :: digits) := by
      simp [subst, Text.parameter?, hDollar]
    rw [hSubst, Text.fill_cons_other _ _ _ (by decide), Text.fill_eq_flatMap,
      Text.pieces_word hne hWord]
    simp [Text.Piece.fill, Text.argument, Text.parameter?,
      Text.startsIdentifier_of_all_isDigit hall, text]
  · rw [Text.fill_eq_flatMap, Text.pieces_identifier h]
    simp only [List.flatMap_cons, List.flatMap_nil, List.append_nil, Text.Piece.fill,
      Text.argument, subst]
    cases Text.parameter? params name with
    | none => rfl
    | some k =>
        show (args.map text).getD k (var name).text = (args.getD k (var name)).text
        simp only [List.getD_eq_getElem?_getD, List.getElem?_map]
        cases args[k]? <;> rfl

theorem fill_const (params args : List Text) (n : Nat) :
    Text.fill params args (Text.ofNat n) = Text.ofNat n := by
  simp [Text.fill_eq_flatMap, Text.Piece.fill, Text.argument, Text.parameter?]

/-- Filling arguments into the text is substituting them in the expression. -/
theorem fill_text {e : IndexExpr} (h : e.isReadable = true) (params : List Text)
    (args : List IndexExpr) :
    Text.fill params (args.map text) e.text = (e.subst params args).text := by
  have hFactor (f : Factor) (a b : IndexExpr)
      (ha : Text.fill params (args.map text) a.text = (a.subst params args).text)
      (hb : Text.fill params (args.map text) b.text = (b.subst params args).text) :
      Text.fill params (args.map text) (f.apply a b).text =
        ((f.apply a b).subst params args).text := by
    rw [text_factor, subst_factor, text_factor,
      Text.fill_between _ _ _ _ (by cases f <;> decide), ha, hb]
  induction e with
  | const n => exact fill_const params _ n
  | var name => exact fill_name h args
  | group e ih =>
      show Text.fill params (args.map text) ('(' :: (e.text ++ ')' :: [])) =
        '(' :: ((e.subst params args).text ++ ')' :: [])
      rw [Text.fill_cons_other _ _ _ (by decide), Text.fill_between _ _ _ _ (by decide), ih h]
      rfl
  | add a b iha ihb =>
      simp only [isReadable, Bool.and_eq_true] at h
      show Text.fill params (args.map text) (a.text ++ " + ".toList ++ b.text) =
        (a.subst params args).text ++ " + ".toList ++ (b.subst params args).text
      rw [List.append_assoc, List.append_assoc]
      show Text.fill params (args.map text) (a.text ++ ' ' :: '+' :: ' ' :: b.text) = _
      rw [Text.fill_between _ _ _ _ (by decide), Text.fill_cons_other _ _ _ (by decide),
        Text.fill_cons_other _ _ _ (by decide), iha h.1.1, ihb h.1.2]
      rfl
  | mul a b iha ihb =>
      simp only [isReadable, Bool.and_eq_true] at h
      exact hFactor .times a b (iha h.1.1.1) (ihb h.1.1.2)
  | div a b iha ihb =>
      simp only [isReadable, Bool.and_eq_true] at h
      exact hFactor .quotient a b (iha h.1.1.1) (ihb h.1.1.2)
  | mod a b iha ihb =>
      simp only [isReadable, Bool.and_eq_true] at h
      exact hFactor .remainder a b (iha h.1.1.1) (ihb h.1.1.2)

/-! ## Reading the result -/

/-- A parameter that stands alone. -/
def isBare (params : List Text) : IndexExpr → Bool
  | var name => params.contains name
  | _ => false

/-- Whether every parameter stands alone, at the start of a sum or inside parentheses. -/
def isGuarded (params : List Text) : IndexExpr → Bool
  | const _ | var _ => true
  | group e => e.isGuarded params
  | add a b => a.isGuarded params && b.isGuarded params && !b.isBare params
  | mul a b | div a b | mod a b =>
    a.isGuarded params && b.isGuarded params && !a.isBare params && !b.isBare params

/-- An expression that is no lone parameter keeps its outermost form. -/
theorem subst_outermost {params : List Text} {e : IndexExpr} (h : e.isBare params = false)
    (args : List IndexExpr) :
    (e.subst params args).isProduct = e.isProduct ∧
      (e.subst params args).isOperand = e.isOperand := by
  cases e with
  | var name =>
      have hNot : name ∉ params := by simpa [isBare] using h
      simp [subst, Text.parameter?_eq_none_of_not_mem hNot]
  | const n => exact ⟨rfl, rfl⟩
  | group e => exact ⟨rfl, rfl⟩
  | add a b => exact ⟨rfl, rfl⟩
  | mul a b => exact ⟨rfl, rfl⟩
  | div a b => exact ⟨rfl, rfl⟩
  | mod a b => exact ⟨rfl, rfl⟩

theorem isReadable_subst_var {name : Text} (h : isName name = true) {params : List Text}
    {args : List IndexExpr} (hArgs : ∀ a ∈ args, a.isReadable = true) :
    ((var name).subst params args).isReadable = true := by
  unfold subst
  split
  · next k _ =>
    rw [List.getD_eq_getElem?_getD]
    cases hk : args[k]? with
    | none => exact h
    | some a => exact hArgs a (List.mem_of_getElem? hk)
  · exact h

/-- Readable arguments in guarded places give a readable expression. -/
theorem isReadable_subst {e : IndexExpr} (h : e.isReadable = true) {params : List Text}
    (hGuarded : e.isGuarded params = true) {args : List IndexExpr}
    (hArgs : ∀ a ∈ args, a.isReadable = true) : (e.subst params args).isReadable = true := by
  -- The operands of the three factors meet the same conditions.
  have hFactor {a b : IndexExpr} (ha : (a.subst params args).isReadable = true)
      (hb : (b.subst params args).isReadable = true) (hProduct : a.isProduct = true)
      (hOperand : b.isOperand = true) (hBareA : a.isBare params = false)
      (hBareB : b.isBare params = false) :
      ((a.subst params args).isReadable && (b.subst params args).isReadable &&
        (a.subst params args).isProduct && (b.subst params args).isOperand) = true := by
    simp [ha, hb, (subst_outermost hBareA args).1, (subst_outermost hBareB args).2, hProduct,
      hOperand]
  induction e with
  | const n => rfl
  | var name => exact isReadable_subst_var h hArgs
  | group e ih => exact ih h hGuarded
  | add a b iha ihb =>
      simp only [isReadable, isGuarded, Bool.and_eq_true, Bool.not_eq_true'] at h hGuarded
      have hProduct := (subst_outermost hGuarded.2 args).1
      simp only [subst, isReadable, Bool.and_eq_true]
      exact ⟨⟨iha h.1.1 hGuarded.1.1, ihb h.1.2 hGuarded.1.2⟩, hProduct.trans h.2⟩
  | mul a b iha ihb =>
      simp only [isReadable, isGuarded, Bool.and_eq_true, Bool.not_eq_true'] at h hGuarded
      exact hFactor (iha h.1.1.1 hGuarded.1.1.1) (ihb h.1.1.2 hGuarded.1.1.2) h.1.2 h.2
        hGuarded.1.2 hGuarded.2
  | div a b iha ihb =>
      simp only [isReadable, isGuarded, Bool.and_eq_true, Bool.not_eq_true'] at h hGuarded
      exact hFactor (iha h.1.1.1 hGuarded.1.1.1) (ihb h.1.1.2 hGuarded.1.1.2) h.1.2 h.2
        hGuarded.1.2 hGuarded.2
  | mod a b iha ihb =>
      simp only [isReadable, isGuarded, Bool.and_eq_true, Bool.not_eq_true'] at h hGuarded
      exact hFactor (iha h.1.1.1 hGuarded.1.1.1) (ihb h.1.1.2 hGuarded.1.1.2) h.1.2 h.2
        hGuarded.1.2 hGuarded.2

/-! ## The value of the result -/

/-- The values of names where the parameters have the values of the arguments. -/
def bindArguments (params : List Text) (args : List IndexExpr) (env : Text → Option Int) :
    Text → Option Int :=
  fun name => ((var name).subst params args).value? env

theorem value?_subst (params : List Text) (args : List IndexExpr) (env : Text → Option Int)
    (e : IndexExpr) :
    (e.subst params args).value? env = e.value? (bindArguments params args env) := by
  induction e with
  | const n => rfl
  | var name => rfl
  | group e ih => exact ih
  | add a b iha ihb => simp only [subst, value?, iha, ihb]
  | mul a b iha ihb => simp only [subst, value?, iha, ihb]
  | div a b iha ihb => simp only [subst, value?, iha, ihb]
  | mod a b iha ihb => simp only [subst, value?, iha, ihb]

theorem bindArguments_of_not_mem {params : List Text} {name : Text} (h : name ∉ params)
    (args : List IndexExpr) (env : Text → Option Int) :
    bindArguments params args env name = env name := by
  simp [bindArguments, subst, Text.parameter?_eq_none_of_not_mem h, value?]

end IndexExpr

/-! ## Substitution in references -/

namespace ElementRef

/-- The name in front of the brackets. -/
def head : ElementRef → Text
  | stored pointer _ => pointer
  | through helper _ => helper

/-- The expressions inside the brackets. -/
def parts : ElementRef → List IndexExpr
  | stored _ offset => [offset]
  | through _ indices => indices

/-- The reference with the arguments in place of the parameters. -/
def subst (params : List Text) (args : List IndexExpr) : ElementRef → ElementRef
  | stored pointer offset => stored pointer (offset.subst params args)
  | through helper indices => through helper (indices.map (·.subst params args))

theorem text_stored (pointer : Text) (offset : IndexExpr) :
    (stored pointer offset).text = pointer ++ '[' :: (offset.text ++ [']']) := by
  simp [text]

theorem text_through (helper : Text) (indices : List IndexExpr) :
    (through helper indices).text =
      helper ++ '(' :: (Text.join ", " (indices.map IndexExpr.text) ++ [')']) := by
  simp [text]

/-- Filling arguments into the text of a reference is substituting them in the reference,
if its name is no parameter. -/
theorem fill_text {r : ElementRef} (hHead : Text.isIdentifier r.head = true)
    {params : List Text} (hNot : r.head ∉ params)
    (hParts : ∀ e ∈ r.parts, e.isReadable = true) (args : List IndexExpr) :
    Text.fill params (args.map IndexExpr.text) r.text = (r.subst params args).text := by
  have hFill : Text.fill params (args.map IndexExpr.text) r.head = r.head :=
    Text.fill_identifier hHead hNot _
  cases r with
  | stored pointer offset =>
      have hOffset := IndexExpr.fill_text (hParts offset (List.mem_singleton.mpr rfl)) params args
      rw [subst, text_stored, text_stored, Text.fill_between _ _ _ _ (by decide),
        Text.fill_between _ _ _ _ (by decide), hOffset]
      exact congrArg (· ++ _) hFill
  | through helper indices =>
      have hIndices : indices.map (fun e => Text.fill params (args.map IndexExpr.text) e.text) =
          indices.map fun e => (e.subst params args).text :=
        List.map_congr_left fun e he => IndexExpr.fill_text (hParts e he) params args
      rw [subst, text_through, text_through, Text.fill_between _ _ _ _ (by decide),
        Text.fill_between _ _ _ _ (by decide), Text.fill_join, List.map_map, List.map_map]
      simp only [Function.comp_def, hIndices]
      exact congrArg (· ++ _) hFill

end ElementRef

end ArrayKernel
