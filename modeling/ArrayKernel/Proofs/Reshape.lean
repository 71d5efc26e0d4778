import ArrayKernel.Index.Reshape
import ArrayKernel.Proofs.RowMajor
import ArrayKernel.Proofs.Substitution

/-!
# The indices of reshaped arrays

The expressions that `flatten?` and `unflatten?` write are read back as they were
meant, also with arguments in place of the axis names, and their values are those
of row-major order.
-/

namespace ArrayKernel
namespace IndexExpr

/-! ## Values of lists of expressions -/

/-- The expressions have the components of an index as their values. -/
def Denote (env : Text → Option Int) (es : List IndexExpr) (index : List Nat) : Prop :=
  es.map (value? env) = index.map fun i : Nat => some (i : Int)

instance (env : Text → Option Int) (es : List IndexExpr) (index : List Nat) :
    Decidable (Denote env es index) :=
  inferInstanceAs (Decidable (_ = _))

theorem denote_cons {env : Text → Option Int} {e : IndexExpr} {es : List IndexExpr} {i : Nat}
    {index : List Nat} :
    Denote env (e :: es) (i :: index) ↔ e.value? env = some (i : Int) ∧ Denote env es index := by
  simp [Denote]

/-- The sum of the values of expressions. -/
def totalValue? (env : Text → Option Int) : List IndexExpr → Option Int
  | [] => some 0
  | e :: es => (e.value? env).bind fun x => (totalValue? env es).map (x + ·)

theorem value?_foldl_add (env : Text → Option Int) (e : IndexExpr) (es : List IndexExpr) :
    (es.foldl add e).value? env =
      (e.value? env).bind fun x => (totalValue? env es).map (x + ·) := by
  induction es generalizing e with
  | nil => cases h : e.value? env <;> simp [totalValue?, h]
  | cons d es ih =>
      rw [List.foldl_cons, ih, totalValue?, value?]
      cases e.value? env with
      | none => rfl
      | some x =>
          cases d.value? env with
          | none => rfl
          | some y =>
              cases totalValue? env es with
              | none => rfl
              | some z => simp [Int.add_assoc]

theorem value?_sum (env : Text → Option Int) (es : List IndexExpr) :
    (sum es).value? env = totalValue? env es := by
  cases es with
  | nil => rfl
  | cons e es => exact value?_foldl_add env e es

theorem totalValue?_cons {env : Text → Option Int} {e : IndexExpr} {es : List IndexExpr} {m n : Nat}
    (he : e.value? env = some (m : Int)) (hes : totalValue? env es = some (n : Int)) :
    totalValue? env (e :: es) = some ((m + n : Nat) : Int) := by
  simp [totalValue?, he, hes]

/-! ## Expressions that take arguments -/

/-- An expression that is read back as it was meant, with and without arguments in place of
its parameters. -/
structure Fillable (params : List Text) (e : IndexExpr) : Prop where
  readable : e.isReadable = true
  guarded : e.isGuarded params = true

/-- An expression that can be a term of a sum, also with arguments in place of its
parameters. -/
structure IsTerm (params : List Text) (e : IndexExpr) : Prop extends Fillable params e where
  product : e.isProduct = true
  not_bare : e.isBare params = false

variable {params : List Text}

theorem isTerm_const (n : Nat) : IsTerm params (const n) := ⟨⟨rfl, rfl⟩, rfl, rfl⟩

theorem Fillable.group {e : IndexExpr} (h : Fillable params e) : IsTerm params (group e) :=
  ⟨⟨h.readable, h.guarded⟩, rfl, rfl⟩

theorem fillable_var {name : Text} (h : isName name = true) : Fillable params (var name) :=
  ⟨h, rfl⟩

/-- A factor of terms is a term, if its right operand is an operand. -/
theorem IsTerm.factor {a b : IndexExpr} (ha : IsTerm params a) (hb : IsTerm params b)
    (hOperand : b.isOperand = true) (f : Factor) : IsTerm params (f.apply a b) := by
  have hReadable : (a.isReadable && b.isReadable && a.isProduct && b.isOperand) = true := by
    simp [ha.readable, hb.readable, ha.product, hOperand]
  have hGuarded : (a.isGuarded params && b.isGuarded params && !a.isBare params &&
      !b.isBare params) = true := by
    simp [ha.guarded, hb.guarded, ha.not_bare, hb.not_bare]
  cases f <;> exact ⟨⟨hReadable, hGuarded⟩, rfl, rfl⟩

theorem fillable_foldl_add {e : IndexExpr} (he : Fillable params e) {es : List IndexExpr}
    (hes : ∀ d ∈ es, IsTerm params d) : Fillable params (es.foldl add e) := by
  induction es generalizing e with
  | nil => exact he
  | cons d es ih =>
      have hd := hes d (.head _)
      refine ih ⟨?_, ?_⟩ fun c hc => hes c (.tail _ hc)
      · simp [isReadable, he.readable, hd.readable, hd.product]
      · simp [isGuarded, he.guarded, hd.guarded, hd.not_bare]

theorem fillable_sum {es : List IndexExpr} (h : ∀ e ∈ es, IsTerm params e) :
    Fillable params (sum es) := by
  cases es with
  | nil => exact (isTerm_const 0).toFillable
  | cons e es =>
      exact fillable_foldl_add (h e (.head _)).toFillable fun d hd => h d (.tail _ hd)

theorem not_bare_foldl_add {e : IndexExpr} (he : e.isBare params = false) (es : List IndexExpr) :
    (es.foldl add e).isBare params = false := by
  induction es generalizing e with
  | nil => exact he
  | cons d es ih => exact ih rfl

theorem not_bare_sum {es : List IndexExpr} (h : ∀ e ∈ es, IsTerm params e) :
    (sum es).isBare params = false := by
  cases es with
  | nil => rfl
  | cons e es => exact not_bare_foldl_add (h e (.head _)).not_bare es

/-- A group is an operand, whatever is in it. -/
theorem isTerm_grouped {e : IndexExpr} (he : Fillable params e) (hNot : e.isBare params = false) :
    IsTerm params e.grouped ∧ e.grouped.isOperand = true := by
  cases e with
  | const n => exact ⟨isTerm_const n, rfl⟩
  | var name => exact ⟨⟨he, rfl, hNot⟩, rfl⟩
  | group e => exact ⟨⟨he, rfl, rfl⟩, rfl⟩
  | add a b => exact ⟨he.group, rfl⟩
  | mul a b => exact ⟨he.group, rfl⟩
  | div a b => exact ⟨he.group, rfl⟩
  | mod a b => exact ⟨he.group, rfl⟩

theorem value?_grouped (env : Text → Option Int) (e : IndexExpr) :
    e.grouped.value? env = e.value? env := by
  cases e <;> rfl

/-! ## The place of an element -/

theorem isTerm_of_flattenTerms? {names : List Text} {shape : Shape} {terms : List IndexExpr}
    (h : flattenTerms? names shape = some terms) (hNames : ∀ name ∈ names, isName name = true) :
    ∀ e ∈ terms, IsTerm params e := by
  induction names generalizing shape terms with
  | nil =>
      rw [flattenTerms?.eq_2 _ _ (by simp)] at h
      cases h
      exact fun _ he => absurd he List.not_mem_nil
  | cons name names ih =>
      have hRest : ∀ name ∈ names, isName name = true := fun x hx => hNames x (.tail _ hx)
      cases shape with
      | nil =>
          cases h
          exact fun _ he => absurd he List.not_mem_nil
      | cons extent extents =>
          rw [flattenTerms?] at h
          split at h
          · exact ih h hRest
          · obtain ⟨factor, -, hTerms⟩ := Option.bind_eq_some_iff.mp h
            obtain ⟨further, hFurther, hEq⟩ := Option.bind_eq_some_iff.mp hTerms
            cases hEq
            have hIndex : IsTerm params (group (var name)) :=
              (fillable_var (hNames name (.head _))).group
            intro e he
            rcases List.mem_cons.mp he with rfl | he
            · split
              · exact hIndex
              · exact hIndex.factor (isTerm_const factor) rfl .times
            · exact ih hFurther hRest e he

/-- The place of an element takes arguments and is no lone name. -/
theorem fillable_of_flatten? {names : List Text} {shape : Shape} {place : IndexExpr}
    (h : flatten? names shape = some place) (hNames : ∀ name ∈ names, isName name = true) :
    Fillable params place ∧ place.isBare params = false := by
  unfold flatten? at h
  split at h
  · cases h
    exact ⟨(isTerm_const 0).toFillable, rfl⟩
  · obtain ⟨terms, hTerms, rfl⟩ := Option.map_eq_some_iff.mp h
    have hAll : ∀ e ∈ terms, IsTerm params e := isTerm_of_flattenTerms? hTerms hNames
    exact ⟨fillable_sum hAll, not_bare_sum hAll⟩

theorem totalValue?_flattenTerms? {env : Text → Option Int} {names : List Text} {shape : Shape}
    {terms : List IndexExpr} {index : List Nat} (h : flattenTerms? names shape = some terms)
    (hIn : shape.InBounds index) (hNames : Denote env (names.map var) index) :
    totalValue? env terms = some (shape.rowMajor index : Int) := by
  induction shape generalizing names index terms with
  | nil =>
      rw [flattenTerms?.eq_2 _ _ (by simp)] at h
      cases h
      rfl
  | cons extent extents ih =>
      cases index with
      | nil => exact hIn.elim
      | cons i index =>
          cases names with
          | nil => simp [Denote] at hNames
          | cons name names =>
              obtain ⟨hName, hFurtherNames⟩ := denote_cons.mp hNames
              rw [flattenTerms?] at h
              split at h
              · next hOne =>
                -- An axis of extent one has index zero and contributes nothing.
                have hZero : i = 0 := by
                  have := hIn.1
                  omega
                rw [ih h hIn.2 hFurtherNames, hZero, Shape.rowMajor, Nat.zero_mul, Nat.zero_add]
              · obtain ⟨factor, hFactor, hTerms⟩ := Option.bind_eq_some_iff.mp h
                obtain ⟨further, hFurther, hEq⟩ := Option.bind_eq_some_iff.mp hTerms
                cases hEq
                have hValue : (if factor = 1 then group (var name)
                    else mul (group (var name)) (const factor)).value? env =
                      some ((i * factor : Nat) : Int) := by
                  have hVar : env name = some (i : Int) := hName
                  split
                  · next hOne => simp [value?, hVar, hOne]
                  · simp [value?, hVar]
                rw [totalValue?_cons hValue (ih hFurther hIn.2 hFurtherNames),
                  Shape.volume_of_count? hFactor]
                rfl

/-- The place of an element has the number of the element as its value. -/
theorem value?_flatten? {env : Text → Option Int} {names : List Text} {shape : Shape}
    {place : IndexExpr} {index : List Nat} (h : flatten? names shape = some place)
    (hIn : shape.InBounds index) (hNames : Denote env (names.map var) index) :
    place.value? env = some (shape.rowMajor index : Int) := by
  rw [flatten?, if_neg hIn.zero_not_mem] at h
  obtain ⟨terms, hTerms, rfl⟩ := Option.map_eq_some_iff.mp h
  rw [value?_sum, totalValue?_flattenTerms? hTerms hIn hNames]

/-! ## The index at a place -/

theorem isTerm_axisIndex {place : IndexExpr} (hPlace : IsTerm params place) (isFirst : Bool)
    (extent divisor : Nat) : IsTerm params (axisIndex place isFirst extent divisor) := by
  have hQuotient : IsTerm params (div place (const divisor)) :=
    hPlace.factor (isTerm_const divisor) rfl .quotient
  unfold axisIndex
  split
  · exact isTerm_const 0
  · split
    · split
      · exact hPlace
      · exact hQuotient
    · split
      · exact hPlace.factor (isTerm_const extent) rfl .remainder
      · exact hQuotient.toFillable.group.factor (isTerm_const extent) rfl .remainder

theorem isTerm_of_unflattenAxes? {place : IndexExpr} (hPlace : IsTerm params place)
    {isFirst : Bool} {shape : Shape} {indices : List IndexExpr}
    (h : unflattenAxes? place isFirst shape = some indices) : ∀ e ∈ indices, IsTerm params e := by
  induction shape generalizing isFirst indices with
  | nil =>
      cases h
      exact fun _ he => absurd he List.not_mem_nil
  | cons extent extents ih =>
      obtain ⟨divisor, -, hRest⟩ := Option.bind_eq_some_iff.mp h
      obtain ⟨further, hFurther, hEq⟩ := Option.bind_eq_some_iff.mp hRest
      cases hEq
      intro e he
      rcases List.mem_cons.mp he with rfl | he
      · exact isTerm_axisIndex hPlace isFirst extent divisor
      · exact ih hFurther e he

theorem isTerm_of_unflatten? {place : IndexExpr} (hPlace : Fillable params place)
    (hNot : place.isBare params = false) {shape : Shape} {indices : List IndexExpr}
    (h : unflatten? place shape = some indices) : ∀ e ∈ indices, IsTerm params e := by
  unfold unflatten? at h
  split at h
  · cases h
    intro e he
    rw [List.eq_of_mem_replicate he]
    exact isTerm_const 0
  · exact isTerm_of_unflattenAxes? (isTerm_grouped hPlace hNot).1 h

theorem length_of_unflattenAxes? {place : IndexExpr} {isFirst : Bool} {shape : Shape}
    {indices : List IndexExpr} (h : unflattenAxes? place isFirst shape = some indices) :
    indices.length = shape.length := by
  induction shape generalizing isFirst indices with
  | nil =>
      cases h
      rfl
  | cons extent extents ih =>
      obtain ⟨divisor, -, hRest⟩ := Option.bind_eq_some_iff.mp h
      obtain ⟨further, hFurther, hEq⟩ := Option.bind_eq_some_iff.mp hRest
      cases hEq
      exact congrArg (· + 1) (ih hFurther)

/-- There is one index for each axis. -/
theorem length_of_unflatten? {place : IndexExpr} {shape : Shape} {indices : List IndexExpr}
    (h : unflatten? place shape = some indices) : indices.length = shape.length := by
  unfold unflatten? at h
  split at h
  · cases h
    exact List.length_replicate
  · exact length_of_unflattenAxes? h

/-- The index along an axis, with the number of the element reduced to the axes from this
one on.  Along the first axis nothing has to be reduced. -/
theorem value?_axisIndex {env : Text → Option Int} {place : IndexExpr} {n extent divisor : Nat}
    {isFirst : Bool} (hPlace : place.value? env = some (n : Int)) (hExtent : extent ≠ 0)
    (hDivisor : 0 < divisor) (hFirst : isFirst = true → n < extent * divisor) :
    (axisIndex place isFirst extent divisor).value? env =
      some ((n % (extent * divisor) / divisor : Nat) : Int) := by
  have hDivisorInt : (divisor : Int) ≠ 0 := by omega
  have hExtentInt : (extent : Int) ≠ 0 := by omega
  have hQuotient : (div place (const divisor)).value? env = some ((n / divisor : Nat) : Int) := by
    simp only [value?, hPlace, Option.bind_some, if_neg hDivisorInt]
    rfl
  have hInner : n % (extent * divisor) / divisor = n / divisor % extent :=
    Nat.mod_mul_left_div_self n divisor extent
  unfold axisIndex
  split
  · next hOne =>
    rw [hInner, hOne, Nat.mod_one]
    rfl
  · split
    · next hIsFirst =>
      rw [Nat.mod_eq_of_lt (hFirst hIsFirst)]
      split
      · next hOne => rw [hOne, Nat.div_one, hPlace]
      · exact hQuotient
    · rw [hInner]
      split
      · next hOne =>
        simp only [value?, hPlace, Option.bind_some, if_neg hExtentInt, hOne, Nat.div_one]
        rfl
      · have hGroup : (group (div place (const divisor))).value? env =
            some ((n / divisor : Nat) : Int) := hQuotient
        rw [value?, hGroup]
        simp only [value?, Option.bind_some, if_neg hExtentInt]
        rfl

theorem denote_unflattenAxes? {env : Text → Option Int} {place : IndexExpr} {n : Nat}
    {isFirst : Bool} {shape : Shape} {indices : List IndexExpr}
    (h : unflattenAxes? place isFirst shape = some indices) (hShape : 0 ∉ shape)
    (hPlace : place.value? env = some (n : Int)) (hFirst : isFirst = true → n < shape.volume) :
    Denote env indices (shape.ofRowMajor (n % shape.volume)) := by
  induction shape generalizing isFirst indices with
  | nil =>
      cases h
      rfl
  | cons extent extents ih =>
      rw [List.mem_cons, not_or] at hShape
      obtain ⟨divisor, hDivisor, hRest⟩ := Option.bind_eq_some_iff.mp h
      obtain ⟨further, hFurther, hEq⟩ := Option.bind_eq_some_iff.mp hRest
      cases hEq
      rw [Shape.volume_of_count? hDivisor]
      refine denote_cons.mpr ⟨?_, ?_⟩
      · exact value?_axisIndex hPlace (Ne.symm hShape.1) (Shape.volume_pos hShape.2) hFirst
      · -- the further axes only see the number modulo their own volume
        have hTail := ih hFurther hShape.2 nofun
        rwa [Shape.volume, Nat.mod_mul_left_mod]

/-- The indices at the place of an element are those of the element with its number. -/
theorem denote_unflatten? {env : Text → Option Int} {place : IndexExpr} {n : Nat} {shape : Shape}
    {indices : List IndexExpr} (h : unflatten? place shape = some indices) (hShape : 0 ∉ shape)
    (hPlace : place.value? env = some (n : Int)) (hn : n < shape.volume) :
    Denote env indices (shape.ofRowMajor n) := by
  rw [unflatten?, if_neg hShape] at h
  have hAxes := denote_unflattenAxes? h hShape ((value?_grouped env place).trans hPlace)
    fun _ => hn
  rwa [Nat.mod_eq_of_lt hn] at hAxes

end IndexExpr
end ArrayKernel
