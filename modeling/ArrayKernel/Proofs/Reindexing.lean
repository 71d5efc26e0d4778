import ArrayKernel.Proofs.Outcome
import ArrayKernel.Proofs.Rendering

/-!
# Indices in another shape

The texts that address an array in another shape of as many elements, in terms of the
indices in its own shape.  They are read as expressions whose values are the one index
with the same place in row-major order.  With the texts for the way back, filled with
those for the way there, the original index is found again.

The parentheses around a place are decided on its expression.  This is the decision that
counting the parentheses of its text comes to; for texts that are no expressions the two
need NOT agree.
-/

namespace ArrayKernel

namespace Text

/-! ## Parentheses around a text -/

/-- Whether a parenthesis is open behind every character but the last one. -/
def staysOpen (depth : Int) : Text → Bool
  | [] => true
  | c :: cs =>
    let next := if c = '(' then depth + 1 else if c = ')' then depth - 1 else depth
    (decide (0 < next) || cs.isEmpty) && staysOpen next cs

/-- A word, or a dollar sign and digits. -/
def isAtomic (t : Text) : Bool := t.all fun c => isWordChar c || c == '$'

/-- One pair of parentheses around the whole text. -/
def isOneGroup (t : Text) : Bool :=
  t.head? == some '(' && t.getLast? == some ')' && staysOpen 0 t

/-- The text as an operand: in parentheses unless it is atomic or one group already. -/
def grouped (t : Text) : Text := if isAtomic t || isOneGroup t then t else "(" ++ t ++ ")"

/-- Inside one more parenthesis nothing closes. -/
theorem staysOpen_append {depth last : Nat} {t : Text} (h : Levels '(' ')' depth t last)
    (rest : Text) :
    staysOpen (depth + 1 : Nat) (t ++ rest) = staysOpen (last + 1 : Nat) rest := by
  induction t generalizing depth with
  | nil =>
      rw [h.eq_of_nil]
      rfl
  | cons c t ih =>
      obtain ⟨hGoesOn, hNext⟩ := h.step (by decide)
      have hDepth : (if c = '(' then ((depth + 1 : Nat) : Int) + 1
          else if c = ')' then ((depth + 1 : Nat) : Int) - 1 else ((depth + 1 : Nat) : Int)) =
            (level '(' ')' depth c + 1 : Nat) := by
        grind [level]
      have hOpen : (0 : Int) < (level '(' ')' depth c + 1 : Nat) := by omega
      rw [List.cons_append, staysOpen, hDepth, decide_eq_true hOpen, Bool.true_or, Bool.true_and]
      exact ih hNext

/-- A character between two texts, the first of which closes its parentheses, stands outside
parentheses. -/
theorem staysOpen_between {depth : Nat} {s t : Text} {c : Char} (h : Levels '(' ')' depth s 0)
    (hOpening : c ≠ '(') (hClosing : c ≠ ')') (ht : t ≠ []) :
    staysOpen depth (s ++ c :: t) = false := by
  induction s generalizing depth with
  | nil =>
      have hZero : depth = 0 := h.eq_of_nil.symm
      simp [staysOpen, hOpening, hClosing, hZero, ht]
  | cons d s ih =>
      obtain ⟨hGoesOn, hNext⟩ := h.step (by decide)
      have hDepth : (if d = '(' then (depth : Int) + 1 else if d = ')' then (depth : Int) - 1
          else (depth : Int)) = (level '(' ')' depth d : Nat) := by
        grind [level]
      rw [List.cons_append, staysOpen, hDepth, ih hNext, Bool.and_false]

theorem grouped_of_isAtomic {t : Text} (h : isAtomic t = true) : grouped t = t := by
  simp [grouped, h]

theorem grouped_parenthesized {t : Text} (h : Closes '(' ')' t) :
    grouped ("(" ++ t ++ ")") = "(" ++ t ++ ")" := by
  have hText : "(" ++ t ++ ")" = '(' :: (t ++ [')']) := by simp
  have hInside : staysOpen 1 (t ++ [')']) = true := staysOpen_append h [')']
  have hStays : staysOpen 0 ('(' :: (t ++ [')'])) = true := by
    rw [staysOpen]
    simp [hInside]
  have hLast : ('(' :: (t ++ [')'])).getLast? = some ')' := by
    rw [← List.cons_append, List.getLast?_concat]
  have hGroup : isOneGroup ('(' :: (t ++ [')'])) = true := by
    simp [isOneGroup, hStays, hLast]
  rw [hText, grouped, hGroup, Bool.or_true, if_pos rfl]

theorem grouped_between {s t : Text} {c : Char} (h : Closes '(' ')' s) (ht : t ≠ [])
    (hc : isWordChar c = false) (hDollar : c ≠ '$') (hOpening : c ≠ '(') (hClosing : c ≠ ')') :
    grouped (s ++ c :: t) = "(" ++ (s ++ c :: t) ++ ")" := by
  have hAtomic : isAtomic (s ++ c :: t) = false := by
    simp [isAtomic, hc, hDollar]
  have hGroup : isOneGroup (s ++ c :: t) = false := by
    have hStays : staysOpen 0 (s ++ c :: t) = false := staysOpen_between h hOpening hClosing ht
    rw [isOneGroup, hStays, Bool.and_false]
  rw [grouped, hAtomic, hGroup]
  rfl

end Text

namespace IndexExpr

theorem isAtomic_of_all_isWordChar {t : Text} (h : t.all Text.isWordChar = true) :
    Text.isAtomic t = true := by
  refine List.all_eq_true.mpr fun c hc => ?_
  rw [List.all_eq_true.mp h c hc]
  rfl

theorem isAtomic_of_isName {name : Text} (h : isName name = true) : Text.isAtomic name = true := by
  rcases isName_cases h with hName | ⟨digits, rfl, -, hDigits⟩
  · exact isAtomic_of_all_isWordChar (Text.all_isWordChar_of_isIdentifier hName)
  · have hWord := isAtomic_of_all_isWordChar (Text.all_isWordChar_of_isDigit hDigits)
    simpa [Text.isAtomic] using hWord

theorem closes_text {e : IndexExpr} (h : e.isReadable = true) : Text.Closes '(' ')' e.text :=
  (sealed_solid_text h).1.bracketed.closes .round

/-- Counting the parentheses of a text that is read back tells whether its expression is an
operand. -/
theorem text_grouped {e : IndexExpr} (h : e.isReadable = true) :
    e.grouped.text = Text.grouped e.text := by
  have hFactor (f : Factor) {a b : IndexExpr} (ha : a.isReadable = true)
      (hb : b.isReadable = true) :
      (group (f.apply a b)).text = Text.grouped (f.apply a b).text := by
    -- the sign stands outside parentheses and belongs to no name
    rw [text, text_factor, Text.grouped_between (closes_text ha) (text_ne_nil hb)]
    all_goals cases f <;> decide
  cases e with
  | const n =>
      have hWord := isAtomic_of_all_isWordChar (Text.all_isWordChar_ofNat n)
      exact (Text.grouped_of_isAtomic hWord).symm
  | var name => exact (Text.grouped_of_isAtomic (isAtomic_of_isName h)).symm
  | group e => exact (Text.grouped_parenthesized (closes_text (e := e) h)).symm
  | add a b =>
      simp only [isReadable, Bool.and_eq_true] at h
      have hText : (add a b).text = a.text ++ ' ' :: ('+' :: ' ' :: b.text) := by simp [text]
      show "(" ++ (add a b).text ++ ")" = _
      rw [hText, Text.grouped_between (closes_text h.1.1) (List.cons_ne_nil _ _)]
      all_goals decide
  | mul a b =>
      simp only [isReadable, Bool.and_eq_true] at h
      exact hFactor .times h.1.1.1 h.1.1.2
  | div a b =>
      simp only [isReadable, Bool.and_eq_true] at h
      exact hFactor .quotient h.1.1.1 h.1.1.2
  | mod a b =>
      simp only [isReadable, Bool.and_eq_true] at h
      exact hFactor .remainder h.1.1.1 h.1.1.2

/-! ## The way there and back -/

/-- The indices in one shape of the element with given indices in another one. -/
def reindex? (shape target : Shape) : Option (List IndexExpr) :=
  (flatten? (axisNames shape.length) shape).bind fun place => unflatten? place target

/-- The indices in another shape, as texts. -/
def reindexTexts? (shape target : Shape) : Option (List Text) :=
  (reindex? shape target).map (·.map text)

variable {shape target : Shape}

theorem exists_reindex? (hShape : 0 ∉ shape) (hTarget : 0 ∉ target)
    (hVolume : shape.volume = target.volume) (hFits : shape.volume < Shape.wordSize) :
    ∃ indices, reindex? shape target = some indices ∧
      View.reshape.Passes shape target indices := by
  obtain ⟨place, hPlace⟩ :=
    exists_flatten? (Shape.count?_of_lt hShape hFits) (axisNames shape.length)
  obtain ⟨indices, hIndices⟩ :=
    exists_unflatten? (Shape.count?_of_lt hTarget (hVolume ▸ hFits)) place
  refine ⟨indices, ?_, View.passes_reshape hVolume hPlace hIndices⟩
  rw [reindex?, hPlace]
  exact hIndices

theorem reindexTexts?_of_empty (hShape : 0 ∈ shape) (hTarget : 0 ∈ target) :
    reindexTexts? shape target = some (List.replicate target.length ("0" : Text)) := by
  rw [reindexTexts?, reindex?, flatten?, if_pos hShape, Option.bind_some, unflatten?,
    if_pos hTarget, Option.map_some, List.map_replicate]
  rfl

/-- The place of an element can be written as an operand by looking at its text. -/
theorem text_grouped_flatten? {place : IndexExpr}
    (h : flatten? (axisNames shape.length) shape = some place) :
    place.grouped.text = Text.grouped place.text := by
  have hFillable : Fillable [] place :=
    (fillable_of_flatten? h fun _ hName => isName_of_mem_axisNames hName).1
  exact text_grouped hFillable.readable

/-- Filling the texts for the way back substitutes in their expressions. -/
theorem map_substituteParams_text {indices args : List IndexExpr} {rank : Nat}
    (hReadable : ∀ e ∈ indices, e.isReadable = true) (hRank : args.length = rank) :
    (indices.map text).map (Text.substituteParams (axisNames rank) (args.map text)) =
      ((indices.map (·.subst (axisNames rank) args)).map text).map Except.ok := by
  have hLength : (axisNames rank).length ≤ (args.map text).length := by simp [axisNames, hRank]
  simp only [List.map_map]
  refine List.map_congr_left fun e he => ?_
  show Text.substituteParams (axisNames rank) (args.map text) e.text = _
  rw [Text.substituteParams_of_length_le hLength, fill_text (hReadable e he)]
  rfl

theorem denote_subst {indices args : List IndexExpr} {env : Text → Option Int}
    {params : List Text} {index : List Nat}
    (h : Denote (bindArguments params args env) indices index) :
    Denote env (indices.map (·.subst params args)) index := by
  unfold Denote at h ⊢
  rw [← h, List.map_map]
  exact List.map_congr_left fun e _ => value?_subst params args env e

/-- The way back from the image of an index leads to the index. -/
theorem denote_way_back {there back : List IndexExpr} {env : Text → Option Int} {index : List Nat}
    (hThere : View.reshape.Passes shape target there)
    (hBack : View.reshape.Passes target shape back) (hVolume : shape.volume = target.volume)
    (hIn : shape.InBounds index) (hNames : Denote env ((axisNames shape.length).map var) index) :
    Denote env (back.map (·.subst (axisNames target.length) there)) index := by
  have hPlace : shape.rowMajor index < target.volume := hVolume ▸ Shape.rowMajor_lt_volume hIn
  -- with the texts for the way there as arguments, the parameters have the image as values
  have hImage := hBack.denote (Shape.ofRowMajor_inBounds hPlace)
    (denote_bindArguments hThere.length_eq (hThere.denote hIn hNames))
  have hIndex : View.reshape.reference target shape
      (target.ofRowMajor (shape.rowMajor index)) = index := by
    rw [View.reference, Shape.rowMajor_ofRowMajor hPlace, Shape.ofRowMajor_rowMajor hIn]
  rw [hIndex] at hImage
  exact denote_subst hImage

end IndexExpr

/-- There is one index for each place. -/
theorem Shape.inBounds_and_rowMajor_iff {s : Shape} {n : Nat} (h : n < s.volume)
    (index : List Nat) : s.InBounds index ∧ s.rowMajor index = n ↔ index = s.ofRowMajor n := by
  constructor
  · rintro ⟨hIn, rfl⟩
    exact (ofRowMajor_rowMajor hIn).symm
  · rintro rfl
    exact ⟨ofRowMajor_inBounds h, rowMajor_ofRowMajor h⟩

/-- **Reshaping keeps the place of every element.**  For shapes of as many elements, all extents
positive, the texts for the indices in the second shape have as their values the one index
there with the same place.  The texts for the way back, filled with them, have as their values
the index that one started from.  For shapes without elements all texts are zeros.  The
parentheses around the place are those that its text asks for. -/
theorem reindexing_keeps_place (shape target : Shape) :
    (0 ∉ shape → 0 ∉ target → shape.volume = target.volume → shape.volume < Shape.wordSize →
      ∃ there back, IndexExpr.reindexTexts? shape target = some there ∧
        IndexExpr.reindexTexts? target shape = some back ∧ there.length = target.length ∧
        ∀ index env, shape.InBounds index →
          IndexExpr.Denote env ((IndexExpr.axisNames shape.length).map .var) index →
            (∃ image, (∀ other, target.InBounds other ∧
                target.rowMajor other = shape.rowMajor index ↔ other = image) ∧
              ArgumentsDenote env there image) ∧
            ∃ filled, back.map (Text.substituteParams (IndexExpr.axisNames target.length) there) =
                filled.map .ok ∧ ArgumentsDenote env filled index) ∧
    (0 ∈ shape → 0 ∈ target →
      IndexExpr.reindexTexts? shape target = some (List.replicate target.length ("0" : Text))) ∧
    ∀ place, IndexExpr.flatten? (IndexExpr.axisNames shape.length) shape = some place →
      place.grouped.text = Text.grouped place.text := by
  refine ⟨?_, IndexExpr.reindexTexts?_of_empty, fun _ => IndexExpr.text_grouped_flatten?⟩
  intro hShape hTarget hVolume hFits
  obtain ⟨there, hThere, hPasses⟩ := IndexExpr.exists_reindex? hShape hTarget hVolume hFits
  obtain ⟨back, hBack, hReturns⟩ :=
    IndexExpr.exists_reindex? hTarget hShape hVolume.symm (hVolume ▸ hFits)
  have hReadable : ∀ e ∈ there, e.isReadable = true := fun e he =>
    (hPasses.fillable e he).readable
  refine ⟨there.map IndexExpr.text, back.map IndexExpr.text, ?_, ?_, ?_, ?_⟩
  · rw [IndexExpr.reindexTexts?, hThere, Option.map_some]
  · rw [IndexExpr.reindexTexts?, hBack, Option.map_some]
  · rw [List.length_map, hPasses.length_eq]
  · intro index env hIn hNames
    have hPlace : shape.rowMajor index < target.volume := hVolume ▸ Shape.rowMajor_lt_volume hIn
    refine ⟨⟨target.ofRowMajor (shape.rowMajor index), Shape.inBounds_and_rowMajor_iff hPlace, ?_⟩,
      (back.map (·.subst (IndexExpr.axisNames target.length) there)).map IndexExpr.text, ?_, ?_⟩
    · exact argumentsDenote_of_denote hReadable (hPasses.denote hIn hNames)
    · exact IndexExpr.map_substituteParams_text
        (fun e he => (hReturns.fillable e he).readable) hPasses.length_eq
    · exact argumentsDenote_of_denote (hReturns.isReadable_subst hReadable)
        (IndexExpr.denote_way_back hPasses hReturns hVolume hIn hNames)

/-- A shape with a unit axis: the texts for the way there, and the element at the indices one,
zero and five, which is the last one of both shapes. -/
theorem reindexing_keeps_last_place :
    let env : Text → Option Int := fun name => ((IndexExpr.axisNames 3).zip [1, 0, 5]).lookup name
    ∃ there back, IndexExpr.reindexTexts? [2, 1, 6] [3, 4] = some there ∧
      IndexExpr.reindexTexts? [3, 4] [2, 1, 6] = some back ∧
      there = ["((i0)*6 + (i2))/4", "((i0)*6 + (i2))%4"] ∧ ArgumentsDenote env there [2, 3] ∧
      (∃ filled, back.map (Text.substituteParams ["i0", "i1"] there) = filled.map .ok ∧
        ArgumentsDenote env filled [1, 0, 5]) ∧
      IndexExpr.reindexTexts? [2, 0] [0] = some [("0" : Text)] := by
  intro env
  obtain ⟨there, back, hThere, hBack, -, hValues⟩ :=
    (reindexing_keeps_place [2, 1, 6] [3, 4]).1 (by decide) (by decide) (by decide) (by decide)
  have hEmpty := (reindexing_keeps_place [2, 0] [0]).2.1 (by decide) (by decide)
  obtain ⟨⟨image, hImage, hDenote⟩, hFilled⟩ := hValues [1, 0, 5] env (by decide) (by decide)
  have hLast : [2, 3] = image := (hImage [2, 3]).mp (by decide)
  rw [← hLast] at hDenote
  have hTexts : IndexExpr.reindexTexts? [2, 1, 6] [3, 4] =
      some (["((i0)*6 + (i2))/4", "((i0)*6 + (i2))%4"] : List Text) := by
    decide
  exact ⟨there, back, hThere, hBack, Option.some.inj (hThere.symm.trans hTexts), hDenote, hFilled,
    hEmpty⟩

end ArrayKernel
