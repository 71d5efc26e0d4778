import ArrayKernel.Helper.Expansion
import ArrayKernel.Proofs.Brackets
import ArrayKernel.Proofs.CallNames
import ArrayKernel.Proofs.Substitution

/-!
# Expanding references to elements

A reference through a helper is a text with one call, and its arguments are sealed
expressions.  Expanding the helper puts the filled body in its place; expanding any
other helper leaves the text alone.  Along a chain of helpers that ends in storage,
every round of expansion therefore goes at least one helper further, and as many
rounds as there are helpers in the chain are enough.
-/

namespace ArrayKernel

namespace Text

theorem isPlainChar_of_isWordChar {c : Char} (h : isWordChar c = true) : isPlainChar c = true := by
  simp only [isPlainChar, Bool.and_eq_true, bne_iff_ne, ne_eq]
  refine ⟨⟨⟨⟨?_, ?_⟩, ?_⟩, ?_⟩, ?_⟩ <;> rintro rfl <;> exact absurd h (by decide)

theorem sealed_word {w : Text} (h : w.all isWordChar = true) : Sealed w :=
  sealed_of_all_isPlainChar
    (List.all_eq_true.mpr fun c hc => isPlainChar_of_isWordChar (List.all_eq_true.mp h c hc))

theorem solid_word {w : Text} (h : w.all isWordChar = true) : HasSolidEnds w :=
  ⟨fun c hc => isBlank_of_isWordChar (List.all_eq_true.mp h c (List.mem_of_head? hc)),
    fun c hc => isBlank_of_isWordChar (List.all_eq_true.mp h c (List.mem_of_getLast? hc))⟩

/-- The ends of a text are the ends of its outermost parts. -/
theorem HasSolidEnds.between {s t : Text} (hs : HasSolidEnds s) (ht : HasSolidEnds t)
    (hsne : s ≠ []) (htne : t ≠ []) (u : Text) : HasSolidEnds (s ++ (u ++ t)) := by
  obtain ⟨c, s, rfl⟩ := List.exists_cons_of_ne_nil hsne
  refine ⟨hs.1, ?_⟩
  intro d hd
  obtain ⟨last, hLast⟩ : ∃ last, t.getLast? = some last :=
    ⟨_, List.getLast?_eq_some_getLast htne⟩
  rw [← List.append_assoc, List.getLast?_append, hLast] at hd
  exact ht.2 d (hLast.trans hd)

end Text

namespace IndexExpr

/-! ## The text of an expression -/

theorem isName_cases {name : Text} (h : isName name = true) :
    Text.isIdentifier name = true ∨
      ∃ digits, name = '$' :: digits ∧ digits ≠ [] ∧ digits.all Char.isDigit = true := by
  unfold isName at h
  split at h
  · next digits =>
    obtain ⟨hne, hall⟩ : digits ≠ [] ∧ digits.all Char.isDigit = true := by
      simpa using h
    exact .inr ⟨digits, rfl, hne, hall⟩
  · exact .inl h

theorem text_ne_nil {e : IndexExpr} (h : e.isReadable = true) : e.text ≠ [] := by
  cases e with
  | const n => exact Text.ofNat_ne_nil n
  | var name =>
      rcases isName_cases h with hName | ⟨digits, rfl, -, -⟩
      · exact Text.ne_nil_of_isIdentifier hName
      · exact List.cons_ne_nil _ _
  | group e => simp [text]
  | add a b => simp [text]
  | mul a b => simp [text]
  | div a b => simp [text]
  | mod a b => simp [text]

/-- The text of an expression calls nothing. -/
theorem callNames_text {e : IndexExpr} (h : e.isReadable = true) :
    Text.callNames (Text.pieces e.text) = [] := by
  have hFactor (f : Factor) {a b : IndexExpr} (ha : Text.callNames (Text.pieces a.text) = [])
      (hb : Text.callNames (Text.pieces b.text) = []) :
      Text.callNames (Text.pieces (f.apply a b).text) = [] := by
    rw [pieces_text_factor, Text.callNames_append_other (by cases f <;> decide), ha, hb]
    rfl
  induction e with
  | const n => simp [text]
  | var name =>
      rcases isName_cases h with hName | ⟨digits, rfl, hne, hall⟩
      · simp [text, Text.pieces_identifier hName]
      · have hWord := Text.all_isWordChar_of_isDigit hall
        have hDollar : Text.isWordChar '$' = false := by decide
        simp [text, Text.pieces_cons_other hDollar, Text.pieces_word hne hWord]
  | group e ih =>
      rw [pieces_text_group]
      simp [Text.callNames_append_other, ih h]
  | add a b iha ihb =>
      simp only [isReadable, Bool.and_eq_true] at h
      rw [pieces_text_add, Text.callNames_append_other (by decide), iha h.1.1]
      simp [ihb h.1.2]
  | mul a b iha ihb =>
      simp only [isReadable, Bool.and_eq_true] at h
      exact hFactor .times (iha h.1.1.1) (ihb h.1.1.2)
  | div a b iha ihb =>
      simp only [isReadable, Bool.and_eq_true] at h
      exact hFactor .quotient (iha h.1.1.1) (ihb h.1.1.2)
  | mod a b iha ihb =>
      simp only [isReadable, Bool.and_eq_true] at h
      exact hFactor .remainder (iha h.1.1.1) (ihb h.1.1.2)

/-- The text of an expression can stand in an argument list. -/
theorem sealed_solid_text {e : IndexExpr} (h : e.isReadable = true) :
    Text.Sealed e.text ∧ Text.HasSolidEnds e.text := by
  have hFactor (f : Factor) {a b : IndexExpr} (ha : a.isReadable = true) (hb : b.isReadable = true)
      (iha : Text.Sealed a.text ∧ Text.HasSolidEnds a.text)
      (ihb : Text.Sealed b.text ∧ Text.HasSolidEnds b.text) :
      Text.Sealed (f.apply a b).text ∧ Text.HasSolidEnds (f.apply a b).text := by
    have hSign : Text.Sealed [f.sign] := by cases f <;> decide
    rw [text_factor]
    exact ⟨iha.1.append (hSign.append ihb.1),
      iha.2.between ihb.2 (text_ne_nil ha) (text_ne_nil hb) [f.sign]⟩
  induction e with
  | const n =>
      exact ⟨Text.sealed_word (Text.all_isWordChar_ofNat n),
        Text.solid_word (Text.all_isWordChar_ofNat n)⟩
  | var name =>
      rcases isName_cases h with hName | ⟨digits, rfl, hne, hall⟩
      · have hWord := Text.all_isWordChar_of_isIdentifier hName
        exact ⟨Text.sealed_word hWord, Text.solid_word hWord⟩
      · have hWord := Text.all_isWordChar_of_isDigit hall
        have hSealed : Text.Sealed ['$'] := by decide
        have hSolid : Text.HasSolidEnds ['$'] := Text.solid_singleton (by decide)
        exact ⟨hSealed.append (Text.sealed_word hWord),
          hSolid.between (Text.solid_word hWord) (List.cons_ne_nil _ _) hne []⟩
  | group e ih =>
      have hText : (group e).text = '(' :: (e.text ++ [')']) := by simp [text]
      have hOpen : Text.HasSolidEnds ['('] := Text.solid_singleton (by decide)
      have hClose : Text.HasSolidEnds [')'] := Text.solid_singleton (by decide)
      rw [hText]
      exact ⟨(ih h).1.bracketed.parenthesized,
        hOpen.between hClose (List.cons_ne_nil _ _) (List.cons_ne_nil _ _) e.text⟩
  | add a b iha ihb =>
      simp only [isReadable, Bool.and_eq_true] at h
      have hSign : Text.Sealed " + " := by decide
      have hText : (add a b).text = a.text ++ (" + " ++ b.text) := List.append_assoc ..
      rw [hText]
      exact ⟨(iha h.1.1).1.append (hSign.append (ihb h.1.2).1),
        (iha h.1.1).2.between (ihb h.1.2).2 (text_ne_nil h.1.1) (text_ne_nil h.1.2) " + "⟩
  | mul a b iha ihb =>
      simp only [isReadable, Bool.and_eq_true] at h
      exact hFactor .times h.1.1.1 h.1.1.2 (iha h.1.1.1) (ihb h.1.1.2)
  | div a b iha ihb =>
      simp only [isReadable, Bool.and_eq_true] at h
      exact hFactor .quotient h.1.1.1 h.1.1.2 (iha h.1.1.1) (ihb h.1.1.2)
  | mod a b iha ihb =>
      simp only [isReadable, Bool.and_eq_true] at h
      exact hFactor .remainder h.1.1.1 h.1.1.2 (iha h.1.1.1) (ihb h.1.1.2)

end IndexExpr

/-! ## Expanding one helper -/

theorem ElementRef.callNames_text_stored {pointer : Text} {offset : IndexExpr}
    (hPointer : Text.isIdentifier pointer = true) (hOffset : offset.isReadable = true) :
    Text.callNames (Text.pieces (stored pointer offset).text) = [] := by
  have hClose : Text.pieces [']'] = [.other ']'] := rfl
  rw [text_stored, IndexExpr.pieces_between _ _ (by decide),
    Text.callNames_append_other (by decide), Text.pieces_append (by decide), hClose,
    Text.callNames_append_other (by decide), Text.pieces_identifier hPointer,
    IndexExpr.callNames_text hOffset]
  rfl

theorem callNames_pieces_join {es : List IndexExpr} (h : ∀ e ∈ es, e.isReadable = true) :
    Text.callNames (Text.pieces (Text.join ", " (es.map IndexExpr.text))) = [] := by
  induction es with
  | nil => rfl
  | cons e es ih =>
      have he := IndexExpr.callNames_text (h e (.head _))
      cases es with
      | nil => exact he
      | cons d es =>
          have hPieces : Text.pieces (Text.join ", " ((e :: d :: es).map IndexExpr.text)) =
              Text.pieces e.text ++ .other ',' :: .other ' ' ::
                Text.pieces (Text.join ", " ((d :: es).map IndexExpr.text)) := by
            show Text.pieces (e.text ++ ", ".toList ++
              Text.join ", " ((d :: es).map IndexExpr.text)) = _
            rw [List.append_assoc]
            show Text.pieces (e.text ++ ',' :: ' ' :: _) = _
            rw [IndexExpr.pieces_between _ _ (by decide), Text.pieces_cons_other (by decide)]
            rfl
          rw [hPieces, Text.callNames_append_other (by decide), he]
          exact ih fun d hd => h d (.tail _ hd)

/-- A reference through a helper calls the helper and nothing else. -/
theorem ElementRef.callNames_text_through {helper : Text} {indices : List IndexExpr}
    (hHelper : Text.isIdentifier helper = true) (h : ∀ e ∈ indices, e.isReadable = true) :
    Text.callNames (Text.pieces (through helper indices).text) = [helper] := by
  have hClose : Text.pieces [')'] = [.other ')'] := rfl
  rw [text_through, IndexExpr.pieces_between _ _ (by decide), Text.pieces_identifier hHelper,
    Text.pieces_append (by decide), hClose]
  show helper :: Text.callNames (Text.pieces _ ++ [.other ')']) = [helper]
  rw [Text.callNames_append_other (by decide), callNames_pieces_join h]
  rfl

namespace Helper

theorem expand_of_not_called {h : Helper} (hName : Text.isIdentifier h.name = true) {t : Text}
    (hNot : h.name ∉ Text.callNames (Text.pieces t)) : h.expand t = some t :=
  expand_of_find_absent (CallSearch.find_eq_absent (Text.ne_nil_of_isIdentifier hName)
    (Text.all_isWordChar_of_isIdentifier hName) hNot)

/-- Expanding a helper puts its filled body in the place of a reference through it. -/
theorem expand_through {h : Helper} (hName : Text.isIdentifier h.name = true)
    {indices : List IndexExpr} (hArity : indices.length = h.arity)
    (hIndices : ∀ e ∈ indices, e.isReadable = true) :
    h.expand (ElementRef.through h.name indices).text =
      some (h.fill (indices.map IndexExpr.text)) := by
  have hTexts : ∀ t ∈ indices.map IndexExpr.text, Text.Sealed t ∧ Text.HasSolidEnds t ∧ t ≠ [] := by
    intro t ht
    obtain ⟨e, he, rfl⟩ := List.mem_map.mp ht
    obtain ⟨hSealed, hSolid⟩ := IndexExpr.sealed_solid_text (hIndices e he)
    exact ⟨hSealed, hSolid, IndexExpr.text_ne_nil (hIndices e he)⟩
  have hSplit : Text.splitArguments (Text.join ", " (indices.map IndexExpr.text)) =
      indices.map IndexExpr.text := by
    refine Text.IsArgument.splitArguments_join
      (fun t ht => (hTexts t ht).1.isArgument (hTexts t ht).2.1) ?_
    intro hEmpty
    exact (hTexts [] (by simp [hEmpty])).2.2 rfl
  have hFind : CallSearch.find h.name (ElementRef.through h.name indices).text =
      .call [] (Text.join ", " (indices.map IndexExpr.text) ++ [')']) := by
    rw [ElementRef.text_through]
    exact CallSearch.find_append (Text.ne_nil_of_isIdentifier hName) _
  have hClosing : Text.closing? 0 (Text.join ", " (indices.map IndexExpr.text) ++ [')']) =
      some (Text.join ", " (indices.map IndexExpr.text), []) :=
    (Text.bracketed_join fun t ht => (hTexts t ht).1.bracketed).closing?_eq_some []
  have hRest : h.expand [] = some [] :=
    expand_of_not_called hName (by simp [Text.pieces])
  have hCall : h.callText (Text.join ", " (indices.map IndexExpr.text)) =
      h.fill (indices.map IndexExpr.text) := by
    rw [callText, hSplit]
    exact if_pos (by rw [List.length_map, hArity])
  rw [expand_of_find_closed hFind hClosing, hRest, hCall]
  simp

/-- The body of the helper is the text of a reference, and the parameters stand where
any expression can take their place. -/
structure Refers (h : Helper) (r : ElementRef) : Prop where
  name_identifier : Text.isIdentifier h.name = true
  body_eq : h.body = r.text
  head_identifier : Text.isIdentifier r.head = true
  head_not_mem : r.head ∉ h.params
  readable : ∀ e ∈ r.parts, e.isReadable = true
  guarded : ∀ e ∈ r.parts, e.isGuarded h.params = true

theorem Refers.expand_through {h : Helper} {r : ElementRef} (hr : h.Refers r)
    {indices : List IndexExpr} (hArity : indices.length = h.arity)
    (hIndices : ∀ e ∈ indices, e.isReadable = true) :
    h.expand (ElementRef.through h.name indices).text =
      some (r.subst h.params indices).text := by
  rw [Helper.expand_through hr.name_identifier hArity hIndices, fill, hr.body_eq,
    ElementRef.fill_text hr.head_identifier hr.head_not_mem hr.readable]

end Helper

/-! ## Expanding a chain of helpers -/

/-- A reference that leads to storage through a number of helpers of a list. -/
inductive Resolves (helpers : List Helper) : Nat → ElementRef → ElementRef → Prop
  | stored {pointer : Text} {offset : IndexExpr} (hPointer : Text.isIdentifier pointer = true)
      (hOffset : offset.isReadable = true) :
      Resolves helpers 0 (.stored pointer offset) (.stored pointer offset)
  | through {h : Helper} {r result : ElementRef} {indices : List IndexExpr} {n : Nat}
      (hMem : h ∈ helpers) (hr : h.Refers r) (hArity : indices.length = h.arity)
      (hIndices : ∀ e ∈ indices, e.isReadable = true)
      (hRest : Resolves helpers n (r.subst h.params indices) result) :
      Resolves helpers (n + 1) (.through h.name indices) result

/-- No two helpers of the list have one name, and the names are identifiers. -/
structure DistinctNames (helpers : List Helper) : Prop where
  identifier : ∀ h ∈ helpers, Text.isIdentifier h.name = true
  eq_of_name_eq : ∀ h ∈ helpers, ∀ g ∈ helpers, h.name = g.name → h = g

namespace Resolves

variable {helpers : List Helper} {n : Nat} {x result : ElementRef}

/-- One helper takes the reference further along the chain, or it is not the helper of the
reference and leaves the text alone. -/
theorem expand (hDistinct : DistinctNames helpers) (hx : Resolves helpers n x result)
    {g : Helper} (hg : g ∈ helpers) :
    (∃ m y, m < n ∧ Resolves helpers m y result ∧ g.expand x.text = some y.text) ∨
      (g.expand x.text = some x.text ∧ ∀ indices, x ≠ .through g.name indices) := by
  have hName := hDistinct.identifier g hg
  cases hx with
  | stored hPointer hOffset =>
      refine .inr ⟨Helper.expand_of_not_called hName ?_, fun _ => nofun⟩
      rw [ElementRef.callNames_text_stored hPointer hOffset]
      exact List.not_mem_nil
  | @through h r _ indices m hMem hr hArity hIndices hRest =>
      by_cases hSame : h.name = g.name
      · obtain rfl := hDistinct.eq_of_name_eq h hMem g hg hSame
        exact .inl ⟨m, _, Nat.lt_succ_self m, hRest, hr.expand_through hArity hIndices⟩
      · refine .inr ⟨Helper.expand_of_not_called hName ?_, ?_⟩
        · rw [ElementRef.callNames_text_through hr.name_identifier hIndices]
          simpa using Ne.symm hSame
        · intro indices' heq
          exact hSame (ElementRef.through.inj heq).1

/-- A round over some helpers stays on the chain, and moves along it if the helper of the
reference is among them. -/
theorem expandRound (hDistinct : DistinctNames helpers) (hx : Resolves helpers n x result)
    {round : List Helper} (hRound : ∀ g ∈ round, g ∈ helpers) :
    ∃ m y, m ≤ n ∧ Resolves helpers m y result ∧
      ArrayKernel.expandRound round x.text = some y.text ∧
      ∀ g ∈ round, ∀ indices, x = .through g.name indices → m < n := by
  induction round generalizing n x with
  | nil => exact ⟨n, x, Nat.le_refl n, hx, rfl, fun _ hg => absurd hg List.not_mem_nil⟩
  | cons g round ih =>
      have hRest : ∀ f ∈ round, f ∈ helpers := fun f hf => hRound f (.tail _ hf)
      rcases hx.expand hDistinct (hRound g (.head _)) with
        ⟨m, y, hlt, hy, hExpand⟩ | ⟨hExpand, hOther⟩
      · -- this helper has moved, so it does not matter whether the later ones do
        obtain ⟨k, z, hle, hz, hFurther, -⟩ := ih hy hRest
        refine ⟨k, z, by omega, hz, ?_, fun _ _ _ _ => by omega⟩
        show (g.expand x.text).bind (ArrayKernel.expandRound round) = _
        rw [hExpand]
        exact hFurther
      · obtain ⟨k, z, hle, hz, hFurther, hMoves⟩ := ih hx hRest
        refine ⟨k, z, hle, hz, ?_, ?_⟩
        · show (g.expand x.text).bind (ArrayKernel.expandRound round) = _
          rw [hExpand]
          exact hFurther
        · intro f hf indices heq
          rcases List.mem_cons.mp hf with rfl | hf
          · exact absurd heq (hOther indices)
          · exact hMoves f hf indices heq

end Resolves

theorem expandRounds_of_fixed {helpers : List Helper} {text : Text}
    (h : expandRound helpers text = some text) (n : Nat) :
    expandRounds helpers n text = some text := by
  cases n with
  | zero => rfl
  | succ n => simp [expandRounds, h]

/-- As many rounds as the chain has helpers lead to storage. -/
theorem Resolves.expandRounds {helpers : List Helper} {n : Nat} {x result : ElementRef}
    (hDistinct : DistinctNames helpers) (hx : Resolves helpers n x result) {rounds : Nat}
    (hle : n ≤ rounds) : ArrayKernel.expandRounds helpers rounds x.text = some result.text := by
  induction rounds generalizing n x with
  | zero =>
      obtain rfl : n = 0 := by omega
      cases hx
      rfl
  | succ rounds ih =>
      obtain ⟨m, y, hmn, hy, hRound, hMoves⟩ := hx.expandRound hDistinct fun _ hg => hg
      have hBound : m ≤ rounds := by
        cases hx with
        | stored => omega
        | through hMem =>
            have := hMoves _ hMem _ rfl
            omega
      have hResult := ih hy hBound
      rw [ArrayKernel.expandRounds, hRound, Option.bind_some]
      split
      · next hFixed =>
        -- The round changed nothing, so neither did the rounds that led to the result.
        rw [hFixed] at hRound hResult
        exact (expandRounds_of_fixed hRound rounds).symm.trans hResult
      · exact hResult

end ArrayKernel
