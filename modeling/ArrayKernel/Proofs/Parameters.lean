import ArrayKernel.Proofs.FirstCall
import ArrayKernel.Proofs.Templates
import ArrayKernel.Text.Parameter
import Mathlib.Data.List.SplitBy

/-!
# Parameters as whole words

A text falls into its maximal runs of word characters and the texts between them.  Filling in
arguments replaces the runs that name a parameter, all at once, and keeps everything else.  It
fails exactly where a run names a parameter that has no argument.

The same text comes out of a scan that goes from one letter or underscore to the next and does
NOT know about runs: it takes the identifier that begins there and looks one character back, to
see whether the identifier is the end of a word that begins with a digit.
-/

namespace ArrayKernel
namespace Text

/-! ## Runs and what they give way to -/

/-- The maximal runs of word characters and the texts between them, in order. -/
def runs (t : Text) : List Text := t.splitBy fun c d => isWordChar c == isWordChar d

/-- The first parameter equal to a word has an index. -/
structure FirstAt (params : List Text) (word : Text) (k : Nat) : Prop where
  getElem?_eq : params[k]? = some word
  not_mem_take : word ∉ params.take k

/-- What a run gives way to. -/
inductive Replaces (params args : List Text) : Text → Text → Prop
  | argument {run arg : Text} {k : Nat} (hStart : startsIdentifier run = true)
      (hFirst : FirstAt params run k) (hArg : args[k]? = some arg) : Replaces params args run arg
  | kept {run : Text} (h : startsIdentifier run = false ∨ run ∉ params) :
      Replaces params args run run

/-- A run names a parameter that has no argument. -/
def Lacks (params args : List Text) (run : Text) : Prop :=
  startsIdentifier run = true ∧ ∃ k, FirstAt params run k ∧ args.length ≤ k

/-! ## The scan -/

/-- The argument of the parameter that an identifier names, else the identifier. -/
def replacement (params args : List Text) (word : Text) : Except MissingArgument Text :=
  (params.idxOf? word).elim (.ok word) fun k => args[k]?.elim (.error ⟨args.length, k⟩) .ok

/-- The text in front of the first letter or underscore. -/
def lead (t : Text) : Text := t.takeWhile fun c => !isWordStart c

/-- The text from the first letter or underscore on. -/
def ahead (t : Text) : Text := t.dropWhile fun c => !isWordStart c

theorem lead_append (t : Text) :
    lead t ++ (leadingIdentifier (ahead t) ++ behindIdentifier (ahead t)) = t := by
  rw [leadingIdentifier_append]
  exact List.takeWhile_append_dropWhile

/-- Replaces one identifier after the other, unless a word character precedes it. -/
def scanParams (params args : List Text) (t : Text) : Except MissingArgument Text :=
  if h : leadingIdentifier (ahead t) = [] then .ok t
  else
    have : (behindIdentifier (ahead t)).length < t.length := by
      have hLength := congrArg List.length (lead_append t)
      have hPos := List.length_pos_iff.mpr h
      simp only [List.length_append] at hLength
      omega
    (if endsInWord (lead t) then .ok (leadingIdentifier (ahead t))
      else replacement params args (leadingIdentifier (ahead t))).bind fun text =>
        (scanParams params args (behindIdentifier (ahead t))).map fun more => lead t ++ text ++ more
termination_by t.length

/-! ## Filling in part by part -/

variable {params args : List Text}

theorem firstAt_iff {word : Text} {k : Nat} :
    FirstAt params word k ↔ params.idxOf? word = some k := by
  rw [List.idxOf?_eq_some_iff]
  constructor
  · rintro ⟨hGet, hNot⟩
    obtain ⟨hLt, hEq⟩ := List.getElem?_eq_some_iff.mp hGet
    refine ⟨hLt, hEq, fun j hj hSame => hNot ?_⟩
    exact List.mem_take_iff_getElem.mpr ⟨j, by omega, hSame⟩
  · rintro ⟨hLt, hEq, hNot⟩
    refine ⟨List.getElem?_eq_some_iff.mpr ⟨hLt, hEq⟩, fun hMem => ?_⟩
    obtain ⟨j, hj, hSame⟩ := List.mem_take_iff_getElem.mp hMem
    exact hNot j (by omega) hSame

theorem replacement_eq_ok_iff {word result : Text} (hStart : startsIdentifier word = true) :
    replacement params args word = .ok result ↔ Replaces params args word result := by
  unfold replacement
  constructor
  · intro h
    cases hIndex : params.idxOf? word with
    | none =>
        rw [hIndex] at h
        cases h
        exact .kept (.inr (List.idxOf?_eq_none_iff.mp hIndex))
    | some k =>
        rw [hIndex] at h
        cases hArg : args[k]? with
        | none => simp [hArg] at h
        | some arg =>
            simp only [Option.elim_some, hArg, Except.ok.injEq] at h
            subst h
            exact .argument hStart (firstAt_iff.mpr hIndex) hArg
  · intro h
    cases h with
    | argument _ hFirst hArg => rw [firstAt_iff.mp hFirst, Option.elim_some, hArg, Option.elim_some]
    | kept hKept =>
        have hNot : word ∉ params := hKept.resolve_left (by simp [hStart])
        rw [List.idxOf?_eq_none_iff.mpr hNot, Option.elim_none]

/-- Where no word goes on from one text into the next, they can be filled in one by one. -/
theorem substituteParams_append {s t : Text}
    (h : endsInWord s = false ∨ t.head?.any isWordChar = false) :
    substituteParams params args (s ++ t) =
      (substituteParams params args s).bind fun text =>
        (substituteParams params args t).map (text ++ ·) := by
  have hPieces : pieces (s ++ t) = pieces s ++ pieces t :=
    h.elim (fun hEnds => pieces_append_of_endsInWord hEnds t) pieces_append
  have hFill : fill params args (s ++ t) = fill params args s ++ fill params args t := by
    unfold fill
    rw [hPieces, List.flatMap_append]
  unfold substituteParams
  rw [hPieces, List.findSome?_append, hFill]
  cases (pieces s).findSome? (Piece.missing? params args) with
  | some e => rfl
  | none => cases (pieces t).findSome? (Piece.missing? params args) <;> rfl

/-- A text in which no word names a parameter stays. -/
theorem substituteParams_of_parameter? {t : Text}
    (h : ∀ w, .word w ∈ pieces t → parameter? params w = none) :
    substituteParams params args t = .ok t := by
  have hMissing : (pieces t).findSome? (Piece.missing? params args) = none := by
    rw [List.findSome?_eq_none_iff]
    intro p hp
    cases p with
    | other c => rfl
    | word w => simp [Piece.missing?, h w hp]
  have hFill : ∀ p ∈ pieces t, p.fill params args = p.text := by
    intro p hp
    cases p with
    | other c => rfl
    | word w => simp [Piece.fill, Piece.text, argument, h w hp]
  have hText : fill params args t = t := by
    unfold fill
    rw [List.flatMap_congr hFill, flatMap_text_pieces]
  simp only [substituteParams, hMissing, hText]

/-- A text without letters and underscores stays. -/
theorem substituteParams_of_not_isWordStart {t : Text} (h : ∀ c ∈ t, isWordStart c = false) :
    substituteParams params args t = .ok t := by
  refine substituteParams_of_parameter? fun w hw => ?_
  have hStart : startsIdentifier w = false := by
    cases w with
    | nil => rfl
    | cons c w =>
        have hMem : c ∈ (pieces t).flatMap Piece.text :=
          List.mem_flatMap.mpr ⟨_, hw, List.mem_cons_self⟩
        rw [flatMap_text_pieces] at hMem
        simpa [startsIdentifier] using h c hMem
  simp [parameter?, hStart]

/-- A word that begins with a digit stays. -/
theorem substituteParams_of_not_startsIdentifier {w : Text} (hall : w.all isWordChar = true)
    (h : startsIdentifier w = false) : substituteParams params args w = .ok w := by
  refine substituteParams_of_parameter? fun v hv => ?_
  by_cases hNil : w = []
  · simp [hNil, pieces] at hv
  · rw [pieces_word hNil hall, List.mem_singleton] at hv
    cases hv
    simp [parameter?, h]

/-- An identifier gives way to the argument of the parameter that it names. -/
theorem substituteParams_identifier {w : Text} (h : isIdentifier w = true) :
    substituteParams params args w = replacement params args w := by
  have hStart := startsIdentifier_of_isIdentifier h
  cases hIndex : params.idxOf? w with
  | none =>
      have hKept : ∀ v, .word v ∈ pieces w → parameter? params v = none := by
        intro v hv
        rw [pieces_identifier h, List.mem_singleton] at hv
        cases hv
        simp [parameter?, hStart, hIndex]
      rw [substituteParams_of_parameter? hKept, replacement, hIndex, Option.elim_none]
  | some k =>
      rw [replacement, hIndex, Option.elim_some]
      cases hArg : args[k]? with
      | none =>
          have hLength := List.getElem?_eq_none_iff.mp hArg
          simp [substituteParams, pieces_identifier h, Piece.missing?, parameter?, hStart, hIndex,
            hLength]
      | some arg =>
          obtain ⟨hLt, hEq⟩ := List.getElem?_eq_some_iff.mp hArg
          simp [substituteParams, pieces_identifier h, Piece.missing?, parameter?, hStart, hIndex,
            Nat.not_le.mpr hLt, fill, Piece.fill, argument, hArg]

/-! ## The scan fills in the same text -/

theorem isWordStart_of_mem_lead {t : Text} {c : Char} (h : c ∈ lead t) :
    isWordStart c = false := by
  have hNot : (!isWordStart c) = true := List.all_eq_true.mp List.all_takeWhile c h
  simpa using hNot

theorem startsIdentifier_ahead {t : Text} (h : ahead t ≠ []) :
    startsIdentifier (ahead t) = true := by
  have hHead := List.head?_dropWhile_not (fun c => !isWordStart c) t
  obtain ⟨c, cs, hAhead⟩ := List.exists_cons_of_ne_nil h
  have hDrop : t.dropWhile (fun c => !isWordStart c) = c :: cs := hAhead
  rw [hDrop] at hHead
  rw [hAhead]
  simpa [startsIdentifier] using hHead

/-- A text is a text that ends outside words, and a word or nothing. -/
theorem exists_last_word (t : Text) :
    ∃ s w, t = s ++ w ∧ endsInWord s = false ∧ w.all isWordChar = true := by
  induction t using word_induction with
  | word w hw => exact ⟨[], w, rfl, rfl, hw⟩
  | step w c t hw hc ih =>
      obtain ⟨s, v, rfl, hEnds, hv⟩ := ih
      exact ⟨w ++ c :: s, v, by simp, by rw [endsInWord_append_cons hc, hEnds], hv⟩

section Step

variable {before word behind : Text} (hBefore : ∀ c ∈ before, isWordStart c = false)
  (hWord : isIdentifier word = true) (hBehind : behind.head?.any isWordChar = false)

include hBefore hWord hBehind

/-- An identifier that is a whole word is replaced. -/
theorem substituteParams_whole (hEnds : endsInWord before = false) :
    substituteParams params args (before ++ (word ++ behind)) =
      (replacement params args word).bind fun text =>
        (substituteParams params args behind).map fun more => before ++ text ++ more := by
  rw [substituteParams_append (.inl hEnds), substituteParams_append (.inr hBehind),
    substituteParams_of_not_isWordStart hBefore, substituteParams_identifier hWord]
  cases replacement params args word with
  | error e => rfl
  | ok text =>
      cases substituteParams params args behind with
      | error e => rfl
      | ok more => simp [Except.bind, Except.map]

/-- An identifier that is the end of a word stays, for the word begins with a digit. -/
theorem substituteParams_tail (hEnds : endsInWord before = true) :
    substituteParams params args (before ++ (word ++ behind)) =
      (substituteParams params args behind).map fun more => before ++ word ++ more := by
  -- the word that the identifier ends begins in front of it, where no letter stands
  obtain ⟨s, digits, rfl, hs, hDigits⟩ := exists_last_word before
  have hne : digits ≠ [] := by
    rintro rfl
    rw [List.append_nil, hs] at hEnds
    cases hEnds
  obtain ⟨d, digits, rfl⟩ := List.exists_cons_of_ne_nil hne
  have hStays : substituteParams params args s = .ok s :=
    substituteParams_of_not_isWordStart fun c hc => hBefore c (List.mem_append_left _ hc)
  have hKept : substituteParams params args (d :: digits ++ word) = .ok (d :: digits ++ word) := by
    refine substituteParams_of_not_startsIdentifier ?_ ?_
    · rw [List.all_append, hDigits, all_isWordChar_of_isIdentifier hWord]
      rfl
    · simpa [startsIdentifier] using hBefore d (by simp)
  have hText : s ++ d :: digits ++ (word ++ behind) = s ++ ((d :: digits ++ word) ++ behind) := by
    simp
  rw [hText, substituteParams_append (.inl hs), substituteParams_append (.inr hBehind), hStays,
    hKept]
  cases substituteParams params args behind with
  | error e => rfl
  | ok more => simp [Except.bind, Except.map]

end Step

theorem scanParams_eq (params args : List Text) (t : Text) :
    scanParams params args t = substituteParams params args t := by
  fun_induction scanParams params args t with
  | case1 t h =>
      -- no identifier begins ahead, so there is no letter in the whole text
      have hAhead : ahead t = [] := by
        refine Decidable.byContradiction fun hne => ?_
        have hStart := startsIdentifier_ahead hne
        rcases leadingIdentifier_cases (ahead t) with ⟨-, hNot⟩ | ⟨hWord, -⟩
        · rw [hStart] at hNot
          cases hNot
        · exact ne_nil_of_isIdentifier hWord h
      have hLead : lead t = t := by
        have hText := lead_append t
        rwa [hAhead, leadingIdentifier_append, List.append_nil] at hText
      refine (substituteParams_of_not_isWordStart fun c hc => ?_).symm
      rw [← hLead] at hc
      exact isWordStart_of_mem_lead hc
  | case2 t h _ ih =>
      obtain ⟨hWord, hBehind⟩ :=
        (leadingIdentifier_cases (ahead t)).resolve_left fun hNone => h hNone.1
      have hLead : ∀ c ∈ lead t, isWordStart c = false := fun _ => isWordStart_of_mem_lead
      rw [ih]
      cases hEnds : endsInWord (lead t) with
      | false =>
          refine (substituteParams_whole hLead hWord hBehind hEnds).symm.trans ?_
          rw [lead_append]
      | true =>
          refine (substituteParams_tail hLead hWord hBehind hEnds).symm.trans ?_
          rw [lead_append]

/-! ## Run by run -/

theorem isWordStart_of_isWordChar {c : Char} (h : isWordChar c = false) :
    isWordStart c = false := by
  cases hc : isWordStart c with
  | false => rfl
  | true =>
      rw [isWordChar_of_isWordStart hc] at h
      cases h

/-- All characters belong to words, or none does. -/
def IsUniform (t : Text) : Prop := t.all isWordChar = true ∨ ∀ c ∈ t, isWordChar c = false

theorem isUniform_of_mem_runs {t run : Text} (h : run ∈ runs t) : IsUniform run := by
  -- the chain compares neighbours; the induction carries it to the first character
  have hChain := List.isChain_of_mem_splitBy h
  clear h
  induction run with
  | nil => exact .inl rfl
  | cons c run ih =>
      have hSame : ∀ d ∈ run, isWordChar d = isWordChar c := by
        intro d hd
        cases run with
        | nil => cases hd
        | cons e run =>
            obtain ⟨hNext, hRest⟩ := List.isChain_cons_cons.mp hChain
            have hce : isWordChar c = isWordChar e := by simpa using hNext
            rcases ih hRest with hAll | hNone
            · rw [hce, List.all_eq_true.mp hAll d hd, List.all_eq_true.mp hAll e (.head _)]
            · rw [hce, hNone d hd, hNone e (.head _)]
      cases hc : isWordChar c with
      | true => exact .inl (by simpa [hc] using hSame)
      | false =>
          refine .inr fun d hd => ?_
          rcases List.mem_cons.mp hd with rfl | hd
          · exact hc
          · rw [hSame d hd, hc]

theorem replaces_iff_eq {run result : Text} (h : startsIdentifier run = false) :
    Replaces params args run result ↔ run = result := by
  constructor
  · intro hReplaces
    cases hReplaces with
    | argument hStart =>
        rw [h] at hStart
        cases hStart
    | kept => rfl
  · rintro rfl
    exact .kept (.inl h)

/-- A run gives way to an argument or stays, where the argument is not missing. -/
theorem substituteParams_eq_ok_iff_of_isUniform {run result : Text} (h : IsUniform run) :
    substituteParams params args run = .ok result ↔ Replaces params args run result := by
  rcases h with hAll | hNone
  · cases hStart : startsIdentifier run with
    | true =>
        have hIdentifier : isIdentifier run = true := by
          rw [isIdentifier, hStart, hAll]
          rfl
        rw [substituteParams_identifier hIdentifier, replacement_eq_ok_iff hStart]
    | false =>
        rw [substituteParams_of_not_startsIdentifier hAll hStart, replaces_iff_eq hStart,
          Except.ok.injEq]
  · have hNot : ∀ c ∈ run, isWordStart c = false := fun c hc =>
      isWordStart_of_isWordChar (hNone c hc)
    have hStart : startsIdentifier run = false := by
      cases run with
      | nil => rfl
      | cons c run => simpa [startsIdentifier] using hNot c (.head _)
    rw [substituteParams_of_not_isWordStart hNot, replaces_iff_eq hStart, Except.ok.injEq]

/-- Runs that do not go on from one to the next are filled in one by one. -/
theorem substituteParams_flatten_eq_ok_iff {parts : List Text} {result : Text}
    (hUniform : ∀ part ∈ parts, IsUniform part)
    (hChain : parts.IsChain fun a b =>
      ∃ ha hb, (isWordChar (a.getLast ha) == isWordChar (b.head hb)) = false) :
    substituteParams params args parts.flatten = .ok result ↔
      ∃ results, List.Forall₂ (Replaces params args) parts results ∧ results.flatten = result := by
  induction parts generalizing result with
  | nil =>
      have hEmpty : substituteParams params args [] = .ok [] := rfl
      simp [hEmpty]
  | cons part parts ih =>
      -- neighbouring runs differ in kind, so no word goes on from one into the next
      have hCut : endsInWord part = false ∨ parts.flatten.head?.any isWordChar = false := by
        cases parts with
        | nil => exact .inr rfl
        | cons next parts =>
            obtain ⟨⟨ha, hb, hDiffer⟩, -⟩ := List.isChain_cons_cons.mp hChain
            obtain ⟨d, ds, rfl⟩ := List.exists_cons_of_ne_nil hb
            cases hLast : isWordChar (part.getLast ha) with
            | false => exact .inl (by simp [endsInWord, List.getLast?_eq_some_getLast ha, hLast])
            | true => exact .inr (by simpa [hLast] using hDiffer)
      have hPart (text : Text) :
          substituteParams params args part = .ok text ↔ Replaces params args part text :=
        substituteParams_eq_ok_iff_of_isUniform (hUniform part (.head _))
      have hParts (text : Text) : substituteParams params args parts.flatten = .ok text ↔
          ∃ results, List.Forall₂ (Replaces params args) parts results ∧ results.flatten = text :=
        ih (fun u hu => hUniform u (.tail _ hu)) hChain.tail
      rw [List.flatten_cons, substituteParams_append hCut]
      constructor
      · intro h
        cases hFirst : substituteParams params args part with
        | error e =>
            rw [hFirst] at h
            cases h
        | ok text =>
            cases hRest : substituteParams params args parts.flatten with
            | error e =>
                rw [hFirst, hRest] at h
                cases h
            | ok more =>
                rw [hFirst, hRest] at h
                cases h
                obtain ⟨results, hAll, rfl⟩ := (hParts more).mp hRest
                exact ⟨text :: results, .cons ((hPart text).mp hFirst) hAll, rfl⟩
      · rintro ⟨results, hAll, rfl⟩
        cases hAll with
        | cons hFirst hRest =>
            rw [(hPart _).mpr hFirst, (hParts _).mpr ⟨_, hRest, rfl⟩]
            rfl

theorem substituteParams_eq_ok_iff {t result : Text} :
    substituteParams params args t = .ok result ↔
      ∃ results, List.Forall₂ (Replaces params args) (runs t) results ∧
        results.flatten = result := by
  have hFlatten : (runs t).flatten = t := List.flatten_splitBy _ t
  have hChain : (runs t).IsChain fun a b =>
      ∃ ha hb, (isWordChar (a.getLast ha) == isWordChar (b.head hb)) = false :=
    List.isChain_getLast_head_splitBy (fun c d => isWordChar c == isWordChar d) t
  rw [← substituteParams_flatten_eq_ok_iff (fun _ => isUniform_of_mem_runs) hChain, hFlatten]

/-- A run has a replacement unless it lacks an argument. -/
theorem exists_replaces_iff {run : Text} :
    (∃ result, Replaces params args run result) ↔ ¬ Lacks params args run := by
  constructor
  · rintro ⟨result, hReplaces⟩ ⟨hStart, k, hFirst, hLength⟩
    have hIndex := firstAt_iff.mp hFirst
    cases hReplaces with
    | argument _ hFirst' hArg =>
        obtain rfl : k = _ := Option.some.inj (hIndex.symm.trans (firstAt_iff.mp hFirst'))
        rw [List.getElem?_eq_none hLength] at hArg
        cases hArg
    | kept hKept =>
        have hNot : run ∉ params := hKept.resolve_left (by simp [hStart])
        rw [List.idxOf?_eq_none_iff.mpr hNot] at hIndex
        cases hIndex
  · intro hNot
    cases hStart : startsIdentifier run with
    | false => exact ⟨run, .kept (.inl hStart)⟩
    | true =>
        cases hIndex : params.idxOf? run with
        | none => exact ⟨run, .kept (.inr (List.idxOf?_eq_none_iff.mp hIndex))⟩
        | some k =>
            have hFirst := firstAt_iff.mpr hIndex
            have hLt : k < args.length := Nat.lt_of_not_le fun hLe => hNot ⟨hStart, k, hFirst, hLe⟩
            exact ⟨args[k], .argument hStart hFirst (List.getElem?_eq_getElem hLt)⟩

theorem exists_forall₂_replaces_iff {parts : List Text} :
    (∃ results, List.Forall₂ (Replaces params args) parts results) ↔
      ∀ part ∈ parts, ¬ Lacks params args part := by
  induction parts with
  | nil => simp
  | cons part parts ih =>
      rw [List.forall_mem_cons, ← ih, ← exists_replaces_iff]
      constructor
      · rintro ⟨results, hAll⟩
        obtain ⟨result, further, hFirst, hRest, -⟩ := List.forall₂_cons_left_iff.mp hAll
        exact ⟨⟨result, hFirst⟩, further, hRest⟩
      · rintro ⟨⟨result, hFirst⟩, further, hRest⟩
        exact ⟨result :: further, .cons hFirst hRest⟩

theorem substituteParams_eq_error_iff {t : Text} :
    (∃ e, substituteParams params args t = .error e) ↔ ∃ run ∈ runs t, Lacks params args run := by
  have hOk : (∃ result, substituteParams params args t = .ok result) ↔
      ∀ run ∈ runs t, ¬ Lacks params args run := by
    rw [← exists_forall₂_replaces_iff]
    constructor
    · rintro ⟨result, hText⟩
      obtain ⟨results, hAll, -⟩ := substituteParams_eq_ok_iff.mp hText
      exact ⟨results, hAll⟩
    · rintro ⟨results, hAll⟩
      exact ⟨results.flatten, substituteParams_eq_ok_iff.mpr ⟨results, hAll, rfl⟩⟩
  cases hText : substituteParams params args t with
  | error e =>
      refine iff_of_true ⟨e, rfl⟩ (Classical.byContradiction fun hNone => ?_)
      obtain ⟨result, hResult⟩ := hOk.mpr fun run hRun hLacks => hNone ⟨run, hRun, hLacks⟩
      cases hText.symm.trans hResult
  | ok result =>
      refine iff_of_false (by rintro ⟨e, he⟩; cases he) ?_
      rintro ⟨run, hRun, hLacks⟩
      exact hOk.mp ⟨result, hText⟩ run hRun hLacks

end Text

/-- **Parameters are replaced as whole words, all at once.**  Filling in arguments fails exactly
where a run of word characters that begins with a letter or an underscore is equal to a
parameter, and the first such parameter has an index that no argument has.  Otherwise the
runs that are equal to a parameter give way to the arguments at these indices, and all else
stays.  The scan from identifier to identifier does the same. -/
theorem parameters_replaced_as_words (params args : List Text) (t : Text) :
    ((∃ e, Text.substituteParams params args t = .error e) ↔
      ∃ run ∈ Text.runs t, Text.Lacks params args run) ∧
    ((∀ run ∈ Text.runs t, ¬ Text.Lacks params args run) →
      ∃ results, List.Forall₂ (Text.Replaces params args) (Text.runs t) results ∧
        Text.substituteParams params args t = .ok results.flatten) ∧
    Text.scanParams params args t = Text.substituteParams params args t := by
  refine ⟨Text.substituteParams_eq_error_iff, fun hNone => ?_, Text.scanParams_eq params args t⟩
  obtain ⟨results, hAll⟩ := Text.exists_forall₂_replaces_iff.mpr hNone
  exact ⟨results, hAll, Text.substituteParams_eq_ok_iff.mpr ⟨results, hAll, rfl⟩⟩

/-- Two parameters trade places, and the end of a word that begins with a digit is none of
them.  With one argument less there is none for the second. -/
theorem parameters_replaced_traded :
    Text.runs "i + 2i*j" = ["i".toList, " + ".toList, "2i".toList, "*".toList, "j".toList] ∧
    (∀ run ∈ Text.runs "i + 2i*j", ¬ Text.Lacks ["i", "j"] ["j", "i"] run) ∧
    (∃ results, List.Forall₂ (Text.Replaces ["i", "j"] ["j", "i"]) (Text.runs "i + 2i*j") results ∧
      results.flatten = "j + 2i*i") ∧
    ∃ e, Text.substituteParams ["i", "j"] ["j"] "i + 2i*j" = .error e := by
  obtain ⟨-, hBoth, -⟩ := parameters_replaced_as_words ["i", "j"] ["j", "i"] "i + 2i*j"
  obtain ⟨hFails, -, -⟩ := parameters_replaced_as_words ["i", "j"] ["j"] "i + 2i*j"
  have hNone : ∀ run ∈ Text.runs "i + 2i*j", ¬ Text.Lacks ["i", "j"] ["j", "i"] run := by
    rintro run - ⟨-, k, hFirst, hLength⟩
    have hLt := (List.getElem?_eq_some_iff.mp hFirst.getElem?_eq).1
    exact absurd hLt (Nat.not_lt.mpr hLength)
  obtain ⟨results, hAll, hText⟩ := hBoth hNone
  have hValue : Text.substituteParams ["i", "j"] ["j", "i"] "i + 2i*j" = .ok "j + 2i*i".toList := by
    decide
  have hLacks : Text.Lacks ["i", "j"] ["j"] "j" := ⟨by decide, 1, ⟨rfl, by decide⟩, by decide⟩
  exact ⟨by decide, hNone, ⟨results, hAll, Except.ok.inj (hText.symm.trans hValue)⟩,
    hFails.mpr ⟨"j", by decide, hLacks⟩⟩

end ArrayKernel
