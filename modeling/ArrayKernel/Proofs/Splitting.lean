import ArrayKernel.Proofs.Levels
import Mathlib.Data.List.TakeWhile

/-!
# Splitting and joining argument lists

The commas outside brackets cut a text into parts, and the arguments of the text are its
parts without the blanks around them.  Cutting and joining by commas undo each other: every
text is its parts joined, and a list of texts is the parts of the text that it joins to if
no comma cuts a member and every member but the last closes its brackets.  Blanks around a
part change nothing of this.  So a list of arguments is recovered from its members joined by
a comma and a blank, and blanks around a whole text make no difference.

Brackets are counted as the splitting counts them: both kinds together, and a closing
bracket with nothing open does NOT count.
-/

namespace ArrayKernel
namespace Text

/-! ## Cuts -/

/-- The number of open brackets behind a text. -/
def depthBehind (depth : Nat) (t : Text) : Nat := t.foldl nesting depth

/-- No comma of the text stands where nothing is open. -/
def Uncut (depth : Nat) (t : Text) : Prop := ∀ s, s ++ [','] <+: t → depthBehind depth s ≠ 0

/-- The parts of a text between the commas outside brackets. -/
def parts (depth : Nat) (t : Text) : List Text := (segments depth t).1 :: (segments depth t).2

/-- Texts that no comma cuts, of which every one but the last closes its brackets. -/
inductive AreParts : Nat → List Text → Prop
  | last {depth : Nat} {t : Text} (hUncut : Uncut depth t) : AreParts depth [t]
  | cons {depth : Nat} {t : Text} {ts : List Text} (hUncut : Uncut depth t)
      (hClosed : depthBehind depth t = 0) (hRest : AreParts 0 ts) : AreParts depth (t :: ts)

@[simp] theorem depthBehind_nil (depth : Nat) : depthBehind depth [] = depth := rfl

@[simp] theorem depthBehind_cons (depth : Nat) (c : Char) (t : Text) :
    depthBehind depth (c :: t) = depthBehind (nesting depth c) t := rfl

theorem depthBehind_append (depth : Nat) (s t : Text) :
    depthBehind depth (s ++ t) = depthBehind (depthBehind depth s) t := List.foldl_append

theorem uncut_nil (depth : Nat) : Uncut depth [] := by
  intro s hs
  simp at hs

theorem uncut_cons_iff {depth : Nat} {c : Char} {t : Text} :
    Uncut depth (c :: t) ↔ ¬ (c = ',' ∧ depth = 0) ∧ Uncut (nesting depth c) t := by
  constructor
  · intro h
    refine ⟨?_, fun s hs => h (c :: s) (List.cons_prefix_cons.mpr ⟨rfl, hs⟩)⟩
    rintro ⟨rfl, rfl⟩
    exact h [] ⟨t, rfl⟩ rfl
  · rintro ⟨hHere, hBehind⟩ s hs
    cases s with
    | nil =>
        have hComma : ',' = c := (List.cons_prefix_cons.mp hs).1
        exact fun hZero => hHere ⟨hComma.symm, hZero⟩
    | cons d s =>
        obtain ⟨rfl, hTail⟩ := List.cons_prefix_cons.mp hs
        exact hBehind s hTail

theorem uncut_append_iff {depth : Nat} {s t : Text} :
    Uncut depth (s ++ t) ↔ Uncut depth s ∧ Uncut (depthBehind depth s) t := by
  induction s generalizing depth with
  | nil => simp [uncut_nil]
  | cons c s ih =>
      rw [List.cons_append, uncut_cons_iff, uncut_cons_iff, ih, and_assoc, depthBehind_cons]

/-! ## The parts of a text -/

theorem parts_ne_nil (depth : Nat) (t : Text) : parts depth t ≠ [] := List.cons_ne_nil _ _

theorem parts_comma (t : Text) : parts 0 (',' :: t) = [] :: parts 0 t := rfl

theorem parts_cons {depth : Nat} {c : Char} (h : ¬ (c = ',' ∧ depth = 0)) (t : Text) :
    parts depth (c :: t) = (parts (nesting depth c) t).modifyHead (c :: ·) := by
  unfold parts
  rw [segments, if_neg h]
  rfl

/-- A text without cuts only makes the first part longer. -/
theorem Uncut.parts_append {depth : Nat} {t : Text} (h : Uncut depth t) (rest : Text) :
    parts depth (t ++ rest) = (parts (depthBehind depth t) rest).modifyHead (t ++ ·) := by
  induction t generalizing depth with
  | nil => rfl
  | cons c t ih =>
      obtain ⟨hHere, hBehind⟩ := uncut_cons_iff.mp h
      rw [List.cons_append, parts_cons hHere, ih hBehind, List.modifyHead_modifyHead,
        depthBehind_cons]
      rfl

theorem Uncut.parts_eq {depth : Nat} {t : Text} (h : Uncut depth t) : parts depth t = [t] := by
  have hWhole := h.parts_append []
  simpa [parts, segments] using hWhole

theorem Uncut.parts_append_comma {depth : Nat} {t : Text} (h : Uncut depth t)
    (hClosed : depthBehind depth t = 0) (rest : Text) :
    parts depth (t ++ ',' :: rest) = t :: parts 0 rest := by
  rw [h.parts_append, hClosed, parts_comma]
  simp

theorem AreParts.ne_nil {depth : Nat} {ts : List Text} (h : AreParts depth ts) : ts ≠ [] := by
  cases h <;> exact List.cons_ne_nil _ _

theorem AreParts.modifyHead_cons {depth : Nat} {c : Char} {ts : List Text}
    (hHere : ¬ (c = ',' ∧ depth = 0)) (h : AreParts (nesting depth c) ts) :
    AreParts depth (ts.modifyHead (c :: ·)) := by
  cases h with
  | last hUncut => exact .last (uncut_cons_iff.mpr ⟨hHere, hUncut⟩)
  | cons hUncut hClosed hRest => exact .cons (uncut_cons_iff.mpr ⟨hHere, hUncut⟩) hClosed hRest

theorem areParts_parts (depth : Nat) (t : Text) : AreParts depth (parts depth t) := by
  induction t generalizing depth with
  | nil => exact .last (uncut_nil depth)
  | cons c t ih =>
      by_cases hCut : c = ',' ∧ depth = 0
      · obtain ⟨rfl, rfl⟩ := hCut
        rw [parts_comma]
        exact .cons (uncut_nil 0) rfl (ih 0)
      · rw [parts_cons hCut]
        exact (ih _).modifyHead_cons hCut

/-! ## Joining -/

theorem join_cons {ts : List Text} (hne : ts ≠ []) (separator t : Text) :
    join separator (t :: ts) = t ++ separator ++ join separator ts := by
  cases ts with
  | nil => exact absurd rfl hne
  | cons u ts => rfl

theorem join_modifyHead {ts : List Text} (hne : ts ≠ []) (separator s : Text) :
    join separator (ts.modifyHead (s ++ ·)) = s ++ join separator ts := by
  cases ts with
  | nil => exact absurd rfl hne
  | cons t ts => cases ts <;> simp

theorem join_parts (depth : Nat) (t : Text) : join "," (parts depth t) = t := by
  induction t generalizing depth with
  | nil => rfl
  | cons c t ih =>
      by_cases hCut : c = ',' ∧ depth = 0
      · obtain ⟨rfl, rfl⟩ := hCut
        rw [parts_comma, join_cons (parts_ne_nil 0 t), ih]
        rfl
      · rw [parts_cons hCut]
        exact (join_modifyHead (parts_ne_nil _ t) _ [c]).trans (congrArg (c :: ·) (ih _))

theorem AreParts.parts_join {depth : Nat} {ts : List Text} (h : AreParts depth ts) :
    parts depth (join "," ts) = ts := by
  induction h with
  | last hUncut => exact hUncut.parts_eq
  | @cons depth t ts hUncut hClosed hRest ih =>
      have hText : join "," (t :: ts) = t ++ ',' :: join "," ts := by
        rw [join_cons hRest.ne_nil]
        simp
      rw [hText, hUncut.parts_append_comma hClosed, ih]

/-- A text is cut into parts in one way only. -/
theorem parts_eq_iff {depth : Nat} {t : Text} {ts : List Text} :
    parts depth t = ts ↔ AreParts depth ts ∧ join "," ts = t := by
  constructor
  · rintro rfl
    exact ⟨areParts_parts depth t, join_parts depth t⟩
  · rintro ⟨hParts, rfl⟩
    exact hParts.parts_join

/-! ## Blanks -/

/-- A text of blanks. -/
def Blank (t : Text) : Prop := ∀ c ∈ t, isBlank c = true

instance (t : Text) : Decidable (Blank t) :=
  decidable_of_iff (t.all isBlank = true) List.all_eq_true

/-- No blank stands at either end. -/
def HasSolidEnds (t : Text) : Prop :=
  (∀ c ∈ t.head?, isBlank c = false) ∧ ∀ c ∈ t.getLast?, isBlank c = false

theorem solid_singleton {c : Char} (h : isBlank c = false) : HasSolidEnds [c] := by
  constructor
  · intro d hd
    rwa [← Option.some.inj hd]
  · intro d hd
    rwa [← Option.some.inj hd]

theorem dropWhile_isBlank_of_head {t : Text} (h : ∀ c ∈ t.head?, isBlank c = false) :
    t.dropWhile isBlank = t := by
  cases t with
  | nil => rfl
  | cons c t => exact List.dropWhile_cons_of_neg (by simp [h c rfl])

theorem trim_of_solid {t : Text} (h : HasSolidEnds t) : trim t = t := by
  unfold trim
  rw [dropWhile_isBlank_of_head h.1, dropWhile_isBlank_of_head (by simpa using h.2),
    List.reverse_reverse]

/-- A text is what trimming leaves of it, between blanks. -/
theorem exists_eq_trim (t : Text) :
    ∃ before after, Blank before ∧ Blank after ∧ t = before ++ trim t ++ after := by
  refine ⟨t.takeWhile isBlank, ((t.dropWhile isBlank).reverse.takeWhile isBlank).reverse,
    fun c hc => List.mem_takeWhile_imp hc,
    fun c hc => List.mem_takeWhile_imp (List.mem_reverse.mp hc), ?_⟩
  rw [trim, List.append_assoc, ← List.reverse_append, List.takeWhile_append_dropWhile,
    List.reverse_reverse, List.takeWhile_append_dropWhile]

theorem trim_blank_append {before : Text} (h : Blank before) (t : Text) :
    trim (before ++ t) = trim t := by
  unfold trim
  rw [List.dropWhile_append_of_pos h]

theorem trim_append_blank {after : Text} (h : Blank after) (t : Text) :
    trim (t ++ after) = trim t := by
  have hReverse : ∀ c ∈ after.reverse, isBlank c = true := fun c hc => h c (List.mem_reverse.mp hc)
  unfold trim
  rw [List.dropWhile_append]
  split
  · next hEmpty =>
    rw [List.dropWhile_eq_nil_iff.mpr h, List.isEmpty_iff.mp hEmpty]
  · rw [List.reverse_append, List.dropWhile_append_of_pos hReverse]

/-- Nothing is left to trim. -/
theorem solid_trim (t : Text) : HasSolidEnds (trim t) := by
  have hHead (u : Text) : ∀ c ∈ (u.dropWhile isBlank).head?, isBlank c = false := by
    intro c hc
    have hNot := List.head?_dropWhile_not isBlank u
    rwa [Option.mem_def.mp hc] at hNot
  constructor
  · intro c hc
    -- what is trimmed at the end leaves the start as it is
    refine hHead t c ?_
    obtain ⟨rest, hRest⟩ := List.dropWhile_suffix isBlank (l := (t.dropWhile isBlank).reverse)
    have hText : trim t ++ rest.reverse = t.dropWhile isBlank := by
      rw [trim, ← List.reverse_append, hRest, List.reverse_reverse]
    rw [← hText, List.head?_append, Option.mem_def.mp hc]
    rfl
  · intro c hc
    rw [trim, List.getLast?_reverse] at hc
    exact hHead _ c hc

theorem trim_trim (t : Text) : trim (trim t) = trim t := trim_of_solid (solid_trim t)

/-! ## Blanks around parts -/

theorem ne_of_isBlank {c d : Char} (hc : isBlank c = true) (hd : isBlank d = false) : c ≠ d := by
  rintro rfl
  rw [hd] at hc
  cases hc

theorem nesting_of_isBlank {c : Char} (h : isBlank c = true) (depth : Nat) :
    nesting depth c = depth := by
  have hRound : c ≠ '(' ∧ c ≠ ')' := ⟨ne_of_isBlank h (by decide), ne_of_isBlank h (by decide)⟩
  have hSquare : c ≠ '[' ∧ c ≠ ']' := ⟨ne_of_isBlank h (by decide), ne_of_isBlank h (by decide)⟩
  simp [nesting, hRound, hSquare]

theorem Blank.depthBehind {t : Text} (h : Blank t) (depth : Nat) : depthBehind depth t = depth := by
  induction t with
  | nil => rfl
  | cons c t ih =>
      rw [depthBehind_cons, nesting_of_isBlank (h c (.head _))]
      exact ih fun d hd => h d (.tail _ hd)

theorem Blank.uncut {t : Text} (h : Blank t) (depth : Nat) : Uncut depth t := by
  intro s hs
  have hComma : ',' ∈ t := hs.subset (by simp)
  exact absurd (h ',' hComma) (by decide)

theorem depthBehind_trim (depth : Nat) (t : Text) :
    depthBehind depth (trim t) = depthBehind depth t := by
  obtain ⟨before, after, hBefore, hAfter, hText⟩ := exists_eq_trim t
  calc
    depthBehind depth (trim t) = depthBehind depth (before ++ trim t ++ after) := by
      rw [depthBehind_append, depthBehind_append, hBefore.depthBehind, hAfter.depthBehind]
    _ = depthBehind depth t := by rw [← hText]

theorem uncut_trim_iff {depth : Nat} {t : Text} : Uncut depth (trim t) ↔ Uncut depth t := by
  obtain ⟨before, after, hBefore, hAfter, hText⟩ := exists_eq_trim t
  calc
    Uncut depth (trim t) ↔ Uncut depth (before ++ trim t ++ after) := by
      rw [uncut_append_iff, uncut_append_iff, hBefore.depthBehind]
      simp [hBefore.uncut, hAfter.uncut]
    _ ↔ Uncut depth t := by rw [← hText]

/-- Parts stay parts with other blanks around them. -/
theorem AreParts.of_map_trim_eq {depth : Nat} {ts us : List Text} (h : AreParts depth ts)
    (hTrim : us.map trim = ts.map trim) : AreParts depth us := by
  induction h generalizing us with
  | last hUncut =>
      obtain ⟨u, rest, rfl, hFirst, hRest⟩ := List.map_eq_cons_iff.mp hTrim
      rw [List.map_eq_nil_iff.mp hRest]
      rw [← uncut_trim_iff, ← hFirst, uncut_trim_iff] at hUncut
      exact .last hUncut
  | cons hUncut hClosed _ ih =>
      obtain ⟨u, rest, rfl, hFirst, hRest⟩ := List.map_eq_cons_iff.mp hTrim
      rw [← uncut_trim_iff, ← hFirst, uncut_trim_iff] at hUncut
      rw [← depthBehind_trim, ← hFirst, depthBehind_trim] at hClosed
      exact .cons hUncut hClosed (ih hRest)

/-- Blanks around a list and behind its commas are blanks around its members. -/
theorem exists_join_comma {before space after : Text} (hBefore : Blank before)
    (hSpace : Blank space) (hAfter : Blank after) {ts : List Text} (hne : ts ≠ []) :
    ∃ us : List Text, us.map trim = ts.map trim ∧
      join "," us = before ++ join (',' :: space) ts ++ after := by
  -- the blanks behind the first comma are the blanks in front of the further members
  induction ts generalizing before with
  | nil => exact absurd rfl hne
  | cons t ts ih =>
      by_cases hLast : ts = []
      · subst hLast
        refine ⟨[before ++ t ++ after], ?_, rfl⟩
        rw [List.map_singleton, trim_append_blank hAfter, trim_blank_append hBefore,
          List.map_singleton]
      · obtain ⟨us, hTrim, hJoin⟩ := ih hSpace hLast
        have hus : us ≠ [] := by
          rintro rfl
          exact hLast (List.map_eq_nil_iff.mp hTrim.symm)
        refine ⟨(before ++ t) :: us, ?_, ?_⟩
        · rw [List.map_cons, trim_blank_append hBefore, hTrim, List.map_cons]
        · rw [join_cons hus, join_cons hLast, hJoin]
          simp

/-! ## Arguments -/

/-- The arguments are the trimmed parts.  One blank part is no argument. -/
theorem splitArguments_eq (t : Text) : splitArguments t =
    if (parts 0 t).map trim = [[]] then [] else (parts 0 t).map trim := by
  unfold splitArguments parts
  split
  · next only hOnly => simp [hOnly]
  · next first further hNot hBoth =>
    have hFurther : further ≠ [] := hNot
    simp [hBoth, hFurther]

/-- Parts joined by commas are split into what is left of them between the blanks. -/
theorem AreParts.splitArguments_join {ts : List Text} (h : AreParts 0 ts)
    {before space after : Text} (hBefore : Blank before) (hSpace : Blank space)
    (hAfter : Blank after) : splitArguments (before ++ join (',' :: space) ts ++ after) =
      if ts.map trim = [[]] then [] else ts.map trim := by
  obtain ⟨us, hTrim, hJoin⟩ := exists_join_comma hBefore hSpace hAfter h.ne_nil
  rw [← hJoin, splitArguments_eq, (h.of_map_trim_eq hTrim).parts_join, hTrim]

theorem AreParts.splitArguments_join_space {ts : List Text} (h : AreParts 0 ts) :
    splitArguments (join ", " ts) = if ts.map trim = [[]] then [] else ts.map trim := by
  have hNone : Blank [] := by decide
  have hSpace : Blank " " := by decide
  have hSplit := h.splitArguments_join hNone hSpace hNone
  simpa using hSplit

theorem splitArguments_between {before after : Text} (hBefore : Blank before)
    (hAfter : Blank after) (t : Text) :
    splitArguments (before ++ t ++ after) = splitArguments t := by
  have hNone : Blank [] := by decide
  have hSplit := (areParts_parts 0 t).splitArguments_join hBefore hNone hAfter
  rw [splitArguments_eq t, ← hSplit]
  exact congrArg (fun u => splitArguments (before ++ u ++ after)) (join_parts 0 t).symm

theorem splitArguments_cases (t : Text) :
    splitArguments t = [] ∨
      splitArguments t = (parts 0 t).map trim ∧ (parts 0 t).map trim ≠ [[]] := by
  rw [splitArguments_eq]
  split
  · exact .inl rfl
  · next hNot => exact .inr ⟨rfl, hNot⟩

theorem solid_of_mem_splitArguments {t arg : Text} (h : arg ∈ splitArguments t) :
    HasSolidEnds arg := by
  rcases splitArguments_cases t with hNone | ⟨hParts, -⟩
  · rw [hNone] at h
    cases h
  · rw [hParts] at h
    obtain ⟨part, -, rfl⟩ := List.mem_map.mp h
    exact solid_trim part

/-- Arguments joined again are split as before. -/
theorem splitArguments_join_splitArguments (t : Text) :
    splitArguments (join ", " (splitArguments t)) = splitArguments t := by
  rcases splitArguments_cases t with hNone | ⟨hParts, hNot⟩
  · rw [hNone]
    rfl
  · have hTrim : ((parts 0 t).map trim).map trim = (parts 0 t).map trim := by
      simp [trim_trim]
    have hAre := (areParts_parts 0 t).of_map_trim_eq hTrim
    rw [hParts, hAre.splitArguments_join_space, hTrim, if_neg hNot]

/-! ## Texts that are one argument -/

/-- A text that stays in one segment, whatever follows it. -/
def IsSegment (t : Text) : Prop :=
  ∀ rest, segments 0 (t ++ rest) = (t ++ (segments 0 rest).1, (segments 0 rest).2)

theorem isSegment_iff {t : Text} : IsSegment t ↔ Uncut 0 t ∧ depthBehind 0 t = 0 := by
  constructor
  · intro h
    have hParts : parts 0 (t ++ [',']) = [t, []] := by
      unfold parts
      rw [h]
      simp [segments]
    cases (parts_eq_iff.mp hParts).1 with
    | cons hUncut hClosed _ => exact ⟨hUncut, hClosed⟩
  · rintro ⟨hUncut, hClosed⟩ rest
    have hParts := hUncut.parts_append rest
    rw [hClosed] at hParts
    simpa [parts, Prod.ext_iff] using hParts

theorem areParts_of_isSegment {ts : List Text} (hne : ts ≠ []) (h : ∀ t ∈ ts, IsSegment t) :
    AreParts 0 ts := by
  induction ts with
  | nil => exact absurd rfl hne
  | cons t ts ih =>
      obtain ⟨hUncut, hClosed⟩ := isSegment_iff.mp (h t (.head _))
      by_cases hLast : ts = []
      · subst hLast
        exact .last hUncut
      · exact .cons hUncut hClosed (ih hLast fun u hu => h u (.tail _ hu))

/-- The splitting counts the brackets of both kinds together. -/
theorem nesting_add {round square : Nat} {c : Char} (hRound : ¬ (c = ')' ∧ round = 0))
    (hSquare : ¬ (c = ']' ∧ square = 0)) :
    nesting (round + square) c = level '(' ')' round c + level '[' ']' square c := by
  grind [nesting, level]

/-- A text that closes no more brackets than are open, of each kind for itself, with its commas
inside brackets. -/
theorem uncut_of_levels {round square lastRound lastSquare : Nat} {t : Text}
    (hRound : Levels '(' ')' round t lastRound) (hSquare : Levels '[' ']' square t lastSquare)
    (hCommas : CommasInside round square t) :
    Uncut (round + square) t ∧ depthBehind (round + square) t = lastRound + lastSquare := by
  induction t generalizing round square with
  | nil =>
      rw [hRound.eq_of_nil, hSquare.eq_of_nil]
      exact ⟨uncut_nil _, rfl⟩
  | cons c t ih =>
      obtain ⟨hRoundGoesOn, hRoundNext⟩ := hRound.step (by decide)
      obtain ⟨hSquareGoesOn, hSquareNext⟩ := hSquare.step (by decide)
      obtain ⟨hNoCut, hCommasNext⟩ := hCommas.step
      rw [uncut_cons_iff, depthBehind_cons, nesting_add hRoundGoesOn hSquareGoesOn]
      obtain ⟨hUncut, hLast⟩ := ih hRoundNext hSquareNext hCommasNext
      exact ⟨⟨hNoCut, hUncut⟩, hLast⟩

/-- A text that is one argument of a call. -/
structure IsArgument (t : Text) : Prop where
  round : Closes '(' ')' t
  square : Closes '[' ']' t
  commas : CommasInside 0 0 t
  trimmed : trim t = t

instance (t : Text) : Decidable (IsArgument t) :=
  decidable_of_iff (Closes '(' ')' t ∧ Closes '[' ']' t ∧ CommasInside 0 0 t ∧ trim t = t)
    ⟨fun h => ⟨h.1, h.2.1, h.2.2.1, h.2.2.2⟩, fun h => ⟨h.round, h.square, h.commas, h.trimmed⟩⟩

namespace IsArgument

theorem isSegment {t : Text} (h : IsArgument t) : IsSegment t :=
  isSegment_iff.mpr (uncut_of_levels h.round h.square h.commas)

/-- Arguments are recovered from the list that they form.  The list of one empty text is the
exception: it is written like the list without members. -/
theorem splitArguments_join {args : List Text} (hArgs : ∀ arg ∈ args, IsArgument arg)
    (hNot : args ≠ [[]]) : splitArguments (join ", " args) = args := by
  by_cases hEmpty : args = []
  · subst hEmpty
    rfl
  · have hParts := areParts_of_isSegment hEmpty fun arg hArg => (hArgs arg hArg).isSegment
    have hTrim : args.map trim = args := by
      calc
        args.map trim = args.map id := List.map_congr_left fun arg hArg => (hArgs arg hArg).trimmed
        _ = args := List.map_id args
    rw [hParts.splitArguments_join_space, hTrim, if_neg hNot]

end IsArgument

end Text

/-- **Splitting inverts joining.**  Texts that close their brackets of both kinds, with commas
inside brackets only and without blanks at their ends, are recovered from the list that they form,
and the list of one empty text is the only exception.  Of any text, with its brackets closed or
not, the arguments have no blanks at their ends, blanks around the text make no difference, and the
arguments joined again are split as before. -/
theorem splitting_inverts_joining (args : List Text) (t before after : Text) :
    ((∀ arg ∈ args, Text.IsArgument arg) →
      (Text.splitArguments (Text.join ", " args) = args ↔ args ≠ [[]])) ∧
    (∀ arg ∈ Text.splitArguments t, Text.HasSolidEnds arg) ∧
    (Text.Blank before → Text.Blank after →
      Text.splitArguments (before ++ t ++ after) = Text.splitArguments t) ∧
    Text.splitArguments (Text.join ", " (Text.splitArguments t)) = Text.splitArguments t := by
  refine ⟨fun hArgs => ⟨?_, Text.IsArgument.splitArguments_join hArgs⟩,
    fun arg => Text.solid_of_mem_splitArguments,
    fun hBefore hAfter => Text.splitArguments_between hBefore hAfter t,
    Text.splitArguments_join_splitArguments t⟩
  rintro hSplit rfl
  cases hSplit

/-- An empty member between others is kept, and a comma inside brackets does not cut, not even
where a bracket is closed by one of the other kind.  A closing bracket with nothing open does not
count. -/
theorem splitting_inverts_joining_indexed :
    let args : List Text := ["f(a, b)[i, j]", "", "x"]
    let t : Text := ") a , (b, c]"
    (∀ arg ∈ args, Text.IsArgument arg) ∧ Text.splitArguments (Text.join ", " args) = args ∧
    (∀ arg ∈ Text.splitArguments t, Text.HasSolidEnds arg) ∧
    Text.splitArguments ("\u3000" ++ t ++ "\t\n") = Text.splitArguments t ∧
    Text.splitArguments t = [") a".toList, "(b, c]".toList] := by
  intro args t
  have hArgs : ∀ arg ∈ args, Text.IsArgument arg := by decide
  obtain ⟨hJoin, hSolid, hBlank, -⟩ := splitting_inverts_joining args t "\u3000" "\t\n"
  exact ⟨hArgs, (hJoin hArgs).mpr (by decide), hSolid, hBlank (by decide) (by decide), by decide⟩

end ArrayKernel
