import ArrayKernel.Proofs.Identifier
import ArrayKernel.Text.Template

/-!
# The grammar of templates

A few laws say what a template stands for: text without `#` stands for itself, `#` before a
whole identifier stands for the value of the longest start that names an attribute, `#`
before anything else stays, and a template can be cut wherever no word goes on.  Filling in
attributes obeys the laws, and no other function on texts does, so the laws can be taken
for its definition.  The same text comes out of a scan that looks for one `#` after the other
and takes the identifier behind it, without cutting the template into words.

The last law puts the values next to each other as they are.  A `#` in a value is NOT looked
at again, even where the text behind it would make a word with it.
-/

namespace ArrayKernel

namespace Text

theorem head?_of_pieces {t w : Text} {ps : List Piece} (h : pieces t = .word w :: ps) :
    w.head? = t.head? := by
  cases t with
  | nil => cases h
  | cons c t =>
      rw [pieces] at h
      split at h
      · split at h <;> cases h <;> rfl
      · cases h

theorem mem_of_other_mem_pieces {t : Text} {c : Char} (h : Piece.other c ∈ pieces t) : c ∈ t := by
  rw [← flatMap_text_pieces t]
  exact List.mem_flatMap.mpr ⟨.other c, h, .head _⟩

theorem isIdentifier_takeWhile {t : Text} (h : startsIdentifier t = true) :
    isIdentifier (t.takeWhile isWordChar) = true := by
  cases t with
  | nil => cases h
  | cons c t =>
      have hc : isWordStart c = true := by simpa [startsIdentifier] using h
      simp [isIdentifier, startsIdentifier, isWordChar_of_isWordStart hc, hc]

theorem head?_dropWhile_isWordChar (t : Text) :
    (t.dropWhile isWordChar).head?.any isWordChar = false := by
  have hHead := List.head?_dropWhile_not isWordChar t
  cases h : (t.dropWhile isWordChar).head? with
  | none => rfl
  | some c =>
      rw [h] at hHead
      simpa using hHead

/-! ## The identifier at the start of a text -/

/-- The text behind the identifier at the start of a text. -/
def behindIdentifier (t : Text) : Text := t.drop (leadingIdentifier t).length

theorem leadingIdentifier_append (t : Text) : leadingIdentifier t ++ behindIdentifier t = t := by
  refine List.prefix_iff_eq_append.mp ?_
  cases t with
  | nil => exact List.nil_prefix
  | cons c t =>
      rw [leadingIdentifier]
      split
      · exact List.cons_prefix_cons.mpr ⟨rfl, List.takeWhile_prefix _⟩
      · exact List.nil_prefix

theorem leadingIdentifier_cases (t : Text) :
    leadingIdentifier t = [] ∧ startsIdentifier t = false ∨
      isIdentifier (leadingIdentifier t) = true ∧
        (behindIdentifier t).head?.any isWordChar = false := by
  cases t with
  | nil => exact .inl ⟨rfl, rfl⟩
  | cons c t =>
      cases hc : isWordStart c with
      | false => exact .inl ⟨by simp [leadingIdentifier, hc], by simpa [startsIdentifier] using hc⟩
      | true =>
          have hWord : leadingIdentifier (c :: t) = (c :: t).takeWhile isWordChar := by
            rw [leadingIdentifier, if_pos hc,
              List.takeWhile_cons_of_pos (isWordChar_of_isWordStart hc)]
          have hBehind : behindIdentifier (c :: t) = (c :: t).dropWhile isWordChar := by
            have hText := leadingIdentifier_append (c :: t)
            rw [hWord] at hText
            exact List.append_cancel_left (hText.trans List.takeWhile_append_dropWhile.symm)
          rw [hBehind, hWord]
          exact .inr ⟨isIdentifier_takeWhile (by simpa [startsIdentifier] using hc),
            head?_dropWhile_isWordChar _⟩

/-! ## The first `#` of a text -/

/-- The text in front of the first `#`. -/
def beforeHash (t : Text) : Text := t.takeWhile (· != '#')

/-- The text behind the first `#`. -/
def behindHash (t : Text) : Text := (t.dropWhile (· != '#')).tail

theorem beforeHash_append {t : Text} (h : '#' ∈ t) : beforeHash t ++ '#' :: behindHash t = t := by
  obtain ⟨s, u, rfl, hPlain⟩ := List.eq_append_cons_of_mem h
  have hAll : ∀ c ∈ s, (c != '#') = true := fun c hc => by
    rw [bne_iff_ne]
    rintro rfl
    exact hPlain hc
  simp [beforeHash, behindHash, List.takeWhile_append_of_pos hAll,
    List.dropWhile_append_of_pos hAll]

theorem hash_not_mem_beforeHash (t : Text) : '#' ∉ beforeHash t := fun hMem => by
  have hNot := List.all_eq_true.mp (List.all_takeWhile (p := (· != '#')) (l := t)) '#' hMem
  simp at hNot

end Text

namespace Attributes

/-- The longest non-empty start of a word that names an attribute, with its value and the rest
of the word. -/
structure Names (attributes : Attributes) (word name rest value : Text) : Prop where
  eq_append : word = name ++ rest
  ne_nil : name ≠ []
  get?_eq : attributes.get? name = some value
  longest : ∀ longer, longer <+: word → name.length < longer.length →
    attributes.get? longer = none

/-- No start of a word names an attribute. -/
def Unknown (attributes : Attributes) (word : Text) : Prop :=
  ∀ name, name <+: word → name ≠ [] → attributes.get? name = none

/-- The laws of filling in attributes. -/
structure FollowsGrammar (attributes : Attributes) (f : Text → Text) : Prop where
  /-- A text without `#` stays as it is. -/
  plain : ∀ t, '#' ∉ t → f t = t
  /-- The longest start that names an attribute gives way to the value. -/
  named : ∀ word name rest value, Text.isIdentifier word = true →
    attributes.Names word name rest value → f ('#' :: word) = value ++ rest
  /-- Without such a start the template stays as it is. -/
  unnamed : ∀ word, Text.isIdentifier word = true → attributes.Unknown word →
    f ('#' :: word) = '#' :: word
  /-- A `#` with no identifier behind it stays. -/
  stray : ∀ t, Text.startsIdentifier t = false → f ('#' :: t) = '#' :: f t
  /-- A template can be cut where no word goes on. -/
  append : ∀ s t, t.head?.any Text.isWordChar = false → f (s ++ t) = f s ++ f t

variable {attributes : Attributes}

/-! ## Words -/

theorem resolve?_of_names {word name rest value : Text}
    (h : attributes.Names word name rest value) {n : Nat} (hName : name.length ≤ n)
    (hn : n ≤ word.length) : attributes.resolve? word n = some (value ++ rest) := by
  induction n with
  | zero => exact absurd (List.length_eq_zero_iff.mp (Nat.le_zero.mp hName)) h.ne_nil
  | succ n ih =>
      by_cases hLast : name.length = n + 1
      · have hTake : word.take (n + 1) = name := by rw [h.eq_append, ← hLast, List.take_left]
        have hDrop : word.drop (n + 1) = rest := by rw [h.eq_append, ← hLast, List.drop_left]
        simp only [resolve?, hTake, hDrop, h.get?_eq]
      · have hLonger : attributes.get? (word.take (n + 1)) = none := by
          refine h.longest _ (List.take_prefix _ _) ?_
          rw [List.length_take]
          omega
        simp only [resolve?, hLonger]
        exact ih (by omega) (by omega)

theorem resolve?_of_unknown {word : Text} (h : attributes.Unknown word) {n : Nat}
    (hn : n ≤ word.length) : attributes.resolve? word n = none := by
  induction n with
  | zero => rfl
  | succ n ih =>
      have hTake : attributes.get? (word.take (n + 1)) = none := by
        refine h _ (List.take_prefix _ _) fun hNil => ?_
        have hLength := congrArg List.length hNil
        rw [List.length_take, List.length_nil] at hLength
        omega
      simp only [resolve?, hTake]
      exact ih (by omega)

/-- Where no start of more than `n` characters names an attribute, a shorter one does or none. -/
theorem exists_names_or_unknown {word : Text} {n : Nat} (hn : n ≤ word.length)
    (hLonger : ∀ longer, longer <+: word → n < longer.length → attributes.get? longer = none) :
    (∃ name rest value, attributes.Names word name rest value) ∨ attributes.Unknown word := by
  induction n with
  | zero => exact .inr fun name hName hne => hLonger name hName (List.length_pos_iff.mpr hne)
  | succ n ih =>
      have hLength : (word.take (n + 1)).length = n + 1 := by
        rw [List.length_take]
        omega
      cases hGet : attributes.get? (word.take (n + 1)) with
      | some value =>
          refine .inl ⟨_, _, value, (List.take_append_drop (n + 1) word).symm, ?_, hGet, ?_⟩
          · exact List.ne_nil_of_length_pos (by omega)
          · rw [hLength]
            exact hLonger
      | none =>
          refine ih (by omega) fun longer hPrefix hLt => ?_
          by_cases hNext : longer.length = n + 1
          · rw [List.prefix_iff_eq_take.mp hPrefix, hNext]
            exact hGet
          · exact hLonger longer hPrefix (by omega)

theorem names_or_unknown (attributes : Attributes) (word : Text) :
    (∃ name rest value, attributes.Names word name rest value) ∨ attributes.Unknown word := by
  refine exists_names_or_unknown (Nat.le_refl word.length) fun longer hPrefix hLt => ?_
  have hLe := hPrefix.length_le
  omega

/-! ## The laws hold -/

theorem substitutePieces_append (ps : List Text.Piece) {qs : List Text.Piece}
    (h : ∀ w rest, qs ≠ .word w :: rest) :
    attributes.substitutePieces (ps ++ qs) =
      attributes.substitutePieces ps ++ attributes.substitutePieces qs := by
  fun_induction substitutePieces attributes ps with
  | case1 => rfl
  | case2 w ps ih => simp [substitutePieces, ih]
  | case3 c ps hNot ih =>
      have hStays : ∀ w rest, ps ++ qs = .word w :: rest → c = '#' → False := by
        intro w rest hWord hc
        cases ps with
        | nil => exact h w rest hWord
        | cons p ps =>
            obtain ⟨rfl, -⟩ := List.cons.inj hWord
            exact hNot w ps rfl hc
      rw [List.cons_append, substitutePieces.eq_3 _ _ _ hStays, ih, List.cons_append]
  | case4 w ps ih => simp [substitutePieces, ih]

theorem substitutePieces_of_plain {ps : List Text.Piece} (h : .other '#' ∉ ps) :
    attributes.substitutePieces ps = ps.flatMap Text.Piece.text := by
  fun_induction substitutePieces attributes ps with
  | case1 => rfl
  | case2 w ps ih => exact absurd (.head _) h
  | case3 c ps hNot ih => simp [Text.Piece.text, ih fun hMem => h (.tail _ hMem)]
  | case4 w ps ih => simp [Text.Piece.text, ih fun hMem => h (.tail _ hMem)]

theorem substitute_of_isIdentifier {word : Text} (h : Text.isIdentifier word = true) :
    attributes.substitute ('#' :: word) =
      (attributes.resolve? word word.length).getD ('#' :: word) := by
  rw [substitute, Text.pieces_cons_other (by decide), Text.pieces_identifier h]
  simp [substitutePieces, token, Text.startsIdentifier_of_isIdentifier h]

theorem substitute_stray {t : Text} (h : Text.startsIdentifier t = false) :
    attributes.substitute ('#' :: t) = '#' :: attributes.substitute t := by
  rw [substitute, substitute, Text.pieces_cons_other (by decide)]
  cases hPieces : Text.pieces t with
  | nil => rfl
  | cons p ps =>
      cases p with
      | other c => rfl
      | word w =>
          have hDigit : Text.startsIdentifier w = false := by
            rw [← h, Text.startsIdentifier, Text.startsIdentifier, Text.head?_of_pieces hPieces]
          simp [substitutePieces, token, hDigit]

theorem followsGrammar_substitute (attributes : Attributes) :
    attributes.FollowsGrammar attributes.substitute where
  plain t h := by
    rw [substitute, substitutePieces_of_plain fun hMem => h (Text.mem_of_other_mem_pieces hMem),
      Text.flatMap_text_pieces]
  named word name rest value hWord hNames := by
    have hLe : name.length ≤ word.length := by simp [hNames.eq_append]
    rw [substitute_of_isIdentifier hWord, resolve?_of_names hNames hLe (Nat.le_refl _)]
    rfl
  unnamed word hWord hUnknown := by
    rw [substitute_of_isIdentifier hWord, resolve?_of_unknown hUnknown (Nat.le_refl _)]
    rfl
  stray _ h := substitute_stray h
  append s t h := by
    rw [substitute, Text.pieces_append h, substitutePieces_append _ (Text.pieces_ne_word h)]
    rfl

/-! ## The scan -/

/-- Goes from one `#` to the next.  The identifier behind it, which may be empty, gives way to
what it resolves to, and the scan goes on behind the identifier. -/
def scan (attributes : Attributes) (t : Text) : Text :=
  if h : '#' ∈ t then
    have : (Text.behindIdentifier (Text.behindHash t)).length < t.length := by
      have hLength := congrArg List.length (Text.beforeHash_append h)
      have hBehind := congrArg List.length (Text.leadingIdentifier_append (Text.behindHash t))
      simp only [List.length_append, List.length_cons] at hLength hBehind
      omega
    let run := Text.leadingIdentifier (Text.behindHash t)
    Text.beforeHash t ++ (attributes.resolve? run run.length).getD ('#' :: run) ++
      scan attributes (Text.behindIdentifier (Text.behindHash t))
  else t
termination_by t.length

/-- A `#` and the identifier behind it are filled in for themselves. -/
theorem substitute_hash (attributes : Attributes) (t : Text) :
    attributes.substitute ('#' :: t) =
      (attributes.resolve? (Text.leadingIdentifier t) (Text.leadingIdentifier t).length).getD
        ('#' :: Text.leadingIdentifier t) ++ attributes.substitute (Text.behindIdentifier t) := by
  rcases Text.leadingIdentifier_cases t with ⟨hNil, hStray⟩ | ⟨hWord, hCut⟩
  · have hBehind : Text.behindIdentifier t = t := by simp [Text.behindIdentifier, hNil]
    rw [substitute_stray hStray, hNil, hBehind]
    rfl
  · rw [← substitute_of_isIdentifier hWord,
      ← attributes.followsGrammar_substitute.append _ _ hCut, List.cons_append,
      Text.leadingIdentifier_append]

/-- The scan fills in the same text, although it does not cut the template into words. -/
theorem scan_eq (attributes : Attributes) (t : Text) :
    attributes.scan t = attributes.substitute t := by
  have hLaws := attributes.followsGrammar_substitute
  fun_induction scan attributes t with
  | case1 t hHash hShorter run ih =>
      -- no word goes on over the `#`, so the text in front of it can be cut off
      have hCut : ('#' :: Text.behindHash t).head?.any Text.isWordChar = false := rfl
      calc Text.beforeHash t ++ (attributes.resolve? run run.length).getD ('#' :: run) ++
            attributes.scan (Text.behindIdentifier (Text.behindHash t))
        _ = Text.beforeHash t ++ attributes.substitute ('#' :: Text.behindHash t) := by
            rw [ih, substitute_hash, List.append_assoc]
        _ = attributes.substitute (Text.beforeHash t ++ '#' :: Text.behindHash t) := by
            rw [hLaws.append _ _ hCut, hLaws.plain _ (Text.hash_not_mem_beforeHash t)]
        _ = attributes.substitute t := by rw [Text.beforeHash_append hHash]
  | case2 t hPlain => exact (hLaws.plain t hPlain).symm

/-! ## The laws determine the function -/

variable {f g : Text → Text}

theorem FollowsGrammar.eq_on_word (hf : attributes.FollowsGrammar f)
    (hg : attributes.FollowsGrammar g) {word : Text} (h : Text.isIdentifier word = true) :
    f ('#' :: word) = g ('#' :: word) := by
  rcases attributes.names_or_unknown word with ⟨name, rest, value, hNames⟩ | hUnknown
  · rw [hf.named _ _ _ _ h hNames, hg.named _ _ _ _ h hNames]
  · rw [hf.unnamed _ h hUnknown, hg.unnamed _ h hUnknown]

/-- Behind a `#`, what is left to compare is shorter. -/
theorem FollowsGrammar.eq_on_hash (hf : attributes.FollowsGrammar f)
    (hg : attributes.FollowsGrammar g) {t : Text}
    (h : ∀ u : Text, u.length ≤ t.length → f u = g u) : f ('#' :: t) = g ('#' :: t) := by
  rcases Text.leadingIdentifier_cases t with ⟨-, hStray⟩ | ⟨hWord, hCut⟩
  · rw [hf.stray t hStray, hg.stray t hStray, h t (Nat.le_refl _)]
  · have hShorter : (Text.behindIdentifier t).length ≤ t.length :=
      (List.drop_suffix _ _).length_le
    rw [← Text.leadingIdentifier_append t, ← List.cons_append, hf.append _ _ hCut,
      hg.append _ _ hCut, hf.eq_on_word hg hWord, h _ hShorter]

/-- Two functions that obey the laws agree on every template. -/
theorem FollowsGrammar.eq_on (hf : attributes.FollowsGrammar f)
    (hg : attributes.FollowsGrammar g) (t : Text) : f t = g t := by
  -- on the length of the template: it is plain up to its first `#`
  induction hLength : t.length using Nat.strongRecOn generalizing t with
  | ind n ih =>
      by_cases hHash : '#' ∈ t
      · obtain ⟨s, u, rfl, hPlain⟩ := List.eq_append_cons_of_mem hHash
        have hCut : ('#' :: u).head?.any Text.isWordChar = false := rfl
        have hTail : f ('#' :: u) = g ('#' :: u) := by
          refine hf.eq_on_hash hg fun v hv => ih v.length ?_ v rfl
          rw [List.length_append, List.length_cons] at hLength
          omega
        rw [hf.append _ _ hCut, hg.append _ _ hCut, hf.plain s hPlain, hg.plain s hPlain, hTail]
      · rw [hf.plain t hHash, hg.plain t hHash]

end Attributes

/-- **Templates follow their grammar.**  Filling in attributes leaves a text without `#` as it
is, resolves `#` before a whole identifier by the longest start that names an attribute, leaves
any other `#`, and can be done piece by piece.  It is the only function that does, and the scan
from one `#` to the next computes it. -/
theorem template_grammar (attributes : Attributes) :
    attributes.FollowsGrammar attributes.substitute ∧
      (∀ f, attributes.FollowsGrammar f → f = attributes.substitute) ∧
      ∀ t, attributes.scan t = attributes.substitute t :=
  ⟨attributes.followsGrammar_substitute,
    fun _ hf => funext (hf.eq_on attributes.followsGrammar_substitute), attributes.scan_eq⟩

/-- The handle of an object, and a text with a `#` of its own. -/
def Attributes.ofHandle : Attributes := [("name", "obj3"), ("n", "#name")]

/-- The start `n` of a word gives way to its value, which is not filled in again although it
names the handle, and a `#` before a digit stays. -/
theorem template_grammar_ofHandle :
    Attributes.ofHandle.Names "n2" "n" "2" "#name" ∧
    Attributes.ofHandle.substitute "#n2#2" = "#name2#2" := by
  obtain ⟨hLaws, -⟩ := template_grammar Attributes.ofHandle
  have hNames : Attributes.ofHandle.Names "n2" "n" "2" "#name" := by
    refine ⟨rfl, by decide, rfl, fun longer hPrefix hLonger => ?_⟩
    rw [hPrefix.eq_of_length_le hLonger]
    rfl
  have hBoth : Attributes.ofHandle.substitute (('#' :: "n2".toList) ++ '#' :: "2".toList) =
      ("#name".toList ++ "2".toList) ++ '#' :: "2".toList := by
    rw [hLaws.append _ _ rfl, hLaws.named _ _ _ _ rfl hNames, hLaws.stray _ rfl,
      hLaws.plain _ (by decide)]
  exact ⟨hNames, hBoth⟩

end ArrayKernel
