import ArrayKernel.Proofs.Bodies
import ArrayKernel.Proofs.Rounds

/-!
# From access helpers to storage

A call of the access helper of an array goes through the helpers of the arrays under it
to one that refers to storage, in as many calls as there are arrays on the way.  What the
last helper makes of its arguments calls nothing any more.

The statements hold for every identifier as the stem of names.  They do NOT say that the
result begins with the pointer of the buffer: the name of the pointer can be that of a
parameter of the last helper.
-/

namespace ArrayKernel

/-! ## Texts with an index -/

namespace Text

/-- A bracketed text in square brackets is sealed. -/
theorem Bracketed.indexed {t : Text} (h : Bracketed t) : Sealed ('[' :: (t ++ [']'])) := by
  have hRun : t.foldlM sealStep [']'] = some [']'] := foldlM_sealStep_inside h []
  show (t ++ [']']).foldlM sealStep [']'] = some []
  rw [List.foldlM_append, hRun]
  rfl

theorem IsAtom.indexed {s t : Text} (hs : IsAtom s) (ht : IsAtom t) :
    IsAtom (s ++ '[' :: (t ++ [']'])) := by
  have hOpen : HasSolidEnds ['['] := solid_singleton (by decide)
  have hClose : HasSolidEnds [']'] := solid_singleton (by decide)
  have hSolid : HasSolidEnds ('[' :: (t ++ [']'])) :=
    hOpen.between hClose (List.cons_ne_nil _ _) (List.cons_ne_nil _ _) t
  have hIndex : Parted s ('[' :: (t ++ [']'])) := .inr (detached_cons (by decide) (by decide) _)
  have hEnd : Parted t [']'] := .inr (detached_cons (by decide) (by decide) _)
  refine ⟨⟨hs.sealed.append ht.sealed.bracketed.indexed,
    solid_append hs.solid hSolid (List.cons_ne_nil _ _), by simp⟩, ?_⟩
  rw [callNames_append hIndex, pieces_cons_other (by decide), callNames_cons_other,
    callNames_append hEnd, hs.quiet, ht.quiet]
  rfl

end Text

/-! ## Names of what is passed on -/

namespace IndexExpr

/-- Arguments in place of the axes name what the arguments name. -/
theorem namesIn_subst {P : Text → Prop} {rank : Nat} {args : List IndexExpr} {e : IndexExpr}
    (he : e.NamesIn (· ∈ axisNames rank)) (hLength : args.length = rank)
    (hArgs : ∀ a ∈ args, a.NamesIn P) : (e.subst (axisNames rank) args).NamesIn P := by
  induction e with
  | const n => trivial
  | var name =>
      obtain ⟨k, hk, rfl⟩ := List.mem_map.mp he
      have hLt : k < args.length := by simpa [hLength] using List.mem_range.mp hk
      unfold subst
      rw [parameter?_axisName (List.mem_range.mp hk)]
      dsimp only
      rw [List.getD_eq_getElem?_getD, List.getElem?_eq_getElem hLt]
      exact hArgs _ (List.getElem_mem hLt)
  | group e ih => exact ih he
  | add a b iha ihb => exact ⟨iha he.1, ihb he.2⟩
  | mul a b iha ihb => exact ⟨iha he.1, ihb he.2⟩
  | div a b iha ihb => exact ⟨iha he.1, ihb he.2⟩
  | mod a b iha ihb => exact ⟨iha he.1, ihb he.2⟩

end IndexExpr

/-! ## One call -/

theorem isAccessName_accessName (handle : Text) : isAccessName (accessName handle) = true :=
  List.isSuffixOf_iff_suffix.mpr (List.suffix_append handle "_at")

namespace Helper

variable {h : Helper} {args : List IndexExpr}

theorem callOf_eq_text : h.callOf (args.map IndexExpr.text) =
    (ElementRef.through h.name args).text := by
  rw [ElementRef.text_through]
  simp [callOf]

theorem accesses_of_isReadable (hName : Text.isIdentifier h.name = true)
    (hAccess : isAccessName h.name = true) (hLength : args.length = h.arity)
    (hArgs : ∀ e ∈ args, e.isReadable = true) : h.Accesses (args.map IndexExpr.text) where
  identifier := hName
  access := hAccess
  arity := (List.length_map _).trans hLength
  atom := by
    intro arg hArg
    obtain ⟨e, he, rfl⟩ := List.mem_map.mp hArg
    exact .of_isReadable (hArgs e he)

/-- What a reference to storage becomes.  The name in front is replaced too if it is that
of a parameter. -/
theorem fill_stored {pointer : Text} {offset : IndexExpr}
    (hBody : h.body = (ElementRef.stored pointer offset).text)
    (hPointer : Text.isIdentifier pointer = true) (hOffset : offset.isReadable = true)
    (args : List IndexExpr) :
    h.fill (args.map IndexExpr.text) = ((IndexExpr.var pointer).subst h.params args).text ++
      '[' :: ((offset.subst h.params args).text ++ [']']) := by
  have hHead : Text.fill h.params (args.map IndexExpr.text) pointer =
      ((IndexExpr.var pointer).subst h.params args).text :=
    IndexExpr.fill_name (IndexExpr.isName_of_isIdentifier hPointer) args
  rw [fill, hBody, ElementRef.text_stored, Text.fill_between _ _ _ _ (by decide), hHead,
    Text.fill_between _ _ _ _ (by decide), IndexExpr.fill_text hOffset]
  rfl

theorem isAtom_fill_stored {pointer : Text} {offset : IndexExpr}
    (hBody : h.body = (ElementRef.stored pointer offset).text)
    (hPointer : Text.isIdentifier pointer = true)
    (hOffset : IndexExpr.Fillable h.params offset) (hArgs : ∀ e ∈ args, e.isReadable = true) :
    Text.IsAtom (h.fill (args.map IndexExpr.text)) := by
  rw [fill_stored hBody hPointer hOffset.readable]
  have hHead : ((IndexExpr.var pointer).subst h.params args).isReadable = true :=
    IndexExpr.isReadable_subst_var (IndexExpr.isName_of_isIdentifier hPointer) hArgs
  have hIndex := IndexExpr.isReadable_subst hOffset.readable hOffset.guarded hArgs
  exact .indexed (.of_isReadable hHead) (.of_isReadable hIndex)

/-- What a reference through another helper becomes. -/
theorem Refers.fill_eq {r : ElementRef} (hr : h.Refers r) (args : List IndexExpr) :
    h.fill (args.map IndexExpr.text) = (r.subst h.params args).text := by
  rw [fill, hr.body_eq, ElementRef.fill_text hr.head_identifier hr.head_not_mem hr.readable]

end Helper

/-! ## Chains of calls -/

/-- The helper refers to storage, and following the helpers of the array at a position
leads to it. -/
inductive Table.Stores (table : Table) : Nat → Helper → Prop
  | own {p : Nat} {h : Helper} {pointer : Text} {offset : IndexExpr} (hOwns : table.Owns p h)
      (hBody : h.body = (ElementRef.stored pointer offset).text) : Stores table p h
  | under {p q : Nat} {h g last : Helper} {indices : List IndexExpr} (hOwns : table.Owns p h)
      (hBody : h.body = (ElementRef.through g.name indices).text) (hUnder : table.Owns q g)
      (hRest : Stores table q last) : Stores table p last

/-- A call of the access helper of the array at a position leads to a reference to storage
by a helper, which is passed arguments that name what the arguments of the call name. -/
structure Table.Fetches (table : Table) (p : Nat) (name : Text) (args : List IndexExpr)
    (depth : Nat) (last : Helper) (pointer : Text) (offset : IndexExpr)
    (passed : List IndexExpr) : Prop where
  stores : table.Stores p last
  body : last.body = (ElementRef.stored pointer offset).text
  params : ∃ rank, last.params = IndexExpr.axisNames rank
  offset_readable : offset.isReadable = true
  length_eq : passed.length = last.arity
  readable : ∀ e ∈ passed, e.isReadable = true
  names : ∀ {P : Text → Prop}, (∀ e ∈ args, e.NamesIn P) → ∀ e ∈ passed, e.NamesIn P
  settles : Settles table.helpers.toList (depth + 1) (ElementRef.through name args).text
    (last.fill (passed.map IndexExpr.text))

namespace Lowered

variable {t : Tree} {usage : Usage} {device : Device} {settings : Settings} {order : List Nat}
  {table : Table} {p depth b : Nat} {s buffer : Symbol} {toBuffer : List Nat → List Nat}
  {layout : Layout} {written : Bool} {access : Option AccessPath}

theorem mem_helpers_of_owns {h : Helper} (hOwns : table.Owns p h) : h ∈ table.helpers.toList := by
  obtain ⟨s, hs, -, hMem, -⟩ := hOwns
  exact mem_helpers hs hMem

/-- A call of the helper of an array, with an index for each parameter. -/
theorem accesses_of_owns (hL : Lowered t usage device settings order table)
    (hStem : Text.isIdentifier settings.nameStem = true) {h : Helper} (hOwns : table.Owns p h)
    {args : List IndexExpr} (hArgs : args.length = h.arity)
    (hReadable : ∀ e ∈ args, e.isReadable = true) : h.Accesses (args.map IndexExpr.text) := by
  have hName := hL.isIdentifier_of_owns hStem hOwns
  obtain ⟨s, -, -, -, hAccess⟩ := hOwns
  refine Helper.accesses_of_isReadable hName ?_ hArgs hReadable
  rw [hAccess]
  exact isAccessName_accessName s.handle

section

variable {h : Helper} {rank : Nat} {args : List IndexExpr}

/-- A helper that refers to storage by itself. -/
theorem fetches_own (hL : Lowered t usage device settings order table)
    (hStem : Text.isIdentifier settings.nameStem = true) (hOwns : table.Owns p h)
    (hParams : h.params = IndexExpr.axisNames rank) {pointer : Text} {offset : IndexExpr}
    (hBody : h.body = (ElementRef.stored pointer offset).text)
    (hPointer : Text.isIdentifier pointer = true) (hOffset : IndexExpr.Fillable h.params offset)
    (hArgs : args.length = h.arity) (hReadable : ∀ e ∈ args, e.isReadable = true) :
    table.Fetches p h.name args depth h pointer offset args := by
  have hCall := hL.accesses_of_owns hStem hOwns hArgs hReadable
  have hAtom := Helper.isAtom_fill_stored hBody hPointer hOffset hReadable
  refine ⟨.own hOwns hBody, hBody, ⟨rank, hParams⟩, hOffset.readable, hArgs, hReadable,
    fun hNames => hNames, ?_⟩
  rw [← Helper.callOf_eq_text]
  exact .call (mem_helpers_of_owns hOwns) hCall (.atom hAtom)

/-- A helper that calls the helper of the array under it. -/
theorem fetches_under (hL : Lowered t usage device settings order table)
    (hStem : Text.isIdentifier settings.nameStem = true) (hOwns : table.Owns p h)
    (hParams : h.params = IndexExpr.axisNames rank) {q : Nat} {g last : Helper}
    {indices passed : List IndexExpr} {pointer : Text} {offset : IndexExpr}
    (hRefers : h.Refers (.through g.name indices)) (hUnder : table.Owns q g)
    (hNames : ∀ e ∈ indices, e.NamesIn (· ∈ IndexExpr.axisNames rank))
    (hArgs : args.length = h.arity) (hReadable : ∀ e ∈ args, e.isReadable = true)
    (hRest : table.Fetches q g.name (indices.map (·.subst h.params args)) depth last pointer
      offset passed) :
    table.Fetches p h.name args (depth + 1) last pointer offset passed := by
  have hCall := hL.accesses_of_owns hStem hOwns hArgs hReadable
  refine ⟨.under hOwns hRefers.body_eq hUnder hRest.stores, hRest.body, hRest.params,
    hRest.offset_readable, hRest.length_eq, hRest.readable, ?_, ?_⟩
  · intro P hP
    refine hRest.names fun e he => ?_
    obtain ⟨d, hd, rfl⟩ := List.mem_map.mp he
    have hLength : args.length = rank := by
      simpa [Helper.arity, hParams, IndexExpr.axisNames] using hArgs
    rw [hParams]
    exact IndexExpr.namesIn_subst (hNames d hd) hLength hP
  · rw [← Helper.callOf_eq_text]
    refine .call (mem_helpers_of_owns hOwns) hCall ?_
    rw [hRefers.fill_eq]
    exact hRest.settles

end

/-- The access helper of a buffer refers to its storage. -/
theorem fetches_buffer (hL : Lowered t usage device settings order table)
    (hStem : Text.isIdentifier settings.nameStem = true) (hb : table.get? b = some buffer)
    (hKind : buffer.kind = .buffer layout written access) {shape : Shape}
    (hShape : buffer.shape? = some shape) {args : List IndexExpr}
    (hArgs : args.length = shape.length) (hReadable : ∀ e ∈ args, e.isReadable = true) :
    ∃ last offset passed, table.Fetches b buffer.accessName args depth last buffer.handle offset
      passed := by
  have hArray := isArray_of_buffer hKind
  have hHandle := hL.isIdentifier_handle hStem hb hArray
  obtain ⟨h, hOwns, hMem, hName, hArity⟩ := hL.exists_own_helper hb hShape
  cases hL.arrayEntry hb hArray with
  | view n m v child operand under element hNode hOp hLhs hChild hOperand hUnder hMatrix hElement
      hNumber hKind' hHelpers =>
      rw [hKind] at hKind'
      cases hKind'
  | buffer n layout' written' hNode hOp hShape' hKind' hHelpers =>
      have hHelper := (hHelpers h).mp hMem
      have hParams : h.params = IndexExpr.axisNames layout'.rank := by
        rw [hHelper]
        rfl
      rw [← hName]
      refine ⟨h, layout'.offset buffer.handle (layout'.accessPath settings.contiguous), args,
        hL.fetches_own hStem hOwns hParams ?_ hHandle ?_ (hArgs.trans hArity.symm) hReadable⟩
      · rw [hHelper]
        rfl
      · rw [hParams]
        exact Layout.fillable_offset hHandle _ _

/-- The access helper of every array leads to storage of the buffer behind its views, through
no more helpers than there are arrays on the way. -/
theorem fetches (hL : Lowered t usage device settings order table)
    (hStem : Text.isIdentifier settings.nameStem = true) (hBacked : t.Backed p depth b toBuffer)
    (hb : table.get? b = some buffer) (hKind : buffer.kind = .buffer layout written access)
    (hs : table.get? p = some s) {shape : Shape} (hShape : s.shape? = some shape)
    {args : List IndexExpr} (hArgs : args.length = shape.length)
    (hReadable : ∀ e ∈ args, e.isReadable = true) :
    ∃ last offset passed, table.Fetches p s.accessName args depth last buffer.handle offset
      passed := by
  induction hBacked generalizing s shape args with
  | buffer =>
      rw [hb] at hs
      cases hs
      exact hL.fetches_buffer hStem hb hKind hShape hArgs hReadable
  | @view p child depth b n m v toBuffer hNode hOp hLhs hChild hRest ih =>
      have hArray := Symbol.isArray_of_shape? hShape
      obtain ⟨operand, under, element, hOperand, hUnder, hElement, hViewKind, hMem⟩ :=
        hL.view_entry hs hArray hNode hOp hLhs hChild
      obtain rfl : shape = n.shape := by
        unfold Symbol.shape? at hShape
        rw [hViewKind] at hShape
        exact (Option.some.inj hShape).symm
      have hRelates := View.relates_of_formed (hL.built.formed hNode) hOp hLhs hChild
      have hOwns : table.Owns p ⟨s.accessName, IndexExpr.axisNames n.shape.length, element.text⟩ :=
        ⟨s, hs, hArray, hMem, rfl⟩
      have hLength : args.length = (IndexExpr.axisNames n.shape.length).length := by
        simpa [IndexExpr.axisNames] using hArgs
      rcases View.elementRef?_cases hElement hRelates with
        ⟨indices, rfl, hPasses⟩ | ⟨stride, rfl, hShared, rfl⟩
      · obtain ⟨g, hg, -, hgName, -⟩ :=
          hL.exists_own_helper hOperand (Symbol.shape?_of_array? hUnder)
        have hRefers := hL.refers_through hStem hs hArray hOperand (isArray_of_array? hUnder)
          hPasses.fillable
        have hNames := View.namesIn_of_through hElement (View.rank_pos_of_diagonal hRelates)
        obtain ⟨last, offset, passed, hFetches⟩ := ih hb hOperand
          (Symbol.shape?_of_array? hUnder) ((List.length_map _).trans hPasses.length_eq)
          (hPasses.isReadable_subst hReadable)
        rw [← hgName] at hOwns hRefers hFetches
        exact ⟨last, offset, passed,
          hL.fetches_under hStem hOwns rfl hRefers hg hNames hLength hReadable hFetches⟩
      · -- the helper of the diagonal goes to the buffer past all views in between
        have hHandle := hL.isIdentifier_handle hStem hb (isArray_of_buffer hKind)
        have hDescribes := hL.describes hStem hRest hb hKind hOperand hUnder
        have hDiagonal := View.describes hDescribes hRelates
        have hStride := View.isStride_of_diagonal hDescribes hRelates hShared
        rw [hDiagonal.pointer, hDiagonal.start] at hOwns
        exact ⟨_, _, args, hL.fetches_own hStem hOwns rfl rfl hHandle
          (hStride.fillable_offset (Layout.isIdentifier_startName hHandle) _) hLength hReadable⟩

end Lowered

end ArrayKernel
