import ArrayKernel.Proofs.Entries
import Mathlib.Data.List.Forall2

/-!
# Lowering for two targets

A target is what lowering leaves open once names are fixed: the device, and whether
contiguous access is wanted.  Lowering one tree for two targets goes in step.  Both fail
with one error, or both succeed with tables of alike symbols: names, types and operands
are the same, and what differs is how operators and reductions are spelled, if the devices
differ, and how the elements of buffers are accessed.

Helpers are compared as sets here, since their order looks at bodies.
-/

namespace ArrayKernel

/-! ## Results in step -/

/-- Two results with the same error, or with related values. -/
inductive Agree {ε α β : Type} (R : α → β → Prop) : Except ε α → Except ε β → Prop
  | error (e : ε) : Agree R (.error e) (.error e)
  | ok {a : α} {b : β} (h : R a b) : Agree R (.ok a) (.ok b)

namespace Agree

variable {ε α β γ δ : Type} {R : α → β → Prop} {S : γ → δ → Prop}

theorem bind {x : Except ε α} {y : Except ε β} {f : α → Except ε γ} {g : β → Except ε δ}
    (h : Agree R x y) (hNext : ∀ {a b}, R a b → Agree S (f a) (g b)) :
    Agree S (x >>= f) (y >>= g) := by
  cases h with
  | error e => exact .error e
  | ok h => exact hNext h

theorem map {x : Except ε α} {y : Except ε β} {f : α → γ} {g : β → δ} (h : Agree R x y)
    (hNext : ∀ {a b}, R a b → S (f a) (g b)) : Agree S (x.map f) (y.map g) := by
  cases h with
  | error e => exact .error e
  | ok h => exact .ok (hNext h)

theorem elim {x : Except ε α} {y : Except ε β} (h : Agree R x y) :
    (∃ e, x = .error e ∧ y = .error e) ∨ ∃ a b, x = .ok a ∧ y = .ok b ∧ R a b := by
  cases h with
  | error e => exact .inl ⟨e, rfl, rfl⟩
  | ok h => exact .inr ⟨_, _, rfl, rfl, h⟩

/-- Folds over one list stay in step if their steps do. -/
theorem foldlM {f : α → γ → Except ε α} {g : β → γ → Except ε β}
    (hStep : ∀ {a b} c, R a b → Agree R (f a c) (g b c)) (cs : List γ) {a : α} {b : β}
    (h : R a b) : Agree R (cs.foldlM f a) (cs.foldlM g b) := by
  induction cs generalizing a b with
  | nil => exact .ok h
  | cons c cs ih =>
      rw [List.foldlM_cons, List.foldlM_cons]
      exact (hStep c h).bind fun hNext => ih hNext

end Agree

/-! ## Alike symbols -/

/-- The device of a kernel, and whether contiguous access is wanted. -/
structure Target where
  device : Device
  contiguous : Bool
  deriving DecidableEq, Repr

/-- The settings of a lowering for a target. -/
def Target.settings (x : Target) (settings : Settings) : Settings :=
  { settings with contiguous := x.contiguous }

/-- The table of the nodes under a root for a target. -/
def Target.lower (x : Target) (t : Tree) (root : Nat) (settings : Settings) :
    Except SymbolError Table :=
  Table.ofTree t root x.device (x.settings settings)

/-- Two helpers that are the same, or access one buffer, or combine values in one way.
The names of the helpers that access a buffer are given. -/
inductive Helper.Alike (x y : Target) (owned : Text → Prop) : Helper → Helper → Prop
  | same (h : Helper) : Alike x y owned h h
  | access (layout : Layout) (handle : Text) (hOwned : owned (accessName handle)) :
      Alike x y owned (layout.accessHelper handle (layout.accessPath x.contiguous))
        (layout.accessHelper handle (layout.accessPath y.contiguous))
  | combining (op : ReduceOp) (dtype : ScalarType) :
      Alike x y owned (op.helper dtype x.device.dialect) (op.helper dtype y.device.dialect)

/-- Every helper of one set has a related one in the other. -/
def HelperSet.Paired (R : Helper → Helper → Prop) (a b : HelperSet) : Prop :=
  (∀ h ∈ a, ∃ g ∈ b, R h g) ∧ ∀ g ∈ b, ∃ h ∈ a, R h g

/-- Two kinds that differ at most in the access path of a buffer and in the form of an
operator, which follow from the targets. -/
inductive Kind.Alike (x y : Target) : Kind → Kind → Prop
  | made (layout : Layout) (written : Bool) :
      Alike x y (.buffer layout written none) (.buffer layout written none)
  | accessed (layout : Layout) (written : Bool) :
      Alike x y (.buffer layout written (some (layout.accessPath x.contiguous)))
        (.buffer layout written (some (layout.accessPath y.contiguous)))
  | hostScalar : Alike x y .hostScalar .hostScalar
  | placeholder (level : Nat) : Alike x y (.placeholder level) (.placeholder level)
  | binary (links : Links) (op : BinaryOp) (operand : ScalarType) :
      Alike x y (.binary links (.ofBinary op operand x.device.dialect))
        (.binary links (.ofBinary op operand y.device.dialect))
  | unary (links : Links) (op : UnaryOp) (operand result : ScalarType) :
      Alike x y (.unary links (.ofUnary op operand result x.device.dialect))
        (.unary links (.ofUnary op operand result y.device.dialect))
  | reduction (links : Links) (op : ReduceOp) (scopes : Nat) :
      Alike x y (.reduction links op scopes) (.reduction links op scopes)
  | view (links : Links) (v : View) (shape : Shape) (storage : Storage) :
      Alike x y (.view links v shape storage) (.view links v shape storage)
  | loop (links : Links) (bounds : LoopBounds) (induction : Text) :
      Alike x y (.loop links bounds induction) (.loop links bounds induction)

/-- Two symbols of one node, for two targets. -/
structure Symbol.Alike (x y : Target) (owned : Text → Prop) (s u : Symbol) : Prop where
  name : s.name = u.name
  dtype : s.dtype = u.dtype
  scopes : s.scopes = u.scopes
  left : s.device = x.device
  right : u.device = y.device
  kind : s.kind.Alike x y u.kind
  helpers : HelperSet.Paired (Helper.Alike x y owned) s.helpers u.helpers

/-- Two tables with alike symbols at the same positions. -/
def Table.Alike (x y : Target) (owned : Text → Prop) (a b : Table) : Prop :=
  List.Forall₂ (fun e f => e.1 = f.1 ∧ e.2.Alike x y owned f.2) a.entries b.entries

variable {x y : Target} {owned wider : Text → Prop} {s u : Symbol} {a b : Table}

theorem Helper.Alike.name_eq {h g : Helper} (hAlike : Helper.Alike x y owned h g) :
    h.name = g.name := by
  cases hAlike <;> rfl

theorem Helper.Alike.mono (hWider : ∀ name, owned name → wider name) {h g : Helper}
    (hAlike : Helper.Alike x y owned h g) : Helper.Alike x y wider h g := by
  cases hAlike with
  | same => exact .same h
  | access layout handle hOwned => exact .access layout handle (hWider _ hOwned)
  | combining op dtype => exact .combining op dtype

namespace HelperSet.Paired

variable {R S : Helper → Helper → Prop} {a b : HelperSet}

theorem empty : Paired R .empty .empty := by
  constructor
  · intro h hMem
    exact absurd hMem (HelperSet.not_mem_empty h)
  · intro g hMem
    exact absurd hMem (HelperSet.not_mem_empty g)

theorem mono (hImp : ∀ h g, R h g → S h g) (hPaired : Paired R a b) : Paired S a b := by
  constructor
  · intro h hMem
    obtain ⟨g, hg, hR⟩ := hPaired.1 h hMem
    exact ⟨g, hg, hImp h g hR⟩
  · intro g hMem
    obtain ⟨h, hh, hR⟩ := hPaired.2 g hMem
    exact ⟨h, hh, hImp h g hR⟩

theorem insert (hPaired : Paired R a b) {h g : Helper} (hR : R h g) :
    Paired R (a.insert h) (b.insert g) := by
  constructor
  · intro k hMem
    rcases HelperSet.mem_insert.mp hMem with rfl | hOld
    · exact ⟨g, HelperSet.mem_insert.mpr (.inl rfl), hR⟩
    · obtain ⟨l, hl, hOldR⟩ := hPaired.1 k hOld
      exact ⟨l, HelperSet.mem_insert.mpr (.inr hl), hOldR⟩
  · intro l hMem
    rcases HelperSet.mem_insert.mp hMem with rfl | hOld
    · exact ⟨h, HelperSet.mem_insert.mpr (.inl rfl), hR⟩
    · obtain ⟨k, hk, hOldR⟩ := hPaired.2 l hOld
      exact ⟨k, HelperSet.mem_insert.mpr (.inr hk), hOldR⟩

end HelperSet.Paired

namespace Kind.Alike

variable {k l : Kind}

theorem name_eq (h : k.Alike x y l) : k.name = l.name := by
  cases h <;> rfl

theorem array?_eq (h : k.Alike x y l) (handle : Text) : k.array? handle = l.array? handle := by
  cases h <;> rfl

end Kind.Alike

namespace Symbol.Alike

theorem handle_eq (h : s.Alike x y owned u) : s.handle = u.handle :=
  congrArg SymbolName.text h.name

theorem accessName_eq (h : s.Alike x y owned u) : s.accessName = u.accessName :=
  congrArg ArrayKernel.accessName h.handle_eq

theorem array?_eq (h : s.Alike x y owned u) : s.array? = u.array? := by
  unfold Symbol.array?
  rw [h.handle_eq, h.kind.array?_eq]

theorem mono (hWider : ∀ name, owned name → wider name) (h : s.Alike x y owned u) :
    s.Alike x y wider u :=
  { h with helpers := h.helpers.mono fun _ _ => Helper.Alike.mono hWider }

/-- Symbols without helpers and scopes are alike if their kinds are. -/
theorem plain {k l : Kind} (hKind : k.Alike x y l) (dtype : ScalarType) (name : SymbolName) :
    (Symbol.plain x.device dtype name k).Alike x y owned (Symbol.plain y.device dtype name l) :=
  ⟨rfl, rfl, rfl, rfl, rfl, hKind, .empty⟩

end Symbol.Alike

namespace Table.Alike

theorem mono (hWider : ∀ name, owned name → wider name) (h : a.Alike x y owned b) :
    a.Alike x y wider b :=
  List.Forall₂.imp (fun _ _ hEntry => ⟨hEntry.1, hEntry.2.mono hWider⟩) h

theorem contains_eq (h : a.Alike x y owned b) (p : Nat) : a.contains p = b.contains p := by
  unfold Table.contains
  unfold Table.Alike at h
  generalize a.entries = es at h ⊢
  generalize b.entries = fs at h ⊢
  induction h with
  | nil => rfl
  | cons hEntry _ ih =>
      rw [List.any_cons, List.any_cons, hEntry.1, ih]

theorem get? (h : a.Alike x y owned b) (p : Nat) :
    Option.Rel (Symbol.Alike x y owned) (a.get? p) (b.get? p) := by
  unfold Table.get?
  unfold Table.Alike at h
  generalize a.entries = es at h ⊢
  generalize b.entries = fs at h ⊢
  induction h with
  | nil => exact .none
  | @cons e f es fs hEntry _ ih =>
      obtain ⟨k, s⟩ := e
      obtain ⟨l, u⟩ := f
      obtain ⟨rfl, hAlike⟩ := hEntry
      rw [List.lookup_cons, List.lookup_cons]
      dsimp only
      cases p == k with
      | true => exact .some hAlike
      | false => exact ih

/-- Every symbol of one table has its like in the other. -/
theorem exists_right (h : a.Alike x y owned b) {p : Nat} (hs : a.get? p = some s) :
    ∃ u, b.get? p = some u ∧ s.Alike x y owned u := by
  have hGet := h.get? p
  rw [hs] at hGet
  generalize b.get? p = found at hGet ⊢
  cases hGet with
  | some hAlike => exact ⟨_, rfl, hAlike⟩

theorem exists_left (h : a.Alike x y owned b) {p : Nat} (hu : b.get? p = some u) :
    ∃ s, a.get? p = some s ∧ s.Alike x y owned u := by
  have hGet := h.get? p
  rw [hu] at hGet
  generalize a.get? p = found at hGet ⊢
  cases hGet with
  | some hAlike => exact ⟨_, rfl, hAlike⟩

theorem lookup (h : a.Alike x y owned b) (p : Nat) :
    Agree (Symbol.Alike x y owned) (a.lookup p) (b.lookup p) := by
  have hGet := h.get? p
  unfold Table.lookup
  generalize a.get? p = left at hGet ⊢
  generalize b.get? p = right at hGet ⊢
  cases hGet with
  | none => exact .error _
  | some hAlike => exact .ok hAlike

/-- The helpers of all symbols are paired if those of each symbol are. -/
theorem helpers (h : a.Alike x y owned b) :
    HelperSet.Paired (Helper.Alike x y owned) a.helpers b.helpers := by
  constructor
  · intro k hk
    obtain ⟨⟨p, s⟩, hEntry, hMem⟩ := Table.mem_helpers.mp hk
    obtain ⟨u, hu, hAlike⟩ := h.exists_right (Table.get?_eq_some_iff.mpr hEntry)
    obtain ⟨l, hl, hPair⟩ := hAlike.helpers.1 k hMem
    exact ⟨l, Table.mem_helpers.mpr ⟨(p, u), Table.get?_eq_some_iff.mp hu, hl⟩, hPair⟩
  · intro l hl
    obtain ⟨⟨p, u⟩, hEntry, hMem⟩ := Table.mem_helpers.mp hl
    obtain ⟨s, hs, hAlike⟩ := h.exists_left (Table.get?_eq_some_iff.mpr hEntry)
    obtain ⟨k, hk, hPair⟩ := hAlike.helpers.2 l hMem
    exact ⟨k, Table.mem_helpers.mpr ⟨(p, s), Table.get?_eq_some_iff.mp hs, hk⟩, hPair⟩

/-- The links of a node are found in both tables or in neither. -/
theorem resolve (h : a.Alike x y owned b) (p : Nat) (n : Node) {R : Symbol → Symbol → Prop}
    {f g : Links → Except SymbolError Symbol} (hNext : ∀ links, Agree R (f links) (g links)) :
    Agree R (Links.resolve a p n >>= f) (Links.resolve b p n >>= g) := by
  have hSame : (fun c => !a.contains c) = fun c => !b.contains c := by
    funext c
    rw [h.contains_eq]
  unfold Links.resolve
  rw [hSame]
  split
  · exact .error _
  · exact hNext _

theorem symbol? (h : a.Alike x y owned b) (link : Option Nat) :
    Agree (Option.Rel (Symbol.Alike x y owned)) (Links.symbol? a link)
      (Links.symbol? b link) := by
  cases link with
  | none => exact .ok .none
  | some c => exact (h.lookup c).map .some

theorem operand (h : a.Alike x y owned b) (links : Links) :
    Agree (Symbol.Alike x y owned) (links.operand a) (links.operand b) := by
  unfold Links.operand
  split
  · exact h.lookup _
  · exact .error _

/-- Filling a position of both tables keeps them alike. -/
theorem insert (h : a.Alike x y owned b) (hAlike : s.Alike x y owned u) (p : Nat) :
    Agree (fun c d => c.Alike x y owned d) (a.insert p s) (b.insert p u) := by
  have hPlace {es fs : List (Nat × Symbol)}
      (hEntries : List.Forall₂ (fun e f => e.1 = f.1 ∧ e.2.Alike x y owned f.2) es fs) :
      List.Forall₂ (fun e f => e.1 = f.1 ∧ e.2.Alike x y owned f.2) (Table.place p s es)
        (Table.place p u fs) := by
    induction hEntries with
    | nil => exact .cons ⟨rfl, hAlike⟩ .nil
    | cons hEntry hRest ih =>
        unfold Table.place
        rw [hEntry.1]
        split
        · exact .cons ⟨rfl, hAlike⟩ (.cons hEntry hRest)
        · exact .cons hEntry ih
  unfold Table.insert
  by_cases hFull : a.contains p = true
  · rw [dif_pos hFull, dif_pos (h.contains_eq p ▸ hFull)]
    exact .error _
  · rw [dif_neg hFull, dif_neg (h.contains_eq p ▸ hFull)]
    exact .ok (hPlace h)

/-! ## One node -/

variable {n : Node} {q : Nat} {name : SymbolName}

theorem buffer (strides : List Nat) (start : Nat) :
    Agree (Symbol.Alike x y owned) (Symbol.buffer x.device n.dtype name n.shape strides start)
      (Symbol.buffer y.device n.dtype name n.shape strides start) := by
  unfold Symbol.buffer
  split
  · exact .ok (.plain (.made _ _) _ _)
  · exact .error _

theorem binary (h : a.Alike x y owned b) {op : BinaryOp} (hOp : n.op = .binary op) :
    Agree (Symbol.Alike x y owned) (Symbol.binary x.device name q n a)
      (Symbol.binary y.device name q n b) := by
  unfold Symbol.binary
  refine h.resolve q n fun links => ?_
  rw [hOp]
  refine (h.symbol? links.lhs).bind fun {l r} hLhs => ?_
  -- the form follows from the type of the left operand, which the tables share
  have hType : l.elim n.dtype Symbol.dtype = r.elim n.dtype Symbol.dtype := by
    cases hLhs with
    | none => rfl
    | some hAlike => exact hAlike.dtype
  rw [hType]
  exact .ok (.plain (.binary _ _ _) _ _)

theorem unary (h : a.Alike x y owned b) {op : UnaryOp} (hOp : n.op = .unary op) :
    Agree (Symbol.Alike x y owned) (Symbol.unary x.device name q n a)
      (Symbol.unary y.device name q n b) := by
  unfold Symbol.unary
  refine h.resolve q n fun links => ?_
  rw [hOp]
  refine (h.operand links).bind fun hAlike => ?_
  rw [hAlike.dtype]
  exact .ok (.plain (.unary _ _ _ _) _ _)

theorem reduction (h : a.Alike x y owned b) {op : ReduceOp} {axes : List Nat}
    (hOp : n.op = .reduce op axes) :
    Agree (Symbol.Alike x y owned) (Symbol.reduction x.device name q n a)
      (Symbol.reduction y.device name q n b) := by
  unfold Symbol.reduction
  refine h.resolve q n fun links => ?_
  rw [hOp]
  dsimp only
  split
  · refine (h.operand links).bind fun _ => .ok ?_
    exact ⟨rfl, rfl, rfl, rfl, rfl, .reduction _ _ _,
      HelperSet.Paired.empty.insert (.combining _ _)⟩
  · exact .error _

theorem loop (h : a.Alike x y owned b) {bounds : LoopBounds} (hOp : n.op = .loop bounds)
    (stem : Text) :
    Agree (Symbol.Alike x y owned) (Symbol.loop x.device name q n a stem)
      (Symbol.loop y.device name q n b stem) := by
  unfold Symbol.loop
  refine h.resolve q n fun links => ?_
  rw [hOp]
  refine (h.operand links).bind fun _ => .ok ?_
  exact ⟨rfl, rfl, rfl, rfl, rfl, .loop _ _ _, .empty⟩

theorem view (h : a.Alike x y owned b) {v : View} (hOp : n.op = .view v) :
    Agree (Symbol.Alike x y owned) (Symbol.view x.device name q n a)
      (Symbol.view y.device name q n b) := by
  unfold Symbol.view
  refine h.resolve q n fun links => ?_
  rw [hOp]
  refine (h.operand links).bind fun {s u} hAlike => ?_
  rw [hAlike.array?_eq, hAlike.kind.name_eq]
  cases u.array? with
  | none => exact .error _
  | some array =>
      dsimp only
      split
      · exact .error _
      · unfold Symbol.viewOf
        rw [hAlike.accessName_eq]
        dsimp only
        split
        · exact .error _
        · exact .ok ⟨rfl, rfl, rfl, rfl, rfl, .view _ _ _ _, hAlike.helpers.insert (.same _)⟩

end Table.Alike

namespace Symbol

theorem handle_addAccess (s : Symbol) (contiguous store : Bool) :
    (s.addAccess contiguous store).handle = s.handle := by
  unfold addAccess
  split <;> rfl

theorem handle_accessed (s : Symbol) (usage : Usage) (contiguous : Bool) (p : Nat) :
    (s.accessed usage contiguous p).handle = s.handle := by
  unfold accessed addStore addLoad
  dsimp only
  split
  · rw [handle_addAccess]
    split
    · rw [handle_addAccess]
    · rfl
  · split
    · rw [handle_addAccess]
    · rfl

/-- The symbol stands for memory of its own. -/
def IsBuffer (s : Symbol) : Prop :=
  ∃ layout written access, s.kind = .buffer layout written access

theorem IsBuffer.addAccess (h : s.IsBuffer) (contiguous store : Bool) :
    (s.addAccess contiguous store).IsBuffer := by
  obtain ⟨layout, written, access, hKind⟩ := h
  unfold Symbol.addAccess
  rw [hKind]
  exact ⟨_, _, _, rfl⟩

theorem IsBuffer.accessed (h : s.IsBuffer) (usage : Usage) (contiguous : Bool) (p : Nat) :
    (s.accessed usage contiguous p).IsBuffer := by
  unfold Symbol.accessed addStore addLoad
  dsimp only
  split
  · refine IsBuffer.addAccess ?_ _ _
    split
    · exact h.addAccess _ _
    · exact h
  · split
    · exact h.addAccess _ _
    · exact h

namespace Alike

theorem isBuffer_iff (h : s.Alike x y owned u) : s.IsBuffer ↔ u.IsBuffer := by
  obtain ⟨name, dtype, device, helpers, scopes, kind⟩ := s
  obtain ⟨name', dtype', device', helpers', scopes', kind'⟩ := u
  have hKind := h.kind
  unfold IsBuffer
  dsimp only at hKind ⊢
  cases hKind <;> simp

/-- Giving both symbols an access helper keeps them alike. -/
theorem addAccess (h : s.Alike x y owned u) (hOwned : owned s.accessName) (store : Bool) :
    (s.addAccess x.contiguous store).Alike x y owned (u.addAccess y.contiguous store) := by
  obtain ⟨name, dtype, device, helpers, scopes, kind⟩ := s
  obtain ⟨name', dtype', device', helpers', scopes', kind'⟩ := u
  obtain ⟨hName, hType, hScopes, hLeft, hRight, hKind, hHelpers⟩ := h
  cases hName
  dsimp only at hKind
  have hSame := hKind
  cases hKind with
  | made layout written | accessed layout written =>
      exact ⟨rfl, hType, hScopes, hLeft, hRight, .accessed layout _,
        hHelpers.insert (.access layout name.text hOwned)⟩
  | hostScalar | placeholder | binary | unary | reduction | view | loop =>
      exact ⟨rfl, hType, hScopes, hLeft, hRight, hSame, hHelpers⟩

theorem accessed (h : s.Alike x y owned u) (hOwned : owned s.accessName) (usage : Usage)
    (p : Nat) :
    (s.accessed usage x.contiguous p).Alike x y owned (u.accessed usage y.contiguous p) := by
  unfold Symbol.accessed addStore addLoad
  by_cases hWritten : p ∈ usage.written
  · have hStored := h.addAccess hOwned true
    have hStill : owned (s.addAccess x.contiguous true).accessName := by
      unfold Symbol.accessName
      rw [handle_addAccess]
      exact hOwned
    by_cases hRead : p ∈ usage.read
    · simpa [hWritten, hRead] using hStored.addAccess hStill false
    · simpa [hWritten, hRead] using hStored
  · by_cases hRead : p ∈ usage.read
    · simpa [hWritten, hRead] using h.addAccess hOwned false
    · simpa [hWritten, hRead] using h

end Alike

end Symbol

/-! ## All nodes under a root -/

/-- The name is that of the access helper of a buffer of the table. -/
def Table.NamesBuffer (table : Table) (name : Text) : Prop :=
  ∃ p s, table.get? p = some s ∧ s.IsBuffer ∧ name = s.accessName

/-- Two lowerings that have come equally far. -/
structure Progress.InStep (x y : Target) (p r : Progress) : Prop where
  next : p.next = r.next
  table : p.table.Alike x y p.table.NamesBuffer r.table

namespace Progress.InStep

variable {p r : Progress} {q : Nat} {n : Node}

theorem symbol (h : InStep x y p r) (settings : Settings) (q : Nat) (n : Node) :
    Agree (Symbol.Alike x y p.table.NamesBuffer)
      (p.symbol x.device (x.settings settings) q n)
      (r.symbol y.device (y.settings settings) q n) := by
  unfold Progress.symbol
  rw [h.next]
  dsimp only
  cases hOp : n.op with
  | buffer strides start => exact Table.Alike.buffer strides start
  | hostScalar => exact .ok (.plain .hostScalar _ _)
  | placeholder level => exact .ok (.plain (.placeholder level) _ _)
  | binary op => exact h.table.binary hOp
  | unary op => exact h.table.unary hOp
  | reduce op axes => exact h.table.reduction hOp
  | view v => exact h.table.view hOp
  | loop bounds => exact h.table.loop hOp _

/-- Storing alike symbols at a free position keeps the tables alike. -/
theorem insert (h : InStep x y p r) (hMade : s.Alike x y p.table.NamesBuffer u) (usage : Usage)
    (q : Nat) :
    Agree (fun c d => Table.Alike x y c.NamesBuffer c d)
      (p.table.insert q (s.accessed usage x.contiguous q))
      (r.table.insert q (u.accessed usage y.contiguous q)) := by
  -- while the new symbol is not stored, its own name has to be allowed for
  let wider (name : Text) : Prop := p.table.NamesBuffer name ∨ s.IsBuffer ∧ name = s.accessName
  have hWider : ∀ name, p.table.NamesBuffer name → wider name := fun _ hName => .inl hName
  have hAccessed : (s.accessed usage x.contiguous q).Alike x y wider
      (u.accessed usage y.contiguous q) := by
    by_cases hBuffer : s.IsBuffer
    · exact (hMade.mono hWider).accessed (.inr ⟨hBuffer, rfl⟩) usage q
    · have hOther : ¬ u.IsBuffer := fun hu => hBuffer (hMade.isBuffer_iff.mpr hu)
      rw [Symbol.accessed_of_not_buffer fun layout w a hKind => hBuffer ⟨layout, w, a, hKind⟩,
        Symbol.accessed_of_not_buffer fun layout w a hKind => hOther ⟨layout, w, a, hKind⟩]
      exact hMade.mono hWider
  have hAgree := (h.table.mono hWider).insert hAccessed q
  rcases hAgree.elim with ⟨e, hLeft, hRight⟩ | ⟨c, d, hLeft, hRight, hAlike⟩
  · rw [hLeft, hRight]
    exact .error e
  · rw [hLeft, hRight]
    refine .ok (hAlike.mono fun name hName => ?_)
    rcases hName with ⟨k, v, hv, hBuffer, rfl⟩ | ⟨hBuffer, rfl⟩
    · exact ⟨k, v, Table.extends_of_insert hLeft hv, hBuffer, rfl⟩
    · refine ⟨q, s.accessed usage x.contiguous q, ?_, hBuffer.accessed usage _ q, ?_⟩
      · rw [Table.get?_of_insert hLeft, if_pos rfl]
      · unfold Symbol.accessName
        rw [Symbol.handle_accessed]

/-- Placing one node keeps two lowerings in step. -/
theorem place (h : InStep x y p r) (t : Tree) (usage : Usage) (settings : Settings) (q : Nat) :
    Agree (InStep x y) (Progress.place t usage x.device (x.settings settings) p q)
      (Progress.place t usage y.device (y.settings settings) r q) := by
  unfold Progress.place
  cases t.get? q with
  | none => exact .error _
  | some n =>
      refine (h.symbol settings q n).bind fun hMade => ?_
      refine (h.insert hMade usage q).bind fun hTables => .ok ⟨?_, hTables⟩
      unfold Progress.nextAfter
      rw [h.next]

end Progress.InStep

/-- Lowering a tree for two targets fails with one error or gives alike tables. -/
theorem Target.lower_agree (x y : Target) (t : Tree) (root : Nat) (settings : Settings) :
    Agree (fun a b => a.Alike x y a.NamesBuffer b) (x.lower t root settings)
      (y.lower t root settings) := by
  unfold Target.lower Table.ofTree
  cases t.order root with
  | error e => exact .error _
  | ok order =>
      simp only [Except.mapError, ok_bind]
      cases Usage.ofOrder t root order with
      | error e => exact .error _
      | ok usage =>
          refine Agree.bind (R := Progress.InStep x y) ?_ fun h => .ok h.table
          exact Agree.foldlM (fun q h => h.place t usage settings q) order ⟨rfl, .nil⟩

end ArrayKernel
