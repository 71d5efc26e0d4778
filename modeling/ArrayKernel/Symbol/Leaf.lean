import ArrayKernel.Symbol.Basic

/-!
# Buffers, host scalars and loop counters

The symbols of leaves, and the helper that accesses the elements of a buffer.
A buffer whose last axis has stride one can be accessed without that stride.
-/

namespace ArrayKernel

namespace Layout

/-- The access path of a buffer when a contiguous one is wanted or not. -/
def accessPath (l : Layout) (contiguous : Bool) : AccessPath :=
  if contiguous = true ∧ 0 < l.rank ∧ l.isUnitInner = true then .contiguous else .strided

/-- What an axis contributes to the offset of an element. -/
def axisTerm (l : Layout) (path : AccessPath) (stride : Text) (axis : Nat) : IndexExpr :=
  let index := .group (.var (IndexExpr.axisName axis))
  if path = .contiguous ∧ axis + 1 = l.rank then index else .mul index (.var stride)

/-- The offset of an element. -/
def offset (l : Layout) (handle : Text) (path : AccessPath) : IndexExpr :=
  .sum (.var (startName handle) ::
    (l.strideNames handle).zipIdx.map fun entry => l.axisTerm path entry.1 entry.2)

/-- The helper that accesses the elements of the buffer with a handle. -/
def accessHelper (l : Layout) (handle : Text) (path : AccessPath) : Helper where
  name := accessName handle
  params := IndexExpr.axisNames l.rank
  body := (ElementRef.stored handle (l.offset handle path)).text

end Layout

namespace Symbol

/-- A buffer, which has one stride per axis. -/
def buffer (device : Device) (dtype : ScalarType) (name : SymbolName) (shape : Shape)
    (strides : List Nat) (start : Nat) : Except SymbolError Symbol :=
  if h : strides.length = shape.length then
    .ok (plain device dtype name (.buffer ⟨shape, strides, start, h⟩ false none))
  else
    .error (.strideCount name.text shape.length strides.length)

/-- A scalar handed over by the caller. -/
def hostScalar (device : Device) (dtype : ScalarType) (name : SymbolName) : Symbol :=
  plain device dtype name .hostScalar

/-- The counter of the loop at a level. -/
def placeholder (device : Device) (level : Nat) (stem : Text) : Symbol :=
  plain device .int32 (.named (stem ++ Text.ofNat level)) (.placeholder level)

/-- Gives a buffer the helper that accesses its elements, and notes whether they are
written.  Other symbols have no memory of their own and stay as they are. -/
def addAccess (s : Symbol) (contiguous store : Bool) : Symbol :=
  match s.kind with
  | .buffer layout written _ =>
    let path := layout.accessPath contiguous
    { s with
      helpers := s.helpers.insert (layout.accessHelper s.handle path)
      kind := .buffer layout (written || store) (some path) }
  | _ => s

/-- The symbol as one whose elements are read. -/
def addLoad (s : Symbol) (contiguous : Bool) : Symbol := s.addAccess contiguous false

/-- The symbol as one whose elements are written. -/
def addStore (s : Symbol) (contiguous : Bool) : Symbol := s.addAccess contiguous true

end Symbol

end ArrayKernel
