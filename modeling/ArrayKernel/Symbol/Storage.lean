import ArrayKernel.Index.Expr
import ArrayKernel.Shape
import ArrayKernel.Text.Template

/-!
# Storage of arrays

A buffer has a layout: a shape, one stride per axis and the offset of its first
element.  The kernel receives the pointer, the offset and the strides as named
parameters; if all strides are equal, one parameter stands for all of them.

A view shares the pointer and the offset with the array under it, and knows the
strides that still describe it.
-/

namespace ArrayKernel

/-- Where the elements of a buffer are. -/
structure Layout where
  shape : Shape
  strides : List Nat
  start : Nat
  length_strides : strides.length = shape.length
  deriving DecidableEq, Repr

/-- What is known by name about the memory behind an array. -/
structure Storage where
  /-- The symbol that owns the memory. -/
  name : Text
  pointer : Text
  start : Text
  /-- The stride of each axis, where a stride describes it. -/
  strides : List (Option IndexExpr)
  /-- The stride that all axes share. -/
  shared : Option IndexExpr
  deriving DecidableEq, Repr

namespace Layout

def rank (l : Layout) : Nat := l.shape.length

/-- Whether neighbours along the last axis are neighbours in memory. -/
def isUnitInner (l : Layout) : Bool := l.strides.getLast?.all (· == 1)

/-- Whether the members of a list are equal. -/
def allEqual : List Nat → Bool
  | a :: b :: rest => a == b && allEqual (b :: rest)
  | _ => true

/-- Whether all strides are equal. -/
def isUniform (l : Layout) : Bool := allEqual l.strides

/-- The name of the parameter that all strides share. -/
def sharedStride (handle : Text) : Text := handle ++ "_stride"

/-- The name of the parameter for the offset of the first element. -/
def startName (handle : Text) : Text := handle ++ "_start"

/-- The names of the parameters for the strides, one per axis. -/
def strideNames (l : Layout) (handle : Text) : List Text :=
  if l.isUniform then List.replicate l.rank (sharedStride handle)
  else (List.range l.rank).map fun axis => sharedStride handle ++ Text.ofNat axis

/-- The storage of the buffer with a handle. -/
def storage (l : Layout) (handle : Text) : Storage where
  name := handle
  pointer := handle
  start := startName handle
  strides := (l.strideNames handle).map fun stride => some (.var stride)
  shared := if 0 < l.rank ∧ l.isUniform = true then some (.var (sharedStride handle)) else none

@[simp] theorem length_strideNames (l : Layout) (handle : Text) :
    (l.strideNames handle).length = l.rank := by
  unfold strideNames
  split <;> simp

end Layout

namespace Storage

/-- The stride of an axis. -/
def stride? (s : Storage) (axis : Nat) : Option IndexExpr := s.strides.getD axis none

/-- The stride between the rows of a matrix or of more axes. -/
def leading? (s : Storage) : Option IndexExpr :=
  if 2 ≤ s.strides.length then s.stride? 0 else none

/-- A stride as an attribute, if it is known. -/
def strideAttribute (name : Text) (stride : Option IndexExpr) : Attributes :=
  (stride.map fun e => (name, e.text)).toList

/-- The strides of the axes as attributes. -/
def axisAttributes (s : Storage) : Attributes :=
  s.strides.zipIdx.flatMap fun entry =>
    strideAttribute ("stride" ++ Text.ofNat entry.2) entry.1

/-- The storage as attributes. -/
def attributes (s : Storage) : Attributes :=
  ("pointer", s.pointer) :: ("start", s.start) ::
    (strideAttribute "stride" s.shared ++ s.axisAttributes ++ strideAttribute "ld" s.leading?)

end Storage

end ArrayKernel
