import ArrayKernel.Text.Basic

/-!
# Shapes

A shape lists the extents of an array, the last axis varying fastest.  Element
counts and strides are kept within 64 bits: a product that leaves them is
`none`, and a product is formed from left to right, so a zero behind an
overflow does not undo it.

Two shapes are broadcast with their last axes aligned.  A missing axis counts
as an extent of one.
-/

namespace ArrayKernel

/-- The extents of an array, outermost axis first. -/
abbrev Shape := List Nat

namespace Shape

/-- The number of values of a 64-bit word. -/
def wordSize : Nat := 0x10000000000000000

/-- The product, if it fits in 64 bits. -/
def mul? (a b : Nat) : Option Nat := if a * b < wordSize then some (a * b) else none

/-- The number of elements. -/
def count? (s : Shape) : Option Nat := s.foldlM mul? 1

/-- The strides of an array without gaps.  The extent of the first axis plays no part. -/
def denseStrides? : Shape → Option (List Nat)
  | [] => some []
  | [_] => some [1]
  | _ :: extent :: s => do
    let strides ← denseStrides? (extent :: s)
    let stride ← mul? (strides.headD 1) extent
    return stride :: strides

/-- The shape with axes of extent one in front, up to a rank. -/
def padTo (rank : Nat) (s : Shape) : Shape := List.replicate (rank - s.length) 1 ++ s

/-- The extent of two aligned axes: equal extents agree, and one agrees with any. -/
def joinExtent? (l r : Nat) : Option Nat :=
  if l = r ∨ l = 1 ∨ r = 1 then some (max l r) else none

/-- The extents of two aligned shapes. -/
def joinExtents? : Shape → Shape → Option Shape
  | l :: ls, r :: rs => do
    let extent ← joinExtent? l r
    let extents ← joinExtents? ls rs
    return extent :: extents
  | _, _ => some []

/-- The shape of an elementwise operation on two arrays. -/
def broadcast? (lhs rhs : Shape) : Option Shape :=
  let rank := max lhs.length rhs.length
  joinExtents? (padTo rank lhs) (padTo rank rhs)

/-- The shape in square brackets. -/
def text (s : Shape) : Text := Text.ofNats s

@[simp] theorem length_padTo (rank : Nat) (s : Shape) :
    (padTo rank s).length = max rank s.length := by
  simp only [padTo, List.length_append, List.length_replicate]
  omega

end Shape

end ArrayKernel
