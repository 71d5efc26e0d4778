import ArrayKernel.Index.Expr
import ArrayKernel.Shape

/-!
# Indices of reshaped arrays

An element keeps its place in row-major order when an array is reshaped.
`flatten?` writes that place in terms of the indices in one shape, and
`unflatten?` writes the indices in another shape in terms of the place.  Axes of
extent one have index zero, and no expression divides for a shape without
elements.  The result is `none` where a factor does not fit in 64 bits.
-/

namespace ArrayKernel
namespace IndexExpr

/-- What the axes contribute to the place of an element: each index times the number
of elements behind its axis. -/
def flattenTerms? : List Text → Shape → Option (List IndexExpr)
  | name :: names, extent :: extents =>
    if extent = 1 then flattenTerms? names extents
    else do
      let factor ← Shape.count? extents
      let terms ← flattenTerms? names extents
      let index := group (var name)
      return (if factor = 1 then index else mul index (const factor)) :: terms
  | _, _ => some []

/-- The place of an element in row-major order. -/
def flatten? (names : List Text) (shape : Shape) : Option IndexExpr :=
  if 0 ∈ shape then some (const 0) else (flattenTerms? names shape).map sum

/-- The index along one axis, given the number of elements behind it.  The index along
the first axis needs no remainder. -/
def axisIndex (place : IndexExpr) (isFirst : Bool) (extent divisor : Nat) : IndexExpr :=
  if extent = 1 then const 0
  else if isFirst then
    if divisor = 1 then place else div place (const divisor)
  else if divisor = 1 then mod place (const extent)
  else mod (group (div place (const divisor))) (const extent)

/-- The indices along the axes of a shape with elements. -/
def unflattenAxes? (place : IndexExpr) (isFirst : Bool) : Shape → Option (List IndexExpr)
  | [] => some []
  | extent :: extents => do
    let divisor ← Shape.count? extents
    let indices ← unflattenAxes? place false extents
    return axisIndex place isFirst extent divisor :: indices

/-- The indices of the element at a place in row-major order. -/
def unflatten? (place : IndexExpr) (shape : Shape) : Option (List IndexExpr) :=
  if 0 ∈ shape then some (List.replicate shape.length (const 0))
  else unflattenAxes? place.grouped true shape

end IndexExpr
end ArrayKernel
