import ArrayKernel.Text.Basic

/-!
# Scalar loops

A scalar loop counts from a start towards an end, which it does not reach, in
steps of either sign.
-/

namespace ArrayKernel

/-- The nesting level and the range of a scalar loop. -/
structure LoopBounds where
  level : Nat
  start : Int
  stop : Int
  step : Int
  deriving DecidableEq, Repr

/-- Why a loop has no trip count. -/
inductive LoopError where
  /-- The distance from start to end does not fit in 64 bits. -/
  | spanOverflow
  deriving DecidableEq, Repr

namespace LoopError

/-- The wording of an error. -/
def message : LoopError → Text
  | spanOverflow => "attempt to subtract with overflow"

end LoopError

namespace LoopBounds

/-- The first distance that does not fit in 64 bits with a sign. -/
def spanLimit : Int := 0x8000000000000000

/-- How often the body runs.  A step of zero runs it never; otherwise the distance
from start to end has to fit in 64 bits with a sign. -/
def tripCount (b : LoopBounds) : Except LoopError Nat :=
  if b.step = 0 then .ok 0
  else
    let span := b.stop - b.start
    if span < -spanLimit ∨ spanLimit ≤ span then .error .spanOverflow
    else if span.sign ≠ b.step.sign then .ok 0
    else .ok ((span.natAbs + b.step.natAbs - 1) / b.step.natAbs)

end LoopBounds

end ArrayKernel
