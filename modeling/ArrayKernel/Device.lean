import ArrayKernel.Scalar

/-!
# Devices and dialects

A kernel is generated for a device, and the device decides the dialect of its
source: how mathematical functions are named and how infinity is written.
-/

namespace ArrayKernel

/-- The dialect of kernel source. -/
inductive Dialect where
  | c
  | cuda
  | opencl
  deriving DecidableEq, Repr

/-- Where a kernel runs. -/
inductive Device where
  | cpu
  | cuda (ordinal : Nat)
  | opencl (ordinal : Nat)
  deriving DecidableEq, Repr

namespace Dialect

def name : Dialect → Text
  | c => "c"
  | cuda => "cuda"
  | opencl => "opencl"

/-- Whether one mathematical function serves every floating-point type. -/
def hasOverloadedMath : Dialect → Bool
  | c => false
  | cuda | opencl => true

/-- The name of a mathematical function for a type.  Without overloading, all
types but the widest use the single-precision function. -/
def mathName (d : Dialect) (name : Text) (t : ScalarType) : Text :=
  if t = .float64 ∨ d.hasOverloadedMath = true then name else name ++ "f"

/-- Positive infinity of a floating-point type. -/
def infinity (d : Dialect) (t : ScalarType) : Text :=
  match d with
  | c => if t = .float64 then "__builtin_inf()" else "__builtin_inff()"
  | opencl => "INFINITY"
  | cuda =>
    if t = .float64 then "__longlong_as_double(0x7ff0000000000000LL)"
    else "__int_as_float(0x7f800000)"

end Dialect

namespace Device

/-- The dialect of the kernels of a device. -/
def dialect : Device → Dialect
  | cpu => .c
  | cuda _ => .cuda
  | opencl _ => .opencl

end Device

end ArrayKernel
