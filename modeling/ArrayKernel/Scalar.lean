import ArrayKernel.Text.Basic

/-!
# Scalar types

The element types of arrays and scalars, with the spellings and limits that
generated kernels use for them.
-/

namespace ArrayKernel

/-- The type of a scalar or of the elements of an array. -/
inductive ScalarType where
  | bool
  | int8
  | uint8
  | int16
  | uint16
  | int32
  | uint32
  | int64
  | uint64
  | float16
  | float32
  | float64
  /-- Array positions and loop counters. -/
  | index
  deriving DecidableEq, Repr

namespace ScalarType

/-- All scalar types, in order. -/
def all : List ScalarType :=
  [bool, int8, uint8, int16, uint16, int32, uint32, int64, uint64, float16, float32, float64,
    index]

/-- The place of a type in the order of types. -/
def ordinal (t : ScalarType) : Nat := t.ctorIdx

/-- The type at a place in the order of types. -/
def ofOrdinal? (n : Nat) : Option ScalarType := all[n]?

instance : Ord ScalarType := ⟨fun a b => compare a.ordinal b.ordinal⟩

/-- The size in bytes. -/
def bytes : ScalarType → Nat
  | bool | int8 | uint8 => 1
  | int16 | uint16 | float16 => 2
  | int32 | uint32 | float32 => 4
  | int64 | uint64 | float64 | index => 8

def isBool : ScalarType → Bool
  | bool => true
  | _ => false

def isSigned : ScalarType → Bool
  | int8 | int16 | int32 | int64 => true
  | _ => false

def isUnsigned : ScalarType → Bool
  | uint8 | uint16 | uint32 | uint64 => true
  | _ => false

/-- Signed and unsigned integers, and array positions. -/
def isInt (t : ScalarType) : Bool := t.isSigned || t.isUnsigned || t == index

def isFloat : ScalarType → Bool
  | float16 | float32 | float64 => true
  | _ => false

/-- The spelling in kernel source, the same in every dialect. -/
def spelling : ScalarType → Text
  | bool => "bool"
  | int8 => "signed char"
  | uint8 => "unsigned char"
  | int16 => "short"
  | uint16 => "unsigned short"
  | int32 => "int"
  | uint32 => "unsigned int"
  | int64 => "long long"
  | uint64 => "unsigned long long"
  | float16 => "half"
  | float32 => "float"
  | float64 => "double"
  | index => "long long"

/-- The tag of the type inside generated names. -/
def suffix : ScalarType → Text
  | bool => "b"
  | int8 => "i8"
  | uint8 => "u8"
  | int16 => "i16"
  | uint16 => "u16"
  | int32 => "i32"
  | uint32 => "u32"
  | int64 => "i64"
  | uint64 => "u64"
  | float16 => "f16"
  | float32 => "f32"
  | float64 => "f64"
  | index => "idx"

/-- The least value as a literal.  The least values of the wide signed types are
differences, because a literal has no sign. -/
def minLiteral? : ScalarType → Option Text
  | int8 => some "-128"
  | int16 => some "-32768"
  | int32 => some "(-2147483647 - 1)"
  | int64 | index => some "(-9223372036854775807LL - 1)"
  | uint8 | uint16 => some "0"
  | uint32 => some "0u"
  | uint64 => some "0ULL"
  | bool | float16 | float32 | float64 => none

/-- The greatest value as a literal. -/
def maxLiteral? : ScalarType → Option Text
  | int8 => some "127"
  | int16 => some "32767"
  | int32 => some "2147483647"
  | int64 | index => some "9223372036854775807LL"
  | uint8 => some "255"
  | uint16 => some "65535"
  | uint32 => some "4294967295u"
  | uint64 => some "18446744073709551615ULL"
  | bool | float16 | float32 | float64 => none

end ScalarType

end ArrayKernel
