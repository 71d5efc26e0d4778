import ArrayKernel.Device
import ArrayKernel.Helper.Set
import ArrayKernel.Symbol.Error
import ArrayKernel.Symbol.Form
import ArrayKernel.Symbol.Name
import ArrayKernel.Symbol.Storage

/-!
# Symbols

A symbol is what a node of an expression tree becomes in a kernel: a name, a
type, the helpers that its text calls, and the particulars of its kind.  The
attributes of a symbol, which templates refer to, follow from these.
-/

namespace ArrayKernel

/-- The node that a symbol comes from, with the positions of its operands. -/
structure Links where
  position : Nat
  op : Operation
  shape : Shape
  lhs : Option Nat
  rhs : Option Nat
  deriving DecidableEq, Repr

/-- How the elements of a buffer are addressed. -/
inductive AccessPath where
  /-- The last axis has no stride. -/
  | contiguous
  /-- Every axis has a stride. -/
  | strided
  deriving DecidableEq, Repr

/-- The kinds of symbol. -/
inductive Kind where
  /-- An array in memory, whether it is written, and how it is addressed once it is. -/
  | buffer (layout : Layout) (written : Bool) (access : Option AccessPath)
  | hostScalar
  | placeholder (level : Nat)
  | binary (links : Links) (form : Form)
  | unary (links : Links) (form : Form)
  /-- A reduction over one or two axes. -/
  | reduction (links : Links) (op : ReduceOp) (scopes : Nat)
  | view (links : Links) (view : View) (shape : Shape) (storage : Storage)
  | loop (links : Links) (bounds : LoopBounds) (induction : Text)
  deriving DecidableEq, Repr

/-- What a node becomes in a kernel. -/
structure Symbol where
  name : SymbolName
  dtype : ScalarType
  device : Device
  helpers : HelperSet
  /-- The naming scopes, outermost first. -/
  scopes : List Text
  kind : Kind
  deriving DecidableEq, Repr

namespace AccessPath

def name : AccessPath → Text
  | contiguous => "contiguous"
  | strided => "strided"

end AccessPath

namespace Kind

def name : Kind → Text
  | buffer .. => "buffer"
  | hostScalar => "host_scalar"
  | placeholder _ => "placeholder"
  | binary .. => "binary_arithmetic"
  | unary .. => "unary_arithmetic"
  | reduction _ _ scopes => if scopes = 1 then "reduce_1d" else "reduce_2d"
  | view _ v _ _ => v.name
  | loop .. => "sfor"

/-- The node behind a symbol that is no leaf. -/
def links? : Kind → Option Links
  | buffer .. | hostScalar | placeholder _ => none
  | binary links _ | unary links _ | reduction links _ _ | view links _ _ _ | loop links _ _ =>
    some links

/-- The node behind a symbol whose text is composed of the texts of its operands. -/
def composed? : Kind → Option Links
  | binary links _ | unary links _ | reduction links _ _ | loop links _ _ => some links
  | _ => none

/-- The shape of an array. -/
def shape? : Kind → Option Shape
  | buffer layout _ _ => some layout.shape
  | view _ _ shape _ => some shape
  | _ => none

/-- The shape and storage of an array, for the handle of its symbol. -/
def array? (handle : Text) : Kind → Option (Shape × Storage)
  | buffer layout _ _ => some (layout.shape, layout.storage handle)
  | view _ _ shape storage => some (shape, storage)
  | _ => none

end Kind

namespace ReduceOp

/-- The value that a reduction starts from. -/
def identity (op : ReduceOp) (t : ScalarType) (d : Dialect) : Text :=
  match op with
  | .add => if t.isFloat then floatLiteral "0.0" else "0"
  | .mul => if t.isFloat then floatLiteral "1.0" else "1"
  | .max => if t.isFloat then "-" ++ d.infinity t else t.minLiteral?.getD "0"
  | .min => if t.isFloat then d.infinity t else t.maxLiteral?.getD "1"
where
  floatLiteral (value : Text) : Text := if t = .float64 then value else value ++ "f"

/-- The text that combines the accumulator `a` with an element `b`. -/
def combination (op : ReduceOp) (t : ScalarType) (d : Dialect) : Text :=
  match op with
  | .add => "((a) + (b))"
  | .mul => "((a) * (b))"
  | .max =>
    if t.isFloat then d.mathName "fmax" t ++ "((a), (b))" else "((a) >= (b) ? (a) : (b))"
  | .min =>
    if t.isFloat then d.mathName "fmin" t ++ "((a), (b))" else "((a) <= (b) ? (a) : (b))"

/-- The name of the helper that combines two values. -/
def helperName (op : ReduceOp) (t : ScalarType) : Text :=
  "reduce_" ++ op.name ++ "_" ++ t.suffix

/-- The helper that combines two values. -/
def helper (op : ReduceOp) (t : ScalarType) (d : Dialect) : Helper where
  name := op.helperName t
  params := ["a", "b"]
  body := op.combination t d

end ReduceOp

namespace Symbol

/-- The name as it stands in source text. -/
def handle (s : Symbol) : Text := s.name.text

/-- A symbol without helpers and scopes. -/
def plain (device : Device) (dtype : ScalarType) (name : SymbolName) (kind : Kind) : Symbol :=
  ⟨name, dtype, device, .empty, [], kind⟩

def links? (s : Symbol) : Option Links := s.kind.links?

def isLeaf (s : Symbol) : Bool := s.links?.isNone

def shape? (s : Symbol) : Option Shape := s.kind.shape?

/-- Whether the symbol has elements. -/
def isArray (s : Symbol) : Bool := s.shape?.isSome

/-- The shape and storage of an array. -/
def array? (s : Symbol) : Option (Shape × Storage) := s.kind.array? s.handle

/-- The name of the helper that accesses the elements. -/
def accessName (s : Symbol) : Text := ArrayKernel.accessName s.handle

/-- A handle with naming scopes and a suffix. -/
def qualified (handle : Text) (scopes : List Text) (suffix : Text) : Text :=
  Text.join "_" (handle :: (scopes ++ [suffix]))

/-- The name with the outermost scopes, up to a depth, and a suffix. -/
def qualifyAt (s : Symbol) (depth : Nat) (suffix : Text) : Text :=
  qualified s.handle (s.scopes.take depth) suffix

/-- The name with all scopes and a suffix. -/
def qualify (s : Symbol) (suffix : Text) : Text := s.qualifyAt s.scopes.length suffix

/-- Opens a naming scope. -/
def addScope (s : Symbol) (token : Text) : Symbol := { s with scopes := s.scopes ++ [token] }

/-- The naming scope of an axis of a reduction. -/
def reductionScope (k : Nat) : Text := 'r' :: Text.ofNat k

/-- The accumulator of the first axes of a reduction, up to a depth. -/
def accumulator (handle : Text) (depth : Nat) : Text :=
  qualified handle ((List.range depth).map reductionScope) "acc"

/-- The access path as an attribute, once there is one. -/
def accessAttribute (access : Option AccessPath) : Attributes :=
  (access.map fun path => ("access".toList, path.name)).toList

/-- The attributes that belong to the kind of a symbol. -/
def kindAttributes (s : Symbol) : Attributes :=
  match s.kind with
  | .buffer layout _ access =>
    ("dim", Text.ofNat layout.rank) ::
      (accessAttribute access ++
        (layout.storage s.handle).attributes)
  | .hostScalar => []
  | .placeholder level => [("level", Text.ofNat level)]
  | .binary _ form | .unary _ form => [("op", form.spelling)]
  | .reduction _ op scopes =>
    ("acc", accumulator s.handle 1) :: ("init", op.identity s.dtype s.device.dialect) ::
      ("combine", op.helperName s.dtype) ::
        if scopes = 2 then [("acc_inner", accumulator s.handle 2)] else []
  | .view _ _ _ storage => storage.attributes
  | .loop _ bounds induction =>
    [("induction", induction), ("init", Text.ofInt bounds.start),
      ("end", Text.ofInt bounds.stop), ("inc", Text.ofInt bounds.step)]

/-- The name of the memory that a symbol stands for, else its own. -/
def storageName (s : Symbol) : Text :=
  match s.array? with
  | some (_, storage) => storage.name
  | none => s.handle

/-- The attributes of a symbol. -/
def attributes (s : Symbol) : Attributes :=
  ("handle", s.handle) :: ("name", s.storageName) :: ("scalartype", s.dtype.spelling) ::
    s.kindAttributes

/-- The value of an attribute. -/
def attr (s : Symbol) (name : Text) : Except SymbolError Text :=
  match s.attributes.get? name with
  | some value => .ok value
  | none => .error (.missingAttribute s.handle name)

def hasAttr (s : Symbol) (name : Text) : Bool := (s.attributes.get? name).isSome

/-- A template with the attributes of the symbol filled in. -/
def process (s : Symbol) (template : Text) : Text := s.attributes.substitute template

end Symbol

end ArrayKernel
