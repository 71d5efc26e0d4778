import ArrayKernel.Table.Basic

/-!
# Kernel arguments

The parameters of the generated kernel, in the order of positions: for a buffer
its pointer, the offset of its first element and its strides, for a host scalar
the scalar.  A name is listed once.

The names are attributes of the symbols.  `collectArguments` looks them up, and
`kernelArguments` writes them down; `ArrayKernel.Proofs.Attributes` has both equal.
-/

namespace ArrayKernel

/-- What a kernel argument stands for. -/
inductive ArgumentRole where
  /-- The memory of a buffer, and whether the kernel writes to it. -/
  | pointer (output : Bool)
  | scalar
  /-- An offset or a stride with its value. -/
  | layout (value : Nat)
  deriving DecidableEq, Repr

/-- An argument of the generated kernel. -/
structure KernelArgument where
  index : Nat
  name : Text
  /-- The type of the elements behind a pointer, else of the value. -/
  dtype : ScalarType
  role : ArgumentRole
  deriving DecidableEq, Repr

namespace KernelArgument

/-- The declaration of the argument in the parameter list. -/
def declaration (a : KernelArgument) : Text :=
  match a.role with
  | .pointer true => a.dtype.spelling ++ "* " ++ a.name
  | .pointer false => "const " ++ a.dtype.spelling ++ "* " ++ a.name
  | .scalar | .layout _ => a.dtype.spelling ++ " " ++ a.name

/-- The argument that names an offset or a stride. -/
def ofLayout (index : Nat) (name : Text) (value : Nat) : KernelArgument :=
  ⟨index, name, .index, .layout value⟩

end KernelArgument

namespace Symbol

/-- The argument for the stride of an axis, under the name that an attribute gives. -/
def strideArgument (s : Symbol) (stride axis : Nat) : Except SymbolError KernelArgument := do
  let name ← s.attr ("stride" ++ Text.ofNat axis)
  return .ofLayout 0 name stride

/-- The arguments that a symbol asks for, not yet numbered, under the names that its
attributes give. -/
def collectArguments (s : Symbol) : Except SymbolError (List KernelArgument) :=
  match s.kind with
  | .buffer layout written _ => do
    let pointer ← s.attr "pointer"
    let start ← s.attr "start"
    let strides ← layout.strides.zipIdx.mapM fun entry => s.strideArgument entry.1 entry.2
    return ⟨0, pointer, s.dtype, .pointer written⟩ :: .ofLayout 0 start layout.start :: strides
  | .hostScalar => do
    let name ← s.attr "name"
    return [⟨0, name, s.dtype, .scalar⟩]
  | _ => .ok []

/-- The arguments that a symbol asks for, not yet numbered. -/
def arguments (s : Symbol) : List KernelArgument :=
  match s.kind with
  | .buffer layout written _ =>
    ⟨0, s.handle, s.dtype, .pointer written⟩ ::
      .ofLayout 0 (Layout.startName s.handle) layout.start ::
        List.zipWith (.ofLayout 0) (layout.strideNames s.handle) layout.strides
  | .hostScalar => [⟨0, s.handle, s.dtype, .scalar⟩]
  | _ => []

end Symbol

namespace Table

/-- The first argument of each name, numbered in order. -/
def numberArguments (index : Nat) (seen : List Text) : List KernelArgument → List KernelArgument
  | [] => []
  | a :: as =>
    if a.name ∈ seen then numberArguments index seen as
    else { a with index } :: numberArguments (index + 1) (a.name :: seen) as

/-- The arguments of the kernel, under the names that the attributes give. -/
def collectArguments (t : Table) : Except SymbolError (List KernelArgument) := do
  let arguments ← t.entries.mapM fun e => e.2.collectArguments
  return numberArguments 0 [] arguments.flatten

/-- The arguments of the kernel. -/
def kernelArguments (t : Table) : List KernelArgument :=
  numberArguments 0 [] (t.entries.flatMap fun e => e.2.arguments)

end Table

end ArrayKernel
