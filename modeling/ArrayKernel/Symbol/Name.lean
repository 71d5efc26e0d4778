import ArrayKernel.Text.Basic

/-!
# Names of symbols

A symbol is named by a stem and a number, or by a name of its own.
-/

namespace ArrayKernel

/-- The name of a symbol. -/
inductive SymbolName where
  | generated (stem : Text) (number : Nat)
  | named (name : Text)
  deriving DecidableEq, Repr

namespace SymbolName

/-- The name as it stands in source text. -/
def text : SymbolName → Text
  | generated stem number => stem ++ Text.ofNat number
  | named name => name

end SymbolName

/-- The name of the helper that accesses the elements of the symbol with a handle. -/
def accessName (handle : Text) : Text := handle ++ "_at"

end ArrayKernel
