import ArrayKernel.Text.Basic

/-!
# Index expressions

The integer expressions that address elements, as trees, and their text.  A
group is written in parentheses; the other constructors write their operands
side by side, so an expression reads back as it was meant when the operands of
products, quotients and remainders are constants, variables or groups.
-/

namespace ArrayKernel

/-- An integer expression. -/
inductive IndexExpr where
  | const (n : Nat)
  | var (name : Text)
  | group (e : IndexExpr)
  | add (a b : IndexExpr)
  | mul (a b : IndexExpr)
  | div (a b : IndexExpr)
  | mod (a b : IndexExpr)
  deriving DecidableEq, Repr

namespace IndexExpr

/-- The source text of an expression. -/
def text : IndexExpr → Text
  | const n => Text.ofNat n
  | var name => name
  | group e => "(" ++ e.text ++ ")"
  | add a b => a.text ++ " + " ++ b.text
  | mul a b => a.text ++ "*" ++ b.text
  | div a b => a.text ++ "/" ++ b.text
  | mod a b => a.text ++ "%" ++ b.text

/-- The sum of a list, zero if it is empty. -/
def sum : List IndexExpr → IndexExpr
  | [] => const 0
  | e :: es => es.foldl add e

/-- The expression as an operand: in parentheses unless it is a constant, a variable
or a group already. -/
def grouped : IndexExpr → IndexExpr
  | const n => const n
  | var name => var name
  | group e => group e
  | e => group e

/-- The parameter that stands for the index along an axis. -/
def axisName (axis : Nat) : Text := 'i' :: Text.ofNat axis

/-- The parameters for the axes of an array. -/
def axisNames (rank : Nat) : List Text := (List.range rank).map axisName

/-- The index along an axis of the loop domain. -/
def domainIndex (axis : Nat) : IndexExpr := var ('$' :: Text.ofNat axis)

end IndexExpr

/-- A reference to an element of an array. -/
inductive ElementRef where
  /-- The element at an offset from a pointer. -/
  | stored (pointer : Text) (offset : IndexExpr)
  /-- The element that a helper finds for an index along each axis. -/
  | through (helper : Text) (indices : List IndexExpr)
  deriving DecidableEq, Repr

namespace ElementRef

/-- The source text of a reference. -/
def text : ElementRef → Text
  | stored pointer offset => pointer ++ "[" ++ offset.text ++ "]"
  | through helper indices =>
    helper ++ "(" ++ Text.join ", " (indices.map IndexExpr.text) ++ ")"

end ElementRef

end ArrayKernel
