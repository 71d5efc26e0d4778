import ArrayKernel.Device
import ArrayKernel.Operator

/-!
# Forms of operators

How an operator is written around the text of its operands.  The form depends
on the type of the operands and on the dialect.
-/

namespace ArrayKernel

/-- How an operator is written. -/
inductive Form where
  /-- Between its operands. -/
  | between (symbol : Text)
  /-- As a function. -/
  | call (function : Text)
  /-- In front of its operand. -/
  | leading (symbol : Text)
  /-- As a conversion to a type. -/
  | cast (type : Text)
  /-- As a choice between its operands by a comparison. -/
  | select (comparison : Text)
  deriving DecidableEq, Repr

namespace Form

/-- The form of a binary operator on operands of a type. -/
def ofBinary (op : BinaryOp) (t : ScalarType) (d : Dialect) : Form :=
  match op with
  | .add => .between "+"
  | .sub => .between "-"
  | .mul => .between "*"
  | .div => .between "/"
  | .mod => if t.isFloat then .call (d.mathName "fmod" t) else .between "%"
  | .max =>
    if t.isFloat then .call (d.mathName "fmax" t)
    else if d = .c then .select ">" else .call "max"
  | .min =>
    if t.isFloat then .call (d.mathName "fmin" t)
    else if d = .c then .select "<" else .call "min"
  | .pow => .call (d.mathName "pow" t)
  | .lt => .between "<"
  | .le => .between "<="
  | .gt => .between ">"
  | .ge => .between ">="
  | .eq => .between "=="
  | .ne => .between "!="
  | .and => .between (if t.isBool then "&&" else "&")
  | .or => .between (if t.isBool then "||" else "|")
  | .xor => .between "^"
  | .shl => .between "<<"
  | .shr => .between ">>"
  | .assign => .between "="

/-- The form of a unary operator on an operand of a type. -/
def ofUnary (op : UnaryOp) (operand result : ScalarType) (d : Dialect) : Form :=
  match op with
  | .neg => .leading "-"
  | .not => .leading "!"
  | .abs =>
    if operand.isFloat then .call (d.mathName "fabs" operand)
    else if d = .c ∧ operand.bytes = 8 then .call "llabs" else .call "abs"
  | .sqrt => .call (d.mathName "sqrt" operand)
  | .exp => .call (d.mathName "exp" operand)
  | .log => .call (d.mathName "log" operand)
  | .sin => .call (d.mathName "sin" operand)
  | .cos => .call (d.mathName "cos" operand)
  | .tanh => .call (d.mathName "tanh" operand)
  | .floor => .call (d.mathName "floor" operand)
  | .ceil => .call (d.mathName "ceil" operand)
  | .cast => .cast result.spelling

/-- The operator alone. -/
def spelling : Form → Text
  | between symbol | leading symbol | select symbol => symbol
  | call function => function
  | cast type => "(" ++ type ++ ")"

/-- Whether the text needs parentheses inside another expression. -/
def needsGrouping : Form → Bool
  | between _ => true
  | _ => false

/-- The text of an operation on two operands. -/
def binaryText (lhs rhs : Text) : Form → Text
  | between symbol => lhs ++ " " ++ symbol ++ " " ++ rhs
  | call function => function ++ "(" ++ lhs ++ ", " ++ rhs ++ ")"
  | select comparison =>
    "((" ++ lhs ++ ") " ++ comparison ++ " (" ++ rhs ++ ") ? (" ++ lhs ++ ") : (" ++ rhs ++ "))"
  | leading symbol => symbol ++ "(" ++ lhs ++ ", " ++ rhs ++ ")"
  | cast type => "(" ++ type ++ ")(" ++ lhs ++ ")"

/-- The text of an operation on one operand. -/
def unaryText (operand : Text) : Form → Text
  | call function => function ++ "(" ++ operand ++ ")"
  | between symbol | leading symbol | select symbol => symbol ++ "(" ++ operand ++ ")"
  | cast type => "(" ++ type ++ ")(" ++ operand ++ ")"

end Form

end ArrayKernel
