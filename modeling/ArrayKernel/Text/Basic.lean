/-!
# Source text

Kernel source is handled as a list of characters, so that every scanner of the
library is a recursion on its input.  String literals stand for their
characters.
-/

namespace ArrayKernel

/-- Source text, one character after the other. -/
abbrev Text := List Char

/-- A string literal stands for its characters. -/
scoped instance : Coe String Text := ⟨String.toList⟩

namespace Text

/-- The decimal digits of a natural number. -/
def ofNat (n : Nat) : Text := Nat.toDigits 10 n

/-- The decimal digits of an integer, with a sign if it is negative. -/
def ofInt : Int → Text
  | .ofNat n => ofNat n
  | .negSucc n => '-' :: ofNat (n + 1)

/-- The texts in order, with a separator between neighbours. -/
def join (separator : Text) : List Text → Text
  | [] => []
  | [t] => t
  | t :: u :: ts => t ++ separator ++ join separator (u :: ts)

/-- A list of numbers in square brackets. -/
def ofNats (ns : List Nat) : Text := "[" ++ join ", " (ns.map ofNat) ++ "]"

@[simp] theorem join_nil (separator : Text) : join separator [] = [] := rfl

@[simp] theorem join_singleton (separator t : Text) : join separator [t] = t := rfl

@[simp] theorem join_cons_cons (separator t u : Text) (ts : List Text) :
    join separator (t :: u :: ts) = t ++ separator ++ join separator (u :: ts) := rfl

end Text

end ArrayKernel
