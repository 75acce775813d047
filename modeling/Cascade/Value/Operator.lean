import Cascade.Text

/-!
# Operators

The four operations of arithmetic. An operator stands between white space, so
that names with hyphens and shorthand such as `12px/1.5` stay words.
-/

namespace Cascade

inductive Operator where
  | times
  | dividedBy
  | plus
  | minus
deriving DecidableEq, Repr

namespace Operator

def char : Operator → Char
  | times => '*'
  | dividedBy => '/'
  | plus => '+'
  | minus => '-'

def ofChar? (c : Char) : Option Operator :=
  if c = '*' then some times
  else if c = '/' then some dividedBy
  else if c = '+' then some plus
  else if c = '-' then some minus
  else none

@[simp] theorem ofChar?_char (o : Operator) : ofChar? o.char = some o := by cases o <;> decide

/-- Whether the operator binds tighter than `+` and `-`. -/
def isTight : Operator → Bool
  | times | dividedBy => true
  | plus | minus => false

def apply (o : Operator) (a b : Float) : Float :=
  match o with
  | times => a * b
  | dividedBy => a / b
  | plus => a + b
  | minus => a - b

end Operator

end Cascade
