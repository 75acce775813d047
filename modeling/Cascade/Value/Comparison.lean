import Cascade.Value.Argument

/-!
# Comparisons

A condition has the form `left operator right`, where both sides are single
words. Numbers compare by size, colors by their channels and alpha in order. A
text of any other form is no condition, which is for the caller to report.
-/

namespace Cascade

inductive Comparison where
  | greater
  | greaterOrEqual
  | less
  | lessOrEqual
  | equal
  | notEqual
deriving DecidableEq, Repr

namespace Comparison

/-- The comparison at the beginning of a text, and what follows it. -/
def read? : Text → Option (Comparison × Text)
  | '>' :: '=' :: rest => some (greaterOrEqual, rest)
  | '<' :: '=' :: rest => some (lessOrEqual, rest)
  | '=' :: '=' :: rest => some (equal, rest)
  | '!' :: '=' :: rest => some (notEqual, rest)
  | '>' :: rest => some (greater, rest)
  | '<' :: rest => some (less, rest)
  | '=' :: rest => some (equal, rest)
  | _ => none

/-- The order of two numbers, unless one of them is not a number. -/
def order? (a b : Float) : Option Ordering :=
  if a < b then some .lt else if b < a then some .gt else if a == b then some .eq else none

/-- The order of two sequences of numbers: that of the first pair that differs. -/
def lexicographic? : List Float → List Float → Option Ordering
  | [], [] => some .eq
  | [], _ :: _ => some .lt
  | _ :: _, [] => some .gt
  | a :: as, b :: bs =>
    match order? a b with
    | some .eq => lexicographic? as bs
    | other => other

/-- Without an order, only `notEqual` holds. -/
def holds (c : Comparison) (order : Option Ordering) : Bool :=
  match c, order with
  | greater, some .gt => true
  | greaterOrEqual, some .gt => true
  | greaterOrEqual, some .eq => true
  | less, some .lt => true
  | lessOrEqual, some .lt => true
  | lessOrEqual, some .eq => true
  | equal, some .eq => true
  | notEqual, order => order != some .eq
  | _, _ => false

/-- Characters of which one begins the operator of a condition. -/
def isMark (c : Char) : Bool := c == '<' || c == '>' || c == '=' || c == '!'

/-- One side of a condition: a color, a number or text. -/
def side (t : Text) : Value :=
  match Color.ofCall? t with
  | some c => .color c
  | none => .ofWord t

/-- The sides of a condition and its operator, if the text has the form of one. -/
def split? (t : Text) : Option (Text × Comparison × Text) := do
  let left := t.takeWhile (!isMark ·)
  let (comparison, rest) ← read? (t.drop left.length)
  let left := Text.trim left
  let right := Text.trim rest
  if left.isEmpty ∨ right.isEmpty ∨ left.any isBlank ∨ right.any isBlank then none
  else some (left, comparison, right)

/-- Decides a condition, and gives none if the text has not the form of one. -/
def decide (t : Text) : Except Cause (Option Bool) :=
  match split? t with
  | none => .ok none
  | some (left, comparison, right) => do
    let (left, kind) ← Argument.ofValue none (side left)
    let (right, _) ← Argument.ofValue kind (side right)
    match left, right with
    | .number a, .number b => return some (comparison.holds (order? a b))
    | .color a, .color b =>
      return some (comparison.holds (lexicographic? a.components b.components))
    | _, _ => throw (.colorAgainstNumber t)

end Comparison

end Cascade
