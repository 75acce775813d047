import Cascade.Value.Color
import Cascade.Value.Unit

/-!
# Values

What a term of a property value evaluates to. Whatever is neither a number nor a
color is text: keywords, strings, calls of functions the language does not
know, and whole lists of terms. The empty text stands for a missing operand.
-/

namespace Cascade

/-- A number with its unit. -/
structure Quantity where
  magnitude : Float
  unit : NumberUnit
  /-- The spelling of a number that has not been computed. -/
  written : Option Text

namespace Quantity

/-- Reads a whole word: a number, which may begin with `-`, and its unit. -/
def read? (word : Text) : Option Quantity := do
  let (negative, unsigned) :=
    match word with
    | '-' :: rest => (true, rest)
    | rest => (false, rest)
  let l ← Decimal.literal? unsigned
  let unit ← NumberUnit.read? l.rest
  let x := Decimal.toFloat l.digits l.fraction 0
  some ⟨if negative then -x else x, unit, some word⟩

def text (q : Quantity) : Text := q.written.getD (Decimal.render q.magnitude ++ q.unit.text)

end Quantity

inductive Value where
  | quantity (q : Quantity)
  | color (c : Color)
  | text (t : Text)

namespace Value

def number (magnitude : Float) (unit : NumberUnit) : Value := quantity ⟨magnitude, unit, none⟩

/-- A single word of the source. A word that begins with `#` is a color or text. -/
def ofWord (word : Text) : Value :=
  match word with
  | '#' :: _ =>
    match Color.ofHex? word with
    | some c => color c
    | none => text word
  | _ =>
    match Quantity.read? word with
    | some q => quantity q
    | none => text word

/-- A value as it is written out. -/
def css : Value → Text
  | quantity q => q.text
  | color c => c.text
  | text t => t

end Value

end Cascade
