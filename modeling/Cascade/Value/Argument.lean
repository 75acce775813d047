import Cascade.Fault
import Cascade.Value

/-!
# Arguments

How functions and comparisons see a value: as a number or as a color. The
arguments of a call share one unit, which plain numbers fit; here a percentage
is a unit like any other, and so is being a color. Text counts as the number it
begins with.
-/

namespace Cascade

/-- What the arguments of a call have in common. -/
inductive Kind where
  | color
  | unit (u : NumberUnit)
deriving DecidableEq, Repr

def Kind.description : Kind → Text
  | color => "color"
  | unit u => u.text

inductive Argument where
  | number (x : Float)
  | color (c : Color)

namespace Argument

/-- Brings a kind together with the one expected so far. -/
def agree (expected : Option Kind) (found : Kind) : Except Cause Kind :=
  match expected with
  | none => .ok found
  | some kind =>
    if kind = found then .ok kind
    else .error (.mixedArgumentUnits kind.description found.description)

/-- Reads a value as an argument, along with what is expected from then on. -/
def ofValue (expected : Option Kind) : Value → Except Cause (Argument × Option Kind)
  | .color c => (agree expected .color).map fun kind => (color c, some kind)
  | .quantity q =>
    if q.unit = .plain then .ok (number q.magnitude, expected)
    else (agree expected (.unit q.unit)).map fun kind => (number q.magnitude, some kind)
  | .text t =>
    if t.head? = some '#' then .error (.badColorArgument t)
    else .ok (number (Decimal.leading t), expected)

/-- The unit of a result. -/
def unitOf : Option Kind → NumberUnit
  | some (.unit u) => u
  | _ => .plain

end Argument

end Cascade
