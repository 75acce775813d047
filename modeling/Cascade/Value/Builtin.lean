import Cascade.Value.Comparison

/-!
# Functions

The functions that are evaluated. A call of any other name is written out as it
is. Names are told by their exact spelling.
-/

namespace Cascade

inductive Builtin where
  | choose
  | min
  | max
  | avg
  | ceil
  | floor
  | round
  | lighten
  | darken
  | greyscale
deriving DecidableEq, Repr

namespace Builtin

def name : Builtin → Text
  | choose => "if"
  | min => "min"
  | max => "max"
  | avg => "avg"
  | ceil => "ceil"
  | floor => "floor"
  | round => "round"
  | lighten => "lighten"
  | darken => "darken"
  | greyscale => "greyscale"

def all : List Builtin := [choose, min, max, avg, ceil, floor, round, lighten, darken, greyscale]

theorem mem_all (b : Builtin) : b ∈ all := by cases b <;> decide

def ofName? (name : Text) : Option Builtin := all.find? (·.name == name)

theorem name_of_ofName? {t : Text} {b : Builtin} (h : ofName? t = some b) : b.name = t := by
  simpa using List.find?_some h

/-! ## Arguments -/

/-- A call as it is written when it is not evaluated. -/
def written (b : Builtin) (arguments : List Value) : Value :=
  .text (b.name ++ '(' :: Text.join ", " (arguments.map Value.css) ++ [')'])

/-- All arguments as numbers of one unit. -/
def numbers (b : Builtin) :
    (kind : Option Kind) → List Value → Except Cause (List Float × NumberUnit)
  | kind, [] => .ok ([], Argument.unitOf kind)
  | kind, value :: rest => do
    match ← Argument.ofValue kind value with
    | (.color _, _) => throw (.numbersExpected b.name value.css)
    | (.number x, kind) =>
      let (xs, unit) ← numbers b kind rest
      return (x :: xs, unit)

/-- The numbers of a call that needs one at least. -/
def someNumbers (b : Builtin) (arguments : List Value) : Except Cause (List Float × NumberUnit) :=
  if arguments.isEmpty then .error (.noArguments b.name) else numbers b none arguments

/-- The first argument as a number. -/
def firstNumber (b : Builtin) : List Value → Except Cause (Float × NumberUnit)
  | [] => .error (.absentArgument b.name "number")
  | value :: _ => do
    match ← Argument.ofValue none value with
    | (.number x, kind) => return (x, Argument.unitOf kind)
    | (.color c, _) => throw (.numberExpected b.name c.text)

/-- The first argument as a color. -/
def firstColor (b : Builtin) : List Value → Except Cause Color
  | [] => .error (.absentArgument b.name "color")
  | value :: _ => do
    match ← Argument.ofValue (some .color) value with
    | (.color c, _) => return c
    | (.number _, _) => throw (.colorExpected b.name value.css)

/-- The second argument as a number of percentage points. -/
def secondAmount (b : Builtin) : List Value → Except Cause Float
  | _ :: value :: _ => do
    match ← Argument.ofValue (some (.unit .percent)) value with
    | (.number x, _) => return x
    | (.color _, _) => throw (.percentageExpected b.name value.css)
  | _ => .error (.absentArgument b.name "amount")

/-- The number of decimal places that `round` keeps, at most fifteen: a number
has no more digits to round. -/
def places (arguments : List Value) : Nat :=
  match arguments with
  | _ :: value :: _ => (Scalar.clamp 0.0 15.0 (Decimal.leading value.css)).toUInt8.toNat
  | _ => 0

/-! ## Calls -/

/-- `if(condition, then, else)`; a call that cannot be decided stays as it is. -/
def evalChoose (arguments : List Value) : Except Cause Value :=
  match arguments with
  | condition :: yes :: rest => do
    match ← Comparison.decide condition.css with
    | some true => return yes
    | some false => return rest.head?.getD (.text [])
    | none => return choose.written arguments
  | _ => .ok (choose.written arguments)

def eval (b : Builtin) (arguments : List Value) : Except Cause Value :=
  match b with
  | choose => evalChoose arguments
  | min => do
    let (xs, unit) ← b.someNumbers arguments
    return .number (xs.foldl Float.lesser Decimal.infinity) unit
  | max => do
    let (xs, unit) ← b.someNumbers arguments
    return .number (xs.foldl Float.greater (-Decimal.infinity)) unit
  | avg => do
    let (xs, unit) ← b.someNumbers arguments
    return .number (xs.foldl (· + ·) 0.0 / xs.length.toFloat) unit
  | ceil => do
    let (x, unit) ← b.firstNumber arguments
    return .number x.ceil unit
  | floor => do
    let (x, unit) ← b.firstNumber arguments
    return .number x.floor unit
  | round => do
    let (x, unit) ← b.firstNumber arguments
    return .number (Decimal.roundTo x (places arguments)) unit
  | lighten => do
    let c ← b.firstColor arguments
    return .color (c.adjustValue (← b.secondAmount arguments))
  | darken => do
    let c ← b.firstColor arguments
    return .color (c.adjustValue (-(← b.secondAmount arguments)))
  | greyscale => do
    let c ← b.firstColor arguments
    return .color c.greyscale

end Builtin

end Cascade
