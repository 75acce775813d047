import Cascade.Fault
import Cascade.Value
import Cascade.Value.Operator

/-!
# Operations

Arithmetic on evaluated operands. Numbers with different units, and a color with
a unit, do not mix. Percentages count as fractions and fit any unit. What is
neither a number nor a color cannot be computed with, and neither can a division
by zero; then there is no result and the expression stays as it was written.
-/

namespace Cascade

/-- An operand that can be computed with. -/
inductive Operand where
  | color (c : Color)
  | number (magnitude : Float) (unit : NumberUnit)

/-- A unit proper: a percentage fits any unit, and so does a plain number. -/
def NumberUnit.isReal : NumberUnit → Bool
  | plain | percent => false
  | known _ | other _ => true

namespace Operand

/-- A missing operand counts as zero. -/
def ofValue : Value → Except Cause (Option Operand)
  | .color c => .ok (some (color c))
  | .quantity q => .ok (some (number q.magnitude q.unit))
  | .text t =>
    if (Text.trim t).isEmpty then .ok (some (number 0.0 .plain))
    else if t.head? = some '#' then .error (.badColorOperand t)
    else .ok none

/-- A number as operations see it, where a percentage is a fraction. -/
def scaled (magnitude : Float) (unit : NumberUnit) : Float :=
  if unit = .percent then magnitude / 100.0 else magnitude

/-- The two units, or the unit and a color, that keep operands apart. -/
def conflict? : Operand → Operand → Option Cause
  | color _, color _ => none
  | color _, number _ unit => if unit.isReal then some (.mixedUnits "color" unit.text) else none
  | number _ unit, color _ => if unit.isReal then some (.mixedUnits unit.text "color") else none
  | number _ left, number _ right =>
    if left.isReal ∧ right.isReal ∧ left ≠ right then some (.mixedUnits left.text right.text)
    else none

/-- Whether an operand is zero, or a color with a channel that is. -/
def isZero : Operand → Bool
  | color c => c.channels.any (· == 0.0)
  | number magnitude unit => scaled magnitude unit == 0.0

/-- The unit of a result: a real unit if an operand has one, else a percentage if
an operand is one. -/
def resultUnit (left right : NumberUnit) : NumberUnit :=
  if left.isReal then left
  else if right.isReal then right
  else if left = .percent ∨ right = .percent then .percent
  else .plain

/-- Percentages are rounded to two places. -/
def ofNumbers (o : Operator) (a : Float) (left : NumberUnit) (b : Float) (right : NumberUnit) :
    Value :=
  let result := o.apply (scaled a left) (scaled b right)
  match resultUnit left right with
  | .percent => .number (Decimal.roundTo (result * 100.0) 2) .percent
  | unit => .number result unit

def channelwise (o : Operator) (a b : Rgb Float) : Rgb Float :=
  ⟨o.apply a.red b.red, o.apply a.green b.green, o.apply a.blue b.blue⟩

/-- A computed color, with every component within its bounds. -/
def bounded (rgb : Rgb Float) (alpha : Option Float) : Value :=
  let bound := Scalar.clamp (0.0 : Float) 255.0
  .color (.computed ⟨bound rgb.red, bound rgb.green, bound rgb.blue⟩
    (alpha.map (Scalar.clamp 0.0 1.0)))

/-- A number is combined with every component of a color. -/
def compute (o : Operator) : Operand → Operand → Value
  | number a left, number b right => ofNumbers o a left b right
  | color a, color b =>
    bounded (channelwise o a.rgb b.rgb)
      (if a.alpha.isNone && b.alpha.isNone then none
        else some (o.apply (a.alpha.getD 1.0) (b.alpha.getD 1.0)))
  | color a, number b unit =>
    let b := scaled b unit
    bounded (channelwise o a.rgb ⟨b, b, b⟩) (a.alpha.map fun alpha => o.apply alpha b)
  | number a unit, color b =>
    let a := scaled a unit
    bounded (channelwise o ⟨a, a, a⟩ b.rgb) (b.alpha.map fun alpha => o.apply a alpha)

end Operand

/-- The value of an operation, and none if it cannot be computed. -/
def Operator.operate (o : Operator) (left right : Value) : Except Cause (Option Value) := do
  match ← Operand.ofValue left with
  | none => return none
  | some l =>
    match ← Operand.ofValue right with
    | none => return none
    | some r =>
      match l.conflict? r with
      | some cause => throw cause
      | none => return if o = .dividedBy && r.isZero then none else some (Operand.compute o l r)

end Cascade
