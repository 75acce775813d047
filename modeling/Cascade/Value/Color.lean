import Cascade.Decimal
import Cascade.Value.Color.Hsv

/-!
# Colors

Three channels and, for some, an alpha channel. A color that was written in the
source is shown exactly as written; a computed one is shown as six lower-case
hexadecimal digits, or as `rgba(...)` if it has an alpha channel. Channels are
cut off, not rounded, where a computed color is shown.
-/

namespace Cascade

structure Color where
  rgb : Rgb Float
  alpha : Option Float
  /-- The spelling of a color that has not been computed. -/
  written : Option Text

namespace Color

def computed (rgb : Rgb Float) (alpha : Option Float) : Color := ⟨rgb, alpha, none⟩

/-! ## Reading -/

def hexDigit? (c : Char) : Option Nat :=
  if c.isDigit then some (c.toNat - '0'.toNat)
  else if 'a' ≤ c ∧ c ≤ 'f' then some (c.toNat - 'a'.toNat + 10)
  else if 'A' ≤ c ∧ c ≤ 'F' then some (c.toNat - 'A'.toNat + 10)
  else none

/-- Reads `#rgb` or `#rrggbb`. -/
def ofHex? (t : Text) : Option Color :=
  match t with
  | '#' :: digits => do
    match ← digits.mapM hexDigit? with
    | [r, g, b] => some ⟨⟨(17 * r).toFloat, (17 * g).toFloat, (17 * b).toFloat⟩, none, some t⟩
    | [r₁, r₀, g₁, g₀, b₁, b₀] =>
      some ⟨⟨(16 * r₁ + r₀).toFloat, (16 * g₁ + g₀).toFloat, (16 * b₁ + b₀).toFloat⟩, none, some t⟩
    | _ => none
  | _ => none

/-- A channel is a run of digits. -/
def channel? (t : Text) : Option Float :=
  if t.isEmpty ∨ ¬ t.all Char.isDigit then none else some (Decimal.toFloat t [] 0)

/-- The parts between an opening text and a final `)`, cut at commas. -/
def callParts? (opening t : Text) : Option (List Text) := do
  let inside ← Text.before? ")" (← Text.after? opening t)
  some ((inside.splitOnP (· == ',')).map Text.trim)

/-- Reads `rgb(r, g, b)` or `rgba(r, g, b, a)`. -/
def ofCall? (t : Text) : Option Color :=
  match callParts? "rgba(" t, callParts? "rgb(" t with
  | some [r, g, b, a], _ => do
    let alpha ← Decimal.float? a
    some ⟨⟨← channel? r, ← channel? g, ← channel? b⟩, some alpha, some t⟩
  | _, some [r, g, b] => do some ⟨⟨← channel? r, ← channel? g, ← channel? b⟩, none, some t⟩
  | _, _ => none

/-! ## Writing -/

/-- A channel as it is shown, from 0 to 255. -/
def shown (channel : Float) : Nat := (Scalar.clamp 0.0 255.0 channel).toUInt8.toNat

/-- Two lower-case hexadecimal digits. -/
def hexPair (n : Nat) : Text := [Nat.digitChar (n / 16), Nat.digitChar (n % 16)]

def text (c : Color) : Text :=
  match c.written, c.alpha with
  | some t, _ => t
  | none, none =>
    '#' :: hexPair (shown c.rgb.red) ++ hexPair (shown c.rgb.green) ++
      hexPair (shown c.rgb.blue)
  | none, some alpha =>
    "rgba(" ++ (shown c.rgb.red).repr ++ ", " ++ (shown c.rgb.green).repr ++ ", " ++
      (shown c.rgb.blue).repr ++ ", " ++ Decimal.render (Scalar.clamp 0.0 1.0 alpha) ++ ")"

/-! ## Computing -/

def channels (c : Color) : List Float := [c.rgb.red, c.rgb.green, c.rgb.blue]

/-- The channels and alpha, which is 1 where there is none. -/
def components (c : Color) : List Float := c.channels ++ [c.alpha.getD 1.0]

/-- Lightens by a number of percentage points, or darkens if it is negative. -/
def adjustValue (c : Color) (amount : Float) : Color :=
  computed (c.rgb.adjustValue amount) c.alpha

def greyscale (c : Color) : Color :=
  let grey := c.rgb.red * 0.3 + c.rgb.green * 0.59 + c.rgb.blue * 0.11
  computed ⟨grey, grey, grey⟩ c.alpha

end Color

end Cascade
