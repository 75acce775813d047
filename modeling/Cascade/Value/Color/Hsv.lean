/-!
# Hue, saturation and value

Lightening and darkening move a color along its value and keep its hue and
saturation. The conversion is stated for any `Scalar`, so that it runs on
floating-point numbers and its laws can be proved for exact ones.
-/

namespace Cascade

/-- Numbers that the conversion can be done with. -/
class Scalar (α : Type) extends Add α, Sub α, Mul α, Div α where
  ofNat : Nat → α
  less : α → α → Bool
  same : α → α → Bool
  /-- The greater of two numbers. -/
  greater : α → α → α
  /-- The lesser of two numbers. -/
  lesser : α → α → α
  /-- The greatest integer that is not above the number. -/
  floor : α → Int

/-- The greater of two numbers, where a number counts more than none. -/
def Float.greater (a b : Float) : Float :=
  if a.isNaN then b else if b.isNaN then a else if a < b then b else a

/-- The lesser of two numbers, where a number counts more than none. -/
def Float.lesser (a b : Float) : Float :=
  if a.isNaN then b else if b.isNaN then a else if b < a then b else a

instance : Scalar Float where
  ofNat n := Float.ofNat n
  less a b := a < b
  same a b := a == b
  greater := Float.greater
  lesser := Float.lesser
  floor x := x.floor.toInt64.toInt

/-- Channels from 0 to 255. -/
structure Rgb (α : Type) where
  red : α
  green : α
  blue : α

/-- Hue in degrees, saturation and value in percent. -/
structure Hsv (α : Type) where
  hue : α
  saturation : α
  value : α

namespace Scalar

variable {α : Type} [Scalar α]

/-- The closest number within bounds. -/
def clamp (low high x : α) : α := if less x low then low else if less high x then high else x

/-- The same angle in degrees from 0 up to 360, for one above -360. -/
def turn (x : α) : α :=
  let full : α := ofNat 360
  let y := if less x (ofNat 0) then x + full else x
  if less y full then y else y - full * ofNat (floor (y / full)).toNat

end Scalar

open Scalar

variable {α : Type} [Scalar α]

def Rgb.toHsv (c : Rgb α) : Hsv α :=
  let red := c.red / ofNat 255
  let green := c.green / ofNat 255
  let blue := c.blue / ofNat 255
  let max := greater (greater red green) blue
  let min := lesser (lesser red green) blue
  let chroma := max - min
  if same chroma (ofNat 0) then ⟨ofNat 0, ofNat 0, max * ofNat 100⟩
  else
    -- in sixths of the circle, from red over green to blue
    let sector :=
      if same max red then (green - blue) / chroma
      else if same max green then (blue - red) / chroma + ofNat 2
      else (red - green) / chroma + ofNat 4
    ⟨turn (sector * ofNat 60), chroma / max * ofNat 100, max * ofNat 100⟩

def Hsv.toRgb (c : Hsv α) : Rgb α :=
  if same c.value (ofNat 0) then ⟨ofNat 0, ofNat 0, ofNat 0⟩
  else
    let value := c.value / ofNat 100
    let high := value * ofNat 255
    if same c.saturation (ofNat 0) then ⟨high, high, high⟩
    else
      let saturation := c.saturation / ofNat 100
      let hue := turn c.hue / ofNat 60
      let sector := floor hue
      let passed := hue - ofNat sector.toNat
      -- the middle channel rises in even sectors and falls in odd ones
      let fraction := if sector % 2 = 0 then ofNat 1 - passed else passed
      let low := value * (ofNat 1 - saturation) * ofNat 255
      let middle := value * (ofNat 1 - saturation * fraction) * ofNat 255
      match sector with
      | 1 => ⟨middle, high, low⟩
      | 2 => ⟨low, high, middle⟩
      | 3 => ⟨low, middle, high⟩
      | 4 => ⟨middle, low, high⟩
      | 5 => ⟨high, low, middle⟩
      | _ => ⟨high, middle, low⟩

/-- Moves the value by a number of percentage points, within its bounds. -/
def Rgb.adjustValue (c : Rgb α) (amount : α) : Rgb α :=
  let hsv := c.toHsv
  { hsv with value := clamp (ofNat 0) (ofNat 100) (hsv.value + amount) : Hsv α }.toRgb

end Cascade
