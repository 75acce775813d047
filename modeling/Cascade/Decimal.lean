import Cascade.Text

/-!
# Decimal numbers

How decimal text becomes a binary floating-point number and how such a number is
written.

Reading rounds to the nearest number. Writing is exact: the number is a fraction
with a power of two below, `roundDiv` rounds it to ten decimal places with a tie
going to the even neighbour, and trailing zeros are dropped.
-/

namespace Cascade.Decimal

/-! ## Reading -/

/-- The number that a run of decimal digits spells. -/
def value (digits : Text) : Nat := digits.foldl (fun n c => 10 * n + (c.toNat - '0'.toNat)) 0

def infinity : Float := 1.0 / 0.0

/-- The number nearest to `digits.fraction` times a power of ten. Far outside the
range of such numbers it is infinite, or zero. -/
def toFloat (digits fraction : Text) (exponent : Int) : Float :=
  let m := value (digits ++ fraction)
  let scale := exponent - fraction.length
  if m = 0 then 0.0
  else if 400 < scale then infinity
  else if scale + (digits.length + fraction.length : Nat) < -400 then 0.0
  else Float.ofScientific m (scale < 0) scale.natAbs

/-- An unsigned number at the beginning of a text: its digits, the digits after
its point, and the rest of the text. -/
structure Literal where
  digits : Text
  fraction : Text
  rest : Text

/-- Reads `digits`, `digits.digits` or `.digits`. A point without digits after
it is not part of the number. -/
def literal? (t : Text) : Option Literal :=
  let digits := t.takeWhile Char.isDigit
  let rest := t.dropWhile Char.isDigit
  let fraction :=
    match rest with
    | '.' :: rest => rest.takeWhile Char.isDigit
    | _ => []
  if !fraction.isEmpty then some ⟨digits, fraction, rest.drop (1 + fraction.length)⟩
  else if digits.isEmpty then none
  else some ⟨digits, [], rest⟩

/-- The number that a text begins with after blanks, and zero if there is none.
A sign may precede it and a point may end it. -/
def leading (t : Text) : Float :=
  let t := t.trimStart
  let (negative, t) :=
    match t with
    | '-' :: t => (true, t)
    | '+' :: t => (false, t)
    | t => (false, t)
  match literal? t with
  | some l => if negative then -(toFloat l.digits l.fraction 0) else toFloat l.digits l.fraction 0
  | none => 0.0

/-- Reads a whole text as a floating-point number: a sign, then digits with or
without a point and an exponent, or `inf`, `infinity` or `nan` in any case. -/
def float? (t : Text) : Option Float :=
  let (negative, t) :=
    match t with
    | '-' :: t => (true, t)
    | '+' :: t => (false, t)
    | t => (false, t)
  let signed (x : Float) : Float := if negative then -x else x
  let word := t.map Char.toLower
  if word = "inf".toList ∨ word = "infinity".toList then some (signed infinity)
  else if word = "nan".toList then some (0.0 / 0.0)
  else do
    let l ← literal? t
    -- a point may end the digits
    let rest := if l.fraction.isEmpty then
        match l.rest with
        | '.' :: rest => rest
        | rest => rest
      else l.rest
    match rest with
    | [] => some (signed (toFloat l.digits l.fraction 0))
    | e :: rest =>
      if e.toLower ≠ 'e' then none
      else
        let (down, exponent) :=
          match rest with
          | '-' :: rest => (true, rest)
          | '+' :: rest => (false, rest)
          | rest => (false, rest)
        if exponent.isEmpty ∨ ¬ exponent.all Char.isDigit then none
        else
          let n : Int := value exponent
          some (signed (toFloat l.digits l.fraction (if down then -n else n)))

/-! ## Rounding -/

/-- Rounds to a number of decimal places, a half away from zero. -/
def roundTo (x : Float) (places : Nat) : Float :=
  match places with
  | 0 => x.round
  | places =>
    let factor := Float.ofNat (Nat.pow 10 places)
    (x * factor).round / factor

/-! ## Writing -/

/-- The quotient rounded to the nearest integer, a tie to the even one. -/
def roundDiv (numerator denominator : Nat) : Nat :=
  let q := numerator / denominator
  let r := 2 * (numerator % denominator)
  if r < denominator then q
  else if denominator < r then q + 1
  else if q % 2 = 0 then q else q + 1

/-- One, in units of the tenth decimal place. -/
def one : Nat := Nat.pow 10 10

/-- A finite number without its sign as `significand * 2 ^ exponent`. -/
def decompose (x : Float) : Nat × Int :=
  let bits := x.toBits.toNat % Nat.pow 2 63
  let significand := bits % Nat.pow 2 52
  match bits / Nat.pow 2 52 with
  | 0 => (significand, -1074)
  | e + 1 => (Nat.pow 2 52 + significand, (e : Int) - 1074)

/-- The magnitude of a finite number in units of the tenth decimal place. -/
def tenthPlaces (x : Float) : Nat :=
  let (m, e) := decompose x
  if 0 ≤ e then m * Nat.pow 2 e.toNat * one else roundDiv (m * one) (Nat.pow 2 (-e).toNat)

/-- A fraction of ten decimal places without its trailing zeros. -/
def fractionText (n : Nat) : Text :=
  let digits := Nat.toDigits 10 n
  let padded := List.replicate (10 - digits.length) '0' ++ digits
  (padded.reverse.dropWhile (· == '0')).reverse

/-- A count of tenth decimal places, written with as few places as it needs. -/
def magnitudeText (n : Nat) : Text :=
  let fraction := if n % one = 0 then [] else fractionText (n % one)
  Nat.toDigits 10 (n / one) ++ (if fraction.isEmpty then [] else '.' :: fraction)

/-- A number as the output shows it: at most ten decimal places, no trailing
zeros, no sign on zero. -/
def render (x : Float) : Text :=
  if x.isNaN then "NaN"
  else if x.isInf then if x < 0.0 then "-Infinity" else "Infinity"
  else
    let n := tenthPlaces x
    if x < 0.0 ∧ n ≠ 0 then '-' :: magnitudeText n else magnitudeText n

end Cascade.Decimal
