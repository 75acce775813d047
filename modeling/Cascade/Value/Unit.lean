import Cascade.Text

/-!
# Units

The suffix of a number. Known units are told in any case and written in one
spelling; any other run of letters is a unit of its own and keeps its spelling.
-/

namespace Cascade

/-- The units the language knows by name. -/
inductive KnownUnit where
  | px | mm | inch | cm | quarter | pt | pc
  | em | rem | ex | ch
  | vw | vh | vmin | vmax
  | deg | grad | rad | turn
  | s | ms
  | hz | khz
  | dpi | dpcm | dppx
  | fr
deriving DecidableEq, Repr

/-- What a number counts; `plain` numbers count nothing in particular. -/
inductive NumberUnit where
  | plain
  | percent
  | known (u : KnownUnit)
  | other (letters : Text)
deriving DecidableEq, Repr

namespace KnownUnit

def text : KnownUnit → Text
  | px => "px" | mm => "mm" | inch => "in" | cm => "cm" | quarter => "q" | pt => "pt" | pc => "pc"
  | em => "em" | rem => "rem" | ex => "ex" | ch => "ch"
  | vw => "vw" | vh => "vh" | vmin => "vmin" | vmax => "vmax"
  | deg => "deg" | grad => "grad" | rad => "rad" | turn => "turn"
  | s => "s" | ms => "ms"
  | hz => "Hz" | khz => "kHz"
  | dpi => "dpi" | dpcm => "dpcm" | dppx => "dppx"
  | fr => "fr"

def all : List KnownUnit :=
  [px, mm, inch, cm, quarter, pt, pc, em, rem, ex, ch, vw, vh, vmin, vmax, deg, grad, rad, turn,
    s, ms, hz, khz, dpi, dpcm, dppx, fr]

theorem mem_all (u : KnownUnit) : u ∈ all := by cases u <;> decide

/-- The known unit with the given letters, in any case. -/
def ofLetters? (letters : Text) : Option KnownUnit :=
  all.find? fun u => u.text.map Char.toLower == letters.map Char.toLower

end KnownUnit

namespace NumberUnit

/-- Reads a whole suffix: nothing, `%`, or ASCII letters. -/
def read? (suffix : Text) : Option NumberUnit :=
  if suffix.isEmpty then some .plain
  else if suffix = ['%'] then some .percent
  else if suffix.all Char.isAlpha then
    match KnownUnit.ofLetters? suffix with
    | some u => some (.known u)
    | none => some (.other suffix)
  else none

def text : NumberUnit → Text
  | plain => []
  | percent => ['%']
  | known u => u.text
  | other letters => letters

/-- Reads back what it writes: every known unit is found by its spelling. -/
theorem read?_text_known (u : KnownUnit) : read? (known u).text = some (known u) := by
  cases u <;> decide

end NumberUnit

end Cascade
