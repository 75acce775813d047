import Cascade.Text

/-!
# Writing CSS

Rules are written one to a line, and the contents of an at-rule two spaces
further in. Whether a block is empty is only known once its contents have been
written, so it is opened with a mark of what was there before, and an empty block
is taken back when it is closed.
-/

namespace Cascade.Css

/-- A property with its evaluated value. -/
structure Declaration where
  name : Text
  value : Text
deriving DecidableEq, Repr

structure Writer where
  indentation : Nat
  buffer : Array Char
deriving DecidableEq, Repr

/-- How much had been written before a block was opened, and how much before its
contents. -/
structure Mark where
  start : Nat
  bodyStart : Nat
deriving DecidableEq, Repr

namespace Writer

def empty : Writer := ⟨0, #[]⟩

/-- How much further in the contents of a block are. -/
def indentWidth : Nat := 2

def append (w : Writer) (t : Text) : Writer := { w with buffer := w.buffer ++ t }

/-- A line with its indentation and line end. -/
def line (w : Writer) (t : Text) : Writer :=
  w.append (List.replicate w.indentation ' ' ++ t ++ ['\n'])

def declarationsText (declarations : List Declaration) : Text :=
  Text.join [' '] (declarations.map fun d => d.name ++ ':' :: ' ' :: d.value ++ [';'])

/-- A rule on one line, `a, b { c: d; e: f; }`. -/
def styleRule (w : Writer) (selectors : List Text) (declarations : List Declaration) : Writer :=
  w.line (Text.join [',', ' '] selectors ++ " \x7b " ++ declarationsText declarations ++ " \x7d")

/-- Declarations that belong to an at-rule itself. -/
def bareDeclarations (w : Writer) (declarations : List Declaration) : Writer :=
  w.line (declarationsText declarations)

/-- An at-rule on one line. -/
def inlineAtRule (w : Writer) (prelude : Text) (declarations : List Declaration) : Writer :=
  w.styleRule [prelude] declarations

def directive (w : Writer) (t : Text) : Writer := w.line (t ++ [';'])

/-- The text of an imported style sheet, ended by a line end. -/
def raw (w : Writer) (css : Text) : Writer :=
  if css.isEmpty ∨ css.getLast? = some '\n' then w.append css else w.append (css ++ ['\n'])

def openBlock (w : Writer) (prelude : Text) : Mark × Writer :=
  let opened := w.line (prelude ++ " \x7b")
  (⟨w.buffer.size, opened.buffer.size⟩,
    { opened with indentation := w.indentation + indentWidth })

/-- Closes the block with the given mark, or takes it back if it is empty. -/
def closeBlock (w : Writer) (mark : Mark) : Writer :=
  let w := { w with indentation := w.indentation - indentWidth }
  if w.buffer.size = mark.bodyStart then { w with buffer := w.buffer.take mark.start }
  else w.line ['}']

def text (w : Writer) : Text := w.buffer.toList

end Writer

end Cascade.Css
