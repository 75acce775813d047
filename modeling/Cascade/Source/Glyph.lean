import Cascade.Text.Nesting

/-!
# Glyphs

A glyph is a character of a source that belongs to no comment, together with
its place in the text. Everything after this module reads glyphs and never the
text, so comments and the spelling of line ends cannot reach the meaning of a
stylesheet; the places are used only to report where something stands.

Outside strings a line feed, a form feed, a carriage return and a carriage
return with a line feed are one line end, written as a line feed. Block comments
open anywhere outside strings. Line comments open only outside parentheses as
well, so that a web address in `url(...)` needs no quotes.
-/

namespace Cascade

structure Glyph where
  char : Char
  /-- The number of characters of the text before this one. -/
  place : Nat
deriving DecidableEq, Repr

/-- What the character at hand belongs to. -/
inductive Passage where
  | code
  /-- A block comment; `star` says that the last character could begin its end. -/
  | blockComment (star : Bool)
  | lineComment
deriving DecidableEq, Repr

/-- A line comment stops before either character of a line end. -/
def isLineEnd (c : Char) : Bool := c == '\n' || c == '\r'

namespace Glyph

/-- The glyphs of a text that continues at `place` in the given passage and
nesting. -/
def scan : Passage → Nesting → (place : Nat) → Text → List Glyph
  | _, _, _, [] => []
  | .blockComment star, s, i, c :: rest =>
    if star && c == '/' then scan .code s (i + 1) rest
    else scan (.blockComment (c == '*')) s (i + 1) rest
  | .lineComment, s, i, _ :: rest =>
    match rest with
    | [] => []
    | d :: rest' =>
      if isLineEnd d then scan .code s (i + 1) (d :: rest')
      else scan .lineComment s (i + 1) (d :: rest')
  | .code, s, i, c :: rest =>
    if s.quoting ≠ .outside then ⟨c, i⟩ :: scan .code (s.step c) (i + 1) rest
    else
      match c, rest with
      | '/', '*' :: rest' => scan (.blockComment false) s (i + 2) rest'
      | '/', '/' :: rest' =>
        if s.depth = 0 then scan .lineComment s (i + 1) ('/' :: rest')
        else ⟨'/', i⟩ :: scan .code s (i + 1) ('/' :: rest')
      | '\r', '\n' :: rest' => ⟨'\n', i⟩ :: scan .code s (i + 2) rest'
      | '\r', rest => ⟨'\n', i⟩ :: scan .code s (i + 1) rest
      | '\x0c', rest => ⟨'\n', i⟩ :: scan .code s (i + 1) rest
      | c, rest => ⟨c, i⟩ :: scan .code (s.step c) (i + 1) rest

/-- The glyphs of a whole source. -/
def ofText (t : Text) : List Glyph := scan .code .top 0 t

/-- What a text says once its comments are gone and its line ends are alike. -/
def visible (t : Text) : Text := (ofText t).map Glyph.char

end Glyph

end Cascade
