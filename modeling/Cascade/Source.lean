import Cascade.Source.Glyph

/-!
# Sources and spans

A span names a stretch of one source by the numbers of its glyphs. Spans with
different numbers stand for different stretches whatever comments lie between,
so they can serve as identities: of a variable's definition, and of a construct
that has been warned about. Only `Source.locate` turns a span into lines and
columns of the text.
-/

namespace Cascade

/-- The glyphs from `start` up to, not including, `stop` of the source with the
given number. A span is never empty; one that starts past the last glyph stands
for the last glyph. -/
structure Span where
  source : Nat
  start : Nat
  stop : Nat
deriving DecidableEq, Repr

/-- Line and column count from zero; columns count characters, and only a line
feed ends a line. -/
structure Position where
  line : Nat
  column : Nat
deriving DecidableEq, Repr

/-- A span as a reader of the text finds it. -/
structure Location where
  source : Text
  first : Position
  last : Position
  /-- The whole line of `first`, without its line end. -/
  excerpt : Text
deriving DecidableEq, Repr

structure Source where
  name : Text
  text : Text
deriving DecidableEq, Repr

namespace Source

/-- Where the character at a place stands. -/
def position (s : Source) (place : Nat) : Position :=
  let before := s.text.take place
  ⟨before.count '\n', (before.reverse.takeWhile (· ≠ '\n')).length⟩

/-- The line with the given number, without its line end. -/
def lineAt (s : Source) (line : Nat) : Text :=
  let whole := ((s.text.splitOnP (· == '\n'))[line]?).getD []
  (whole.reverse.dropWhile (· == '\r')).reverse

/-- The places of the first character of a span and of the end of its last. -/
def extent (s : Source) (span : Span) : Nat × Nat :=
  let glyphs := (Glyph.ofText s.text).toArray
  let place (i : Nat) : Option Nat := (glyphs[min i (glyphs.size - 1)]?).map Glyph.place
  match place span.start, place (span.stop - 1) with
  | some first, some last => (first, last + 1)
  | _, _ => (0, 0)

def locate (s : Source) (span : Span) : Location :=
  let (first, last) := s.extent span
  let start := s.position first
  { source := s.name, first := start, last := s.position last, excerpt := s.lineAt start.line }

/-- The length of a span in UTF-8 bytes of the text, comments inside included. -/
def byteLength (s : Source) (span : Span) : Nat :=
  let (first, last) := s.extent span
  ((s.text.drop first).take (last - first)).foldl (fun n c => n + c.utf8Size) 0

end Source

/-- The sources of a stylesheet, the entry file first. A file that is imported
twice is two sources. -/
abbrev Sources := Array Source

namespace Sources

def locate (sources : Sources) (span : Span) : Location :=
  match sources[span.source]? with
  | some source => source.locate span
  | none => ⟨[], ⟨0, 0⟩, ⟨0, 0⟩, []⟩

def byteLength (sources : Sources) (span : Span) : Nat :=
  match sources[span.source]? with
  | some source => source.byteLength span
  | none => 0

end Sources

end Cascade
