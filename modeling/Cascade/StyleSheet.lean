import Cascade.Css.Output
import Cascade.Report
import Cascade.Sheet.Reading

/-!
# Style sheets

The library as it is used: read a style sheet once, then write it as CSS as often
as needed. Files are only looked at while reading.
-/

namespace Cascade

/-- A style sheet that has been read, with everything it imports. -/
structure StyleSheet where
  sources : Sources
  document : Document

namespace Options

/-- The notes of the reader, as far as they are wanted. -/
def notes (options : Options) (sources : Sources) (notes : List (Span × Note)) : List Diagnostic :=
  if options.verbose && !options.quiet then
    notes.map fun (span, note) => ⟨.debug, note.message, sources.locate span⟩
  else []

/-- The warnings of a run, as far as they are wanted. -/
def warnings (options : Options) (sources : Sources) (warnings : Warnings) : List Diagnostic :=
  if options.quiet then []
  else warnings.map fun (span, warning) => ⟨.warning, warning.message, sources.locate span⟩

/-- A fault with its span located. -/
def failure (options : Options) (sources : Sources) (f : Fault) : Failure :=
  .located f.cause (sources.locate f.span) options.unicode

end Options

namespace StyleSheet

/-- Everything that comes of reading a text, and how it ended. -/
def readState (options : Options) (path : Path) (text : Text) :
    Except Fault Document × ReadingState :=
  (Document.readEntry options path text).run ⟨#[], #[], #[]⟩

/-- Reads a style sheet. Its path names it in messages, and quoted imports are
relative to the directory it is in. -/
def read (options : Options) (path : Path) (text : Text) : Report StyleSheet :=
  let (result, st) := readState options path text
  { diagnostics := options.notes st.sources st.notes.toList
    result :=
      match result with
      | .ok document => .ok ⟨st.sources, document⟩
      | .error f => .error (options.failure st.sources f) }

/-- The paths that are looked for while a style sheet is read. -/
def pathsTried (options : Options) (path : Path) (text : Text) : List Path :=
  (readState options path text).2.tried.toList

/-- Writes a style sheet as CSS. -/
def output (options : Options) (s : StyleSheet) : Report Text :=
  let (result, warnings) := s.document.css
  { diagnostics := options.warnings s.sources warnings
    result :=
      match result with
      | .ok css => .ok css
      | .error f => .error (options.failure s.sources f) }

/-- Reads a style sheet and writes it as CSS. -/
def compile (options : Options) (path : Path) (text : Text) : Report Text :=
  let reading := read options path text
  match reading.result with
  | .error f => ⟨reading.diagnostics, .error f⟩
  | .ok sheet =>
    let writing := sheet.output options
    ⟨reading.diagnostics ++ writing.diagnostics, writing.result⟩

/-- The path of a text that comes from no file. -/
def standardInput : Path := ⟨"stdin"⟩

/-- Compiles the contents of the entry file. -/
def compileContents (options : Options) (path : Path) : Contents → Report Text
  | .text t => compile options path t
  | .undecodable byte => ⟨[], .error (.undecodable byte)⟩
  | .unreadable reason => ⟨[], .error (.unreadable reason)⟩

/-- Compiles the file with the given path. -/
def compileFile (options : Options) (path : Path) : Report Text :=
  compileContents options path (options.fileSystem.read path)

end StyleSheet

end Cascade
