import Cascade.FileSystem.Contents
import Cascade.Fault

/-!
# Reports

What the one who compiles gets to see: diagnostics with locations instead of
spans, and a result or a failure. Only this module says how a failure and a
diagnostic are drawn.
-/

namespace Cascade

inductive Level where
  | warning
  | debug
deriving DecidableEq, Repr

structure Diagnostic where
  level : Level
  message : Text
  location : Location
deriving DecidableEq, Repr

inductive Failure where
  /-- Something is wrong in a stylesheet. -/
  | located (cause : Cause) (location : Location) (unicode : Bool)
  /-- The entry file cannot be read. -/
  | unreadable (reason : Text)
  /-- The entry file is not UTF-8. -/
  | undecodable (byte : UInt8)
deriving DecidableEq, Repr

/-- The diagnostics of a run, in order, and how it ended. -/
structure Report (α : Type) where
  diagnostics : List Diagnostic
  result : Except Failure α

namespace Location

/-- The length of the line under the excerpt. A location of several lines is
underlined up to the end of the first. -/
def underlineLength (l : Location) : Nat :=
  let stop := if l.last.line = l.first.line then l.last.column else l.excerpt.length
  max 1 (stop - l.first.column)

/-- File, line and column, counted from one. -/
def pointer (l : Location) : Text :=
  "./" ++ l.source ++ ":" ++ (l.first.line + 1).repr ++ ":" ++ (l.first.column + 1).repr

end Location

namespace Failure

def message : Failure → Text
  | located cause _ _ => cause.message
  | unreadable reason => reason
  | undecodable byte => "Invalid UTF-8 character \"\\x" ++ Contents.hexByte byte ++ "\""

/-- The strokes of the frame around an excerpt: its top, side and bottom. -/
def strokes (unicode : Bool) : Text × Text × Text :=
  if unicode then ("╷", "│", "╵") else (",", "|", "'")

/-- The excerpt of a location, framed and underlined. -/
def frame (l : Location) (unicode : Bool) : List Text :=
  let (top, side, bottom) := strokes unicode
  let number : Text := (l.first.line + 1).repr
  let margin := List.replicate (number.length + 1) ' '
  [margin ++ top,
    number ++ " " ++ side ++ " " ++ l.excerpt,
    margin ++ side ++ " " ++ List.replicate l.first.column ' ' ++
      List.replicate l.underlineLength '^',
    margin ++ bottom,
    "  " ++ l.pointer]

/-- A failure as it is shown, every line ended. -/
def render (f : Failure) : Text :=
  let lines :=
    match f with
    | located _ location unicode => frame location unicode
    | _ => []
  (("Error: " ++ f.message) :: lines).flatMap (· ++ ['\n'])

end Failure

/-- A diagnostic as it is shown on a terminal. -/
def Diagnostic.render (d : Diagnostic) : Text :=
  match d.level with
  | .debug =>
    "[debug] " ++ d.location.source ++ ":" ++ (d.location.first.line + 1).repr ++ ": " ++
      d.message ++ "\n"
  | .warning => "Warning: " ++ d.message ++ "\n    " ++ d.location.pointer ++ "\n"

end Cascade
