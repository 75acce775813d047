import Cascade.Text

/-!
# Paths

A path is the text it was written as, and messages show it so. What it names is
its `key`: whether it starts at the root, and its parts without the ones that
change nothing. Two paths with one key name one file.
-/

namespace Cascade

structure Path where
  text : Text
deriving DecidableEq, Repr

namespace Path

/-- The identity of a path: whether it is absolute, and its parts. -/
structure Key where
  absolute : Bool
  parts : List Text
deriving DecidableEq, Repr

def isAbsolute (p : Path) : Bool := p.text.head? == some '/'

/-- What stands between the slashes, empty pieces included. -/
def pieces (p : Path) : List Text := p.text.splitOnP (· == '/')

/-- A piece counts if it is not empty and is not `.`, except that a path may
begin with `.`. -/
def counts (piece : Text) (index : Nat) : Bool :=
  !piece.isEmpty && (piece != ['.'] || index == 0)

def parts (p : Path) : List Text :=
  (p.pieces.zipIdx.filter fun (piece, index) => counts piece index).map Prod.fst

def key (p : Path) : Key := ⟨p.isAbsolute, p.parts⟩

/-- The path of `name` as seen from the directory `p`. -/
def join (p name : Path) : Path :=
  if name.isAbsolute then name
  else if p.text.isEmpty || p.text.getLast? == some '/' then ⟨p.text ++ name.text⟩
  else ⟨p.text ++ '/' :: name.text⟩

/-- The pieces up to the last one that counts. -/
private def upToLast (pieces : List (Text × Nat)) : List (Text × Nat) :=
  (pieces.reverse.dropWhile fun (piece, index) => !counts piece index).reverse

private def ofPieces (absolute : Bool) (pieces : List (Text × Nat)) : Path :=
  if absolute && pieces.length ≤ 1 then ⟨['/']⟩
  else ⟨Text.join ['/'] (pieces.map Prod.fst)⟩

/-- The path without its last part, and the empty path if it has none. -/
def parent (p : Path) : Path :=
  match upToLast p.pieces.zipIdx with
  | [] => ⟨[]⟩
  | pieces => ofPieces p.isAbsolute (upToLast pieces.dropLast)

/-- The last part, if it is a name. -/
def fileName? (p : Path) : Option Text :=
  match p.parts.getLast? with
  | some name => if name = ['.'] ∨ name = ['.', '.'] then none else some name
  | none => none

/-- What follows the last `.` of the file name. A name that only begins with `.`
has no extension. -/
def extension? (p : Path) : Option Text := do
  let name ← p.fileName?
  let ending := (name.reverse.takeWhile (· ≠ '.')).reverse
  if ending.length + 1 < name.length then some ending else none

/-- The path of the file with an extension added. Slashes after the name are
dropped; a path with no name stays as it is. -/
def addExtension (p : Path) (extension : Text) : Path :=
  match p.fileName? with
  | none => p
  | some _ =>
    ⟨Text.join ['/'] ((upToLast p.pieces.zipIdx).map Prod.fst) ++ '.' :: extension⟩

end Path

end Cascade
