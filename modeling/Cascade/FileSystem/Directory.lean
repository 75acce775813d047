import Cascade.FileSystem

/-!
# A working directory

The files below a directory, named by their parts. Paths are walked from the
directory part by part, as a system walks them: `.` and `..` need a directory to
stand in, and nothing lies below a file. What is outside the directory is taken
to hold nothing.
-/

namespace Cascade

/-- Why a path cannot be opened. -/
inductive FileError where
  | notFound
  | notDirectory
  | isDirectory
deriving DecidableEq, Repr

namespace FileError

def code : FileError → Nat
  | notFound => 2
  | notDirectory => 20
  | isDirectory => 21

def kind : FileError → Text
  | notFound => "NotFound"
  | notDirectory => "NotADirectory"
  | isDirectory => "IsADirectory"

def description : FileError → Text
  | notFound => "No such file or directory"
  | notDirectory => "Not a directory"
  | isDirectory => "Is a directory"

/-- The error as a sentence. -/
def message (e : FileError) : Text :=
  e.description ++ " (os error " ++ e.code.repr ++ ")"

/-- The error as the end of a run reports it. -/
def report (e : FileError) : Text :=
  "Error: Os \x7b code: " ++ e.code.repr ++ ", kind: " ++ e.kind ++ ", message: \"" ++
    e.description ++ "\" \x7d\n"

end FileError

structure Directory where
  /-- Each file with its parts, the name last. -/
  files : List (List Text × Contents)

namespace Directory

/-- Where a walk stands: in a directory below the working directory, or outside. -/
inductive Place where
  | inside (parts : List Text)
  | outside
deriving DecidableEq, Repr

/-- What a path leads to. -/
inductive Found where
  | file (parts : List Text)
  | directory (place : Place)
  | nothing (e : FileError)
deriving DecidableEq, Repr

def lookup? (d : Directory) (parts : List Text) : Option Contents := d.files.lookup parts

/-- Whether some file lies below. -/
def hasDirectory (d : Directory) (parts : List Text) : Bool :=
  d.files.any fun (file, _) => parts.isPrefixOf file && parts != file

/-- Walks the pieces of a path. An empty piece and `.` stay in the directory. -/
def walk (d : Directory) : Place → List Text → Found
  | place, [] => .directory place
  | place, piece :: rest =>
    if piece.isEmpty ∨ piece = ['.'] then walk d place rest
    else
      match place with
      | .outside => if piece = ['.', '.'] then walk d .outside rest else .nothing .notFound
      | .inside parts =>
        if piece = ['.', '.'] then
          walk d (if parts.isEmpty then .outside else .inside parts.dropLast) rest
        else if (d.lookup? (parts ++ [piece])).isSome then
          if rest.isEmpty then .file (parts ++ [piece]) else .nothing .notDirectory
        else if d.hasDirectory (parts ++ [piece]) then walk d (.inside (parts ++ [piece])) rest
        else .nothing .notFound

/-- What a path leads to. The empty path leads nowhere. -/
def find (d : Directory) (p : Path) : Found :=
  if p.text.isEmpty then .nothing .notFound
  else walk d (if p.isAbsolute then .outside else .inside []) p.pieces

/-- The absolute path of a file, if the working directory is the root. -/
def absolute (parts : List Text) : Path := ⟨'/' :: Text.join ['/'] parts⟩

def canonical? (d : Directory) (p : Path) : Option Path :=
  match d.find p with
  | .file parts => some (absolute parts)
  | .directory (.inside parts) => some (absolute parts)
  | .directory .outside => some ⟨['/']⟩
  | .nothing _ => none

def isFile (d : Directory) (p : Path) : Bool :=
  match d.find p with
  | .file _ => true
  | _ => false

def read (d : Directory) (p : Path) : Contents :=
  match d.find p with
  | .file parts => (d.lookup? parts).getD (.unreadable FileError.notFound.message)
  | .directory _ => .unreadable FileError.isDirectory.message
  | .nothing e => .unreadable e.message

theorem mem_of_lookup? {d : Directory} {parts : List Text} (h : (d.lookup? parts).isSome) :
    parts ∈ d.files.map Prod.fst := by
  simpa [lookup?] using h

theorem mem_of_walk {d : Directory} {place : Place} {pieces parts : List Text}
    (h : d.walk place pieces = .file parts) : parts ∈ d.files.map Prod.fst := by
  fun_induction walk d place pieces with
  | case1 | case4 | case7 | case9 => cases h
  | case2 | case3 | case5 | case8 => rename_i ih; exact ih h
  | case6 _ _ _ _ _ hfile =>
      cases h
      exact mem_of_lookup? hfile

/-- The files as a file system. -/
def fileSystem (d : Directory) : FileSystem where
  isFile := d.isFile
  read := d.read
  canonical? := d.canonical?
  keys := d.files.map fun (parts, _) => (absolute parts).key
  mem_keys p h := by
    unfold isFile at h
    split at h
    · rename_i parts hfind
      have hmem : parts ∈ d.files.map Prod.fst := by
        unfold find at hfind
        split at hfind
        · cases hfind
        · exact mem_of_walk hfind
      obtain ⟨entry, hentry, rfl⟩ := List.mem_map.mp hmem
      refine List.mem_map.mpr ⟨entry, hentry, ?_⟩
      simp [canonical?, hfind]
    · cases h

/-! ## Writing -/

def put (d : Directory) (parts : List Text) (contents : Contents) : Directory :=
  ⟨d.files.filter (·.1 ≠ parts) ++ [(parts, contents)]⟩

/-- The file to write to. A name that leads nowhere yet is a new file if its
directory is there; a slash after the name asks for a directory. -/
def target (d : Directory) (p : Path) : Except FileError (List Text) :=
  match d.find p with
  | .file parts => .ok parts
  | .directory _ => .error .isDirectory
  | .nothing e =>
    let names := p.pieces.reverse.dropWhile List.isEmpty
    let slash := p.pieces.getLast? == some []
    match names with
    | [] => .error e
    | name :: before =>
      match walk d (if p.isAbsolute then .outside else .inside []) before.reverse with
      | .directory (.inside parts) =>
        if name = ['.'] ∨ name = ['.', '.'] then .error e
        else if slash then .error .isDirectory
        else .ok (parts ++ [name])
      | .directory .outside => .error e
      | .file _ => .error .notDirectory
      | .nothing e => .error e

/-- The files of `after` that are not in `d`, or not with the same contents. -/
def changes (d after : Directory) : List (Path × Contents) :=
  (after.files.filter fun (parts, contents) => d.lookup? parts != some contents).map
    fun (parts, contents) => (⟨Text.join ['/'] parts⟩, contents)

end Directory

end Cascade
