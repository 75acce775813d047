import Cascade.Options

/-!
# Import targets

What an `@import` names, and where the file is looked for. Only a lone quoted or
bracketed name is followed; a `url(...)`, a remote address and an import with a
media list are left to whoever reads the output.
-/

namespace Cascade

inductive ImportTarget where
  /-- `"name"`, relative to the importing file. -/
  | quoted (name : Path)
  /-- `<name>`, relative to the base path. -/
  | bracketed (name : Path)
deriving DecidableEq, Repr

namespace ImportTarget

/-- Whether a name is an address on the web. -/
def isRemote (name : Text) : Bool :=
  (Text.after? "http://" name).isSome || (Text.after? "https://" name).isSome ||
    (Text.after? "//" name).isSome

/-- The name up to the closing mark, if nothing follows it. -/
def nameUpTo? (mark : Char) (t : Text) : Option Path :=
  let name := t.takeWhile (· ≠ mark)
  match t.drop name.length with
  | [] => none
  | _ :: rest =>
    if !(Text.trim rest).isEmpty || name.isEmpty || isRemote name then none else some ⟨name⟩

def read? : Text → Option ImportTarget
  | '"' :: t => (nameUpTo? '"' t).map quoted
  | '\'' :: t => (nameUpTo? '\'' t).map quoted
  | '<' :: t => (nameUpTo? '>' t).map bracketed
  | _ => none

def name : ImportTarget → Path
  | quoted name => name
  | bracketed name => name

/-- The directories to search, for an import in the file with the given path. -/
def directories (options : Options) (importer : Path) : ImportTarget → List Path
  | quoted _ => importer.parent :: options.loadPaths
  | bracketed _ => options.basePath :: options.loadPaths

/-- The paths that could be meant, in the order they are tried. A name without
an extension also stands for a `.less` file. -/
def candidates (options : Options) (importer : Path) (t : ImportTarget) : List Path :=
  (t.directories options importer).flatMap fun directory =>
    let path := directory.join t.name
    if path.extension?.isNone then [path, path.addExtension "less"] else [path]

/-- The first candidate that is a file. -/
def find? (options : Options) (importer : Path) (t : ImportTarget) : Option Path :=
  (t.candidates options importer).find? options.fileSystem.isFile

end ImportTarget

end Cascade
