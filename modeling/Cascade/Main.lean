import Cascade.CommandLine
import Cascade.FileSystem.Memory

/-!
# The program

Reads arguments, files and standard input, and writes what the command line
answers. A style sheet is compiled against the files read so far; as long as it
looks for others, those are read too and it is compiled again.
-/

namespace Cascade.Program

/-- What kept a file from being opened. The code of an error comes with either
sign. -/
def fileError : IO.Error → FileError
  | .inappropriateType _ code _ =>
    if code = 20 ∨ code = 0 - 20 then .notDirectory else .isDirectory
  | _ => .notFound

def readFile (path : Path) : IO Contents := do
  try
    return .ofBytes (← IO.FS.readBinFile (String.ofList path.text)).toList
  catch e => return .unreadable (fileError e).message

/-- Adds the file at a path, if there is one, under its name on the disk. -/
def load (files : MemoryFiles) (path : Path) : IO MemoryFiles := do
  match ← readFile path with
  | .unreadable _ => return files
  | contents =>
    let real ← IO.FS.realPath (String.ofList path.text)
    return (files.write path contents).setAlias path (some ⟨real.toString.toList⟩)

/-- Reads every file that a style sheet looks for. -/
partial def gather (i : Invocation) (text : Text) (known : List Path) (files : MemoryFiles) :
    IO MemoryFiles := do
  let tried := StyleSheet.pathsTried (i.options files.fileSystem) i.path text
  match (tried.filter (· ∉ known)).eraseDups with
  | [] => return files
  | unknown =>
    let mut files := files
    for path in unknown do
      files ← load files path
    gather i text (known ++ unknown) files

def printError (t : Text) : IO PUnit := do (← IO.getStderr).putStr (String.ofList t)

def printOut (t : Text) : IO PUnit := do (← IO.getStdout).putStr (String.ofList t)

/-- Everything on standard input. -/
def readInput : IO Contents := do
  return .ofBytes (← (← IO.getStdin).readBinToEnd).toList

/-- Compiles and gives the exit code. -/
def compile (i : Invocation) (write : Text → IO PUnit) : IO UInt32 := do
  let contents ← match i.input with
    | some path => readFile path
    | none => readInput
  match i.input, contents with
  | none, .undecodable _ => do
    printError CommandLine.undecodableInput
    return 1
  | _, _ => do
    let text := match contents with
      | .text t => t
      | _ => []
    let entry ← load .empty i.path
    let files ← gather i text [i.path] entry
    let report := i.compile files.fileSystem contents
    printError (CommandLine.errorText report)
    match report.result with
    | .ok css => do
      write css
      return 0
    | .error _ => return 1

/-- Runs the program and gives its exit code. -/
def run (arguments : List String) : IO UInt32 := do
  match Request.read? (arguments.map String.toList) with
  | none => do
    printError CommandLine.usageText
    return 2
  | some .version => do
    printOut CommandLine.versionText
    return 0
  | some .help => do
    printOut CommandLine.helpText
    return 0
  | some (.compile i) =>
    match i.output with
    | none => compile i printOut
    | some path =>
      try
        let handle ← IO.FS.Handle.mk (String.ofList path.text) .write
        compile i fun css => handle.putStr (String.ofList css)
      catch e => do
        printError (fileError e).report
        return 1

end Cascade.Program

def main (arguments : List String) : IO UInt32 := Cascade.Program.run arguments
