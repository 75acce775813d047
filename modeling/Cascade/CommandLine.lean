import Cascade.FileSystem.Directory
import Cascade.StyleSheet

/-!
# The command line

What the arguments of the program ask for, and what a run of it comes to: the
exit code, what it prints and what it leaves in the directory it runs in.

Arguments are read one after the other and the first that is wrong decides,
except that a request for the version or for help is answered as soon as it is
met. The output file is created before anything is compiled.
-/

namespace Cascade

structure Invocation where
  input : Option Path := none
  output : Option Path := none
  standardInput : Bool := false
  loadPaths : List Path := []
  basePath : Option Path := none
  verbose : Bool := false
  noUnicode : Bool := false
  quiet : Bool := false
deriving Repr

/-- What the arguments ask for. -/
inductive Request where
  | compile (i : Invocation)
  | version
  | help
deriving Repr

namespace Request

/-- An option that can be given, with one letter or with its name. -/
inductive Switch where
  | version
  | help
  | standardInput
  | verbose
  | noUnicode
  | quiet
  | loadPath
  | basePath
deriving DecidableEq, Repr

namespace Switch

def ofName? (name : Text) : Option Switch :=
  match String.ofList name with
  | "version" => some version
  | "help" => some help
  | "stdin" => some standardInput
  | "verbose" => some verbose
  | "no-unicode" => some noUnicode
  | "quiet" => some quiet
  | "load-path" => some loadPath
  | "base-path" => some basePath
  | _ => none

def ofLetter? (letter : Char) : Option Switch :=
  if letter = 'v' then some version
  else if letter = 'h' then some help
  else if letter = 'q' then some quiet
  else if letter = 'I' then some loadPath
  else none

def takesValue : Switch → Bool
  | loadPath | basePath => true
  | _ => false

end Switch

/-- How the reading of arguments goes on: with what has been read so far, or
with an answer. Nothing is the answer to a wrong argument. -/
abbrev Step := Except (Option Request) Invocation

def wrong : Step := .error none

/-- Turns a switch without a value on. Only once is allowed. -/
def turnOn (i : Invocation) : Switch → Step
  | .version => .error (some version)
  | .help => .error (some help)
  | .standardInput => if i.standardInput then wrong else .ok { i with standardInput := true }
  | .verbose => if i.verbose then wrong else .ok { i with verbose := true }
  | .noUnicode => if i.noUnicode then wrong else .ok { i with noUnicode := true }
  | .quiet => if i.quiet then wrong else .ok { i with quiet := true }
  | .loadPath | .basePath => wrong

/-- Gives a switch its value. A base path can be given only once. -/
def give (i : Invocation) (value : Text) : Switch → Step
  | .loadPath => .ok { i with loadPaths := i.loadPaths ++ [⟨value⟩] }
  | .basePath => if i.basePath.isSome then wrong else .ok { i with basePath := some ⟨value⟩ }
  | _ => wrong

/-- The first positional argument is the input, the second the output. -/
def place (i : Invocation) (value : Text) : Step :=
  if i.input.isNone then .ok { i with input := some ⟨value⟩ }
  else if i.output.isNone then .ok { i with output := some ⟨value⟩ }
  else wrong

/-- One argument beginning with `--`, its name and value as split at `=`. The
switch is returned if its value is still to come. -/
def readLong (i : Invocation) (name : Text) (value : Option Text) :
    Except (Option Request) (Invocation × Option Switch) :=
  match Switch.ofName? name, value with
  | none, _ => .error none
  | some s, none => if s.takesValue then .ok (i, some s) else (turnOn i s).map (·, none)
  | some s, some value => if s.takesValue then (give i value s).map (·, none) else .error none

/-- The letters of an argument beginning with `-`. What follows a letter that
takes a value is the value, after an optional `=`. -/
def readLetters (i : Invocation) : Text → Except (Option Request) (Invocation × Option Switch)
  | [] => .ok (i, none)
  | letter :: rest =>
    match Switch.ofLetter? letter with
    | none => .error none
    | some s =>
      if s.takesValue then
        match rest with
        | [] => .ok (i, some s)
        | '=' :: value => (give i value s).map (·, none)
        | value => (give i value s).map (·, none)
      else
        match turnOn i s with
        | .ok i => readLetters i rest
        | .error e => .error e

/-- Reads arguments from left to right. `due` is a switch whose value is to
come, and after `--` every argument is positional. -/
def readArguments (i : Invocation) (due : Option Switch) (literal : Bool) : List Text → Step
  | [] => if due.isSome then wrong else .ok i
  | argument :: rest =>
    let next (result : Except (Option Request) (Invocation × Option Switch)) : Step :=
      match result with
      | .ok (i, due) => readArguments i due literal rest
      | .error e => .error e
    if literal then next ((place i argument).map (·, none))
    else
      match due, argument with
      | some _, '-' :: _ :: _ => wrong
      | some s, value => next ((give i value s).map (·, none))
      | none, ['-', '-'] => readArguments i none true rest
      | none, '-' :: '-' :: long =>
        let name := long.takeWhile (· ≠ '=')
        next (readLong i name (long.drop name.length).tail?)
      | none, '-' :: letter :: letters => next (readLetters i (letter :: letters))
      | none, value => next ((place i value).map (·, none))

/-- What the arguments ask for, unless they are wrong. There has to be an input,
from a file or from standard input. -/
def read? (arguments : List Text) : Option Request :=
  match readArguments {} none false arguments with
  | .ok i => if i.input.isNone && !i.standardInput then none else some (compile i)
  | .error answer => answer

end Request

namespace Invocation

def options (i : Invocation) (fs : FileSystem) : Options where
  fileSystem := fs
  loadPaths := i.loadPaths
  basePath := i.basePath.getD ⟨[]⟩
  quiet := i.quiet
  verbose := i.verbose
  unicode := !i.noUnicode

/-- The path of the style sheet, which messages show. -/
def path (i : Invocation) : Path := i.input.getD StyleSheet.standardInput

/-- Compiles a style sheet with the given contents. -/
def compile (i : Invocation) (fs : FileSystem) (contents : Contents) : Report Text :=
  StyleSheet.compileContents (i.options fs) i.path contents

end Invocation

/-! ## Runs -/

/-- What a run prints and leaves behind. -/
structure Outcome where
  exit : Nat
  stdout : Text
  stderr : Text
  directory : Directory

namespace CommandLine

def versionText : Text := "lessen 0.4.1\n"

def helpText : Text :=
  List.flatMap (· ++ ['\n']) [
    "Usage: lessen [OPTIONS] <INPUT> [OUTPUT]",
    "",
    "Options:",
    "  -v, --version",
    "  -h, --help",
    "      --stdin",
    "  -I, --load-path <LOAD_PATH>",
    "      --base-path <BASE_PATH>",
    "      --verbose",
    "      --no-unicode",
    "  -q, --quiet"]

def usageText : Text := "error: invalid arguments\n\nFor more information, try '--help'.\n"

/-- The report on standard input that is not UTF-8. -/
def undecodableInput : Text :=
  "Error: Error \x7b kind: InvalidData, message: \"stream did not contain valid UTF-8\" \x7d\n"

/-- All that a compilation has to say, and after it the failure if it failed. -/
def errorText (r : Report Text) : Text :=
  let failure :=
    match r.result with
    | .ok _ => []
    | .error f => f.render ++ ['\n']
  r.diagnostics.flatMap Diagnostic.render ++ failure

/-- Compiles in a directory, in which the output file has been created already if
one is asked for. -/
def compile (i : Invocation) (output : Option (List Text)) (stdin : Contents) (d : Directory) :
    Outcome :=
  let contents :=
    match i.input with
    | some path => d.read path
    | none => stdin
  match i.input, contents with
  | none, .undecodable _ => ⟨1, [], undecodableInput, d⟩
  | _, _ =>
    let r := i.compile d.fileSystem contents
    match r.result, output with
    | .ok css, some parts => ⟨0, [], errorText r, d.put parts (.text css)⟩
    | .ok css, none => ⟨0, css, errorText r, d⟩
    | .error _, _ => ⟨1, [], errorText r, d⟩

/-- A run of the program with the given arguments and standard input. -/
def run (arguments : List Text) (stdin : Contents) (d : Directory) : Outcome :=
  match Request.read? arguments with
  | none => ⟨2, [], usageText, d⟩
  | some .version => ⟨0, versionText, [], d⟩
  | some .help => ⟨0, helpText, [], d⟩
  | some (.compile i) =>
    match i.output with
    | none => compile i none stdin d
    | some path =>
      match d.target path with
      | .error e => ⟨1, [], e.report, d⟩
      | .ok parts => compile i (some parts) stdin (d.put parts (.text []))

end CommandLine

end Cascade
