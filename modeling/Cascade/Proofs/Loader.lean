import Cascade.Sheet.Reading

/-!
# A loader

`Document.read` hands down the keys of the files that are not being read. Here the same
work is done with a stack of the files that are, which is changed in place: the key of a
file is pushed before the file is read and popped after, also when reading it fails. A
file that is on the stack is refused, unless the loader does not look (`checks`).

Nothing here bounds the nesting but that one check, so the functions are fixed points over
`Option`, in which `none` is a run that does not end.

A loader also keeps a record of itself: `history` has every stack there has been.
-/

namespace Cascade

structure Loader where
  reading : ReadingState
  /-- The keys of the files that are being read, the latest first. -/
  loading : List Path.Key
  history : List (List Path.Key)

/-- A step of a loader, which may fail with a fault. -/
abbrev Loading := ExceptT Fault (StateT Loader Option)

namespace Loader

/-- The loader that is about to read a file with the given key. -/
def start (key : Path.Key) : Loader := ⟨⟨#[], #[], #[]⟩, [key], [[key]]⟩

def push (key : Path.Key) (l : Loader) : Loader :=
  { l with loading := key :: l.loading, history := (key :: l.loading) :: l.history }

def pop (l : Loader) : Loader := { l with loading := l.loading.tail }

end Loader

/-- A step that imports nothing. -/
def Loading.reading {α : Type} (m : Reading α) : Loading α := fun l =>
  some ((m.run.run l.reading).1, { l with reading := (m.run.run l.reading).2 })

mutual

/-- Reads a file whose key is on the stack. -/
def Options.load (checks : Bool) (options : Options) (path : Path) (text : Text) :
    Loading Document := do
  let source ← Loading.reading (Reading.addSource ⟨path.text, text⟩)
  let desk : Desk := { options, source, path, reader? := fun _ => none }
  let block ← desk |>.loadInto checks [] .empty (.ofText text)
  return ⟨path, block⟩
partial_fixpoint

/-- Reads a file with its key on the stack. -/
def Options.loadNested (checks : Bool) (options : Options) (path : Path) (text : Text) :
    Loading Document := fun l => do
  let (result, l) ← (options |>.load checks path text).run.run
    (l.push (options.fileSystem.key path))
  return (result, l.pop)
partial_fixpoint

/-- The import of a file that can be reached, unless it is on the stack. -/
def Desk.loadFile (checks : Bool) (d : Desk) (path : Path) (span : Span) : Loading Import := do
  if checks && d.options.fileSystem.key path ∈ (← get).loading then
    Loading.reading (.fail .importCycle span)
  else
    match d.options.fileSystem.read path with
    | .unreadable reason => Loading.reading (.fail (.importUnreadable path.text reason) span)
    | .undecodable _ => Loading.reading (.fail (.importUndecodable path.text) span)
    | .text text => do
      Loading.reading (Reading.note span (.importing path.text))
      if path.extension? = some "css".toList then return .css text
      else
        let document ← d.options |>.loadNested checks path text
        return .sheet document
partial_fixpoint

def Desk.loadImport (checks : Bool) (d : Desk) (whole : Slice) (block : Block) : Loading Block :=
  let span := whole.span d.source
  let statement := whole.collapsed
  match ImportTarget.read? (Text.trim (statement.drop "@import".length)) with
  | none => do
    Loading.reading (Reading.note span (.passing statement))
    return block.addChild (.directive statement span)
  | some target => do
    Loading.reading (Reading.recordTried (target.candidates d.options d.path))
    match target.find? d.options d.path with
    | none => Loading.reading (.fail .importNotFound span)
    | some path => do
      let imported ← d |>.loadFile checks path span
      return block.addImport imported
partial_fixpoint

def Desk.loadInto (checks : Bool) (d : Desk) (parents : List Text) (block : Block) :
    Outline → Loading Block
  | .closed => return block
  | .broken cause blamed => Loading.reading (.fail cause (blamed.span d.source))
  | .statement (.importing whole) rest => do
    let block ← d |>.loadImport checks whole block
    d |>.loadInto checks parents block rest
  | .statement s rest => do
    let block ← Loading.reading (d.addStatement block s)
    d |>.loadInto checks parents block rest
  | .block prelude body rest => do
    let rule ← Loading.reading (d.heading parents prelude)
    let contents ← d |>.loadInto checks rule.selectors .empty body
    d |>.loadInto checks parents (block.addChild { rule with block := contents }) rest
partial_fixpoint

end

end Cascade
