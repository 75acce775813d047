import Cascade.Idle
import Cascade.Sheet.ImportTarget
import Cascade.Sheet.Note
import Cascade.Sheet.Outline
import Cascade.Sheet.Prelude
import Cascade.Sheet.Statement
import Cascade.Selector

/-!
# Reading a document

A document is read from the outline of its source, statement by statement, and
an import is read where it stands. Every file that is read becomes a source of
its own, numbered in the order of reading; notes are kept also when reading
fails.

`Document.read` carries the keys of the files that are not being read at the
moment. An import of any other file is part of a cycle, and since each import
inside another takes a key away, reading ends.
-/

namespace Cascade

/-- What reading leaves behind besides the document. -/
structure ReadingState where
  sources : Sources
  notes : Array (Span × Note)
  /-- The paths that were tried for imports. -/
  tried : Array Path

abbrev Reading := ExceptT Fault (StateM ReadingState)

namespace Reading

def fail {α : Type} (cause : Cause) (span : Span) : Reading α := throw ⟨cause, span⟩

def note (span : Span) (n : Note) : Reading Unit :=
  modify fun st => { st with notes := st.notes.push (span, n) }

def recordTried (paths : List Path) : Reading Unit :=
  modify fun st => { st with tried := st.tried ++ paths }

/-- Adds a source and gives its number. -/
def addSource (source : Source) : Reading Nat :=
  modifyGet fun st => (st.sources.size, { st with sources := st.sources.push source })

end Reading

/-- Where a statement is read: the number and path of its file, and how to read
the file with a given key, unless it is being read already. -/
structure Desk where
  options : Options
  source : Nat
  path : Path
  reader? : Path.Key → Option (Path → Text → Reading Document)

namespace Desk

/-- The import of a file that can be reached, on behalf of the statement with
the given span. -/
def load (d : Desk) (path : Path) (span : Span) : Reading Import :=
  match d.reader? (d.options.fileSystem.key path) with
  | none => .fail .importCycle span
  | some read =>
    match d.options.fileSystem.read path with
    | .unreadable reason => .fail (.importUnreadable path.text reason) span
    | .undecodable _ => .fail (.importUndecodable path.text) span
    | .text text => do
      Reading.note span (.importing path.text)
      if path.extension? = some "css".toList then return .css text
      else return .sheet (← read path text)

/-- Reads an import statement into the block it stands in. -/
def addImport (d : Desk) (whole : Slice) (block : Block) : Reading Block :=
  let span := whole.span d.source
  let statement := whole.collapsed
  match ImportTarget.read? (Text.trim (statement.drop "@import".length)) with
  | none => do
    Reading.note span (.passing statement)
    return block.addChild (.directive statement span)
  | some target => do
    Reading.recordTried (target.candidates d.options d.path)
    match target.find? d.options d.path with
    | none => .fail .importNotFound span
    | some path => return block.addImport (← d.load path span)

/-- Reads a statement into the block it stands in. -/
def addStatement (d : Desk) (block : Block) : Statement → Reading Block
  | .importing whole => d.addImport whole block
  | .definition name value whole => do
    Reading.note (whole.span d.source) (.definition name value.trimmed)
    return block.addVariable name ⟨value.trimmed, value.span d.source⟩
  | .directive whole => do
    Reading.note (whole.span d.source) (.directive whole.collapsed)
    return block.addChild (.directive whole.collapsed (whole.span d.source))
  | .call whole => do
    let call ← MixinCall.read d.source whole
    Reading.note call.span (.call call.name call.arguments.length)
    return block.addDeclaration (.call call)
  | .property whole => do
    let property ← Property.read d.source whole
    return block.addDeclaration (.property property)

/-- Reads a prelude, inside rules with the given selectors, into a rule without
contents. -/
def heading (d : Desk) (parents : List Text) (prelude : Slice) : Reading Rule := do
  let span := prelude.span d.source
  let (selector, condition) := Condition.split prelude.collapsed span
  match ← Signature.read? selector span with
  | some signature =>
    Reading.note span (.mixin signature.name signature.parameters.length)
    return ⟨[signature.name], [signature.name], .mixin signature.parameters, condition, .empty,
      span⟩
  | none =>
    if selector.head? = some '@' then
      Reading.note span (.atRule selector)
      return ⟨parents, [], .atRule selector, condition, .empty, span⟩
    else
      let own := Selector.ofList selector
      let composed := Selector.compose parents own
      Reading.note span (.rule composed)
      return ⟨composed, own, .style, condition, .empty, span⟩

/-- Reads the rest of a block, inside rules with the given selectors, into the
block as read so far. -/
def readInto (d : Desk) (parents : List Text) (block : Block) : Outline → Reading Block
  | .closed => return block
  | .broken cause blamed => .fail cause (blamed.span d.source)
  | .statement s rest => do
    let block ← d.addStatement block s
    d.readInto parents block rest
  | .block prelude body rest => do
    let rule ← d.heading parents prelude
    let contents ← d.readInto rule.selectors .empty body
    d.readInto parents (block.addChild { rule with block := contents }) rest

end Desk

/-- Reads a file. `idle` holds the keys of the files that are not being read. -/
def Document.read (options : Options) (idle : List Path.Key) (path : Path) (text : Text) :
    Reading Document := do
  let source ← Reading.addSource ⟨path.text, text⟩
  let desk : Desk :=
    { options, source, path
      reader? := fun key =>
        match Idle.take? key idle with
        | some ⟨rest, _⟩ => some (Document.read options rest)
        | none => none }
  let block ← desk.readInto [] .empty (.ofText text)
  return ⟨path, block⟩
termination_by idle.length

/-- Reads the file a stylesheet begins with. -/
def Document.readEntry (options : Options) (path : Path) (text : Text) : Reading Document :=
  let fs := options.fileSystem
  Document.read options (fs.keys.filter (· ≠ fs.key path)) path text

end Cascade
