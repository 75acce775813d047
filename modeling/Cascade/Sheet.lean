import Cascade.Path
import Cascade.Source

/-!
# Sheets

The tree of a stylesheet that has been read and not yet evaluated. Values,
arguments and conditions are raw text with the span they were written at; what
they mean depends on the scope they are evaluated in.
-/

namespace Cascade

/-- A value as written, and where. -/
structure Raw where
  text : Text
  span : Span
deriving DecidableEq, Repr

structure Property where
  name : Text
  value : Raw
deriving DecidableEq, Repr

/-- A mixin call. Its name includes the leading `.`; a blank argument stands for
the parameter's default. -/
structure MixinCall where
  name : Text
  arguments : List Raw
  span : Span
deriving DecidableEq, Repr

inductive Declaration where
  | property (p : Property)
  | call (c : MixinCall)
deriving DecidableEq, Repr

/-- A parameter of a mixin. Its default is evaluated inside the mixin, where it
can refer to earlier parameters. -/
structure Parameter where
  name : Text
  fallback : Option Raw
deriving DecidableEq, Repr

inductive RuleKind where
  | style
  /-- A mixin with a parameter list. It is never written on its own. -/
  | mixin (parameters : List Parameter)
  /-- An at-rule with a block. -/
  | atRule (prelude : Text)
  /-- An at-rule without a block, written back as it is. -/
  | directive (text : Text)
deriving DecidableEq, Repr

/-- The condition on a rule. `orTest` and `otherwise` continue the chain that
the closest `test` before them began. -/
inductive Condition where
  | test (condition : Raw)
  | orTest (condition : Raw)
  | otherwise
deriving DecidableEq, Repr

mutual

/-- The contents of a pair of braces, or of a whole file. The first definition
of a variable decides its position, the last its value. -/
structure Block where
  imports : List Import
  definitions : List (Text × Raw)
  declarations : List Declaration
  children : List Rule

/-- A prelude with its block. `selectors` are the selectors as written,
`ownSelectors`, combined with those of the enclosing rules. -/
structure Rule where
  selectors : List Text
  ownSelectors : List Text
  kind : RuleKind
  condition : Option Condition
  block : Block
  span : Span

inductive Import where
  | sheet (document : Document)
  /-- The text of a style sheet that is copied to the output. -/
  | css (text : Text)

/-- A file that has been read, along with everything it imports. -/
structure Document where
  path : Path
  block : Block

end

namespace Block

def empty : Block := ⟨[], [], [], []⟩

def addImport (b : Block) (i : Import) : Block := { b with imports := b.imports ++ [i] }

def addDeclaration (b : Block) (d : Declaration) : Block :=
  { b with declarations := b.declarations ++ [d] }

def addChild (b : Block) (r : Rule) : Block := { b with children := b.children ++ [r] }

/-- A table in which the name has the value. A name that was there keeps its
position. -/
def define (name : Text) (value : Raw) : List (Text × Raw) → List (Text × Raw)
  | [] => [(name, value)]
  | (n, v) :: rest => if n = name then (n, value) :: rest else (n, v) :: define name value rest

def addVariable (b : Block) (name : Text) (value : Raw) : Block :=
  { b with definitions := define name value b.definitions }

/-- The raw value of a variable of this very block. -/
def ownVariable? (b : Block) (name : Text) : Option Raw := b.definitions.lookup name

def properties (b : Block) : List Property :=
  b.declarations.filterMap fun
    | .property p => some p
    | .call _ => none

def mixinCalls (b : Block) : List MixinCall :=
  b.declarations.filterMap fun
    | .property _ => none
    | .call c => some c

end Block

namespace Rule

def directive (text : Text) (span : Span) : Rule :=
  ⟨[], [], .directive text, none, .empty, span⟩

def isMixin (r : Rule) : Bool :=
  match r.kind with
  | .mixin _ => true
  | _ => false

/-- The first selector as written, or the prelude of an at-rule. -/
def name (r : Rule) : Text :=
  match r.kind with
  | .atRule prelude => prelude
  | .directive text => text
  | .style | .mixin _ => r.ownSelectors.head?.getD []

/-- Whether a call of that name expands this rule. Any style rule can be called. -/
def answersTo (r : Rule) (mixin : Text) : Bool :=
  match r.kind with
  | .style | .mixin _ => r.ownSelectors.contains mixin
  | .atRule _ | .directive _ => false

end Rule

/-- The raw value of a top-level variable. -/
def Document.variable? (d : Document) (name : Text) : Option Raw := d.block.ownVariable? name

end Cascade
