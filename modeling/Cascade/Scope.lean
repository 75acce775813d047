import Cascade.Sheet

/-!
# Scopes

A scope is the chain of blocks around a place, innermost first. A mixin call
puts a layer of its bindings over the mixin's own block and never writes into
the block.

A name is looked for in each layer in turn: first among its bindings, then among
the variables of its block, then in the files the block imports, each with all
that it imports in turn. What is found comes with its home, the scope it was
found in, since that is where it has to be evaluated.
-/

namespace Cascade

/-- What a parameter is bound to. -/
inductive Binding where
  /-- An argument, evaluated where the call is. -/
  | argument (t : Text)
  /-- A default, evaluated inside the mixin. -/
  | fallback (raw : Raw)
deriving DecidableEq, Repr

abbrev Bindings := List (Text × Binding)

structure Layer where
  block : Block
  bindings : Bindings

abbrev Scope := List Layer

/-- What a variable stands for. -/
inductive Meaning where
  /-- Final text. -/
  | evaluated (t : Text)
  /-- A raw value and the scope it is evaluated in. -/
  | raw (value : Raw) (home : Scope)

namespace Scope

def ofBlock (b : Block) : Scope := [⟨b, []⟩]

def nest (s : Scope) (b : Block) : Scope := ⟨b, []⟩ :: s

/-- The body of a mixin with its parameters bound, in the scope the mixin is
defined in. -/
def ofCall (home : Scope) (b : Block) (bindings : Bindings) : Scope := ⟨b, bindings⟩ :: home

end Scope

/-! ## Imported names -/

mutual

/-- A variable of a file, or of the files it imports. -/
def Document.meaning? (name : Text) : Document → Option Meaning
  | ⟨_, block⟩ => block.rootMeaning? name

def Block.rootMeaning? (name : Text) : Block → Option Meaning
  | ⟨imports, definitions, declarations, children⟩ =>
    match definitions.lookup name with
    | some value => some (.raw value (.ofBlock ⟨imports, definitions, declarations, children⟩))
    | none => importedMeaning? name imports

def Import.meaning? (name : Text) : Import → Option Meaning
  | .sheet document => document.meaning? name
  | .css _ => none

/-- A variable of the first import that has it. -/
def importedMeaning? (name : Text) : List Import → Option Meaning
  | [] => none
  | i :: rest =>
    match i.meaning? name with
    | some found => some found
    | none => importedMeaning? name rest

end

mutual

/-- The rule that a call of the name would expand, in a file or in one that it
imports, with its home. -/
def Document.mixin? (name : Text) : Document → Option (Rule × Scope)
  | ⟨_, block⟩ => block.rootMixin? name

def Block.rootMixin? (name : Text) : Block → Option (Rule × Scope)
  | ⟨imports, definitions, declarations, children⟩ =>
    match children.find? (·.answersTo name) with
    | some rule => some (rule, .ofBlock ⟨imports, definitions, declarations, children⟩)
    | none => importedMixin? name imports

def Import.mixin? (name : Text) : Import → Option (Rule × Scope)
  | .sheet document => document.mixin? name
  | .css _ => none

def importedMixin? (name : Text) : List Import → Option (Rule × Scope)
  | [] => none
  | i :: rest =>
    match i.mixin? name with
    | some found => some found
    | none => importedMixin? name rest

end

namespace Scope

/-- What a variable means in the innermost layer alone. -/
def ownMeaning? (name : Text) (layer : Layer) (outer : Scope) : Option Meaning :=
  match layer.bindings.lookup name with
  | some (.argument t) => some (.evaluated t)
  | some (.fallback value) => some (.raw value (layer :: outer))
  | none =>
    match layer.block.definitions.lookup name with
    | some value => some (.raw value (layer :: outer))
    | none => importedMeaning? name layer.block.imports

/-- What a variable means in a scope. -/
def meaning? (name : Text) : Scope → Option Meaning
  | [] => none
  | layer :: outer =>
    match ownMeaning? name layer outer with
    | some found => some found
    | none => meaning? name outer

/-- The rule that a call of the name expands in a scope, with its home. -/
def mixin? (name : Text) : Scope → Option (Rule × Scope)
  | [] => none
  | layer :: outer =>
    match layer.block.children.find? (·.answersTo name) with
    | some rule => some (rule, layer :: outer)
    | none =>
      match importedMixin? name layer.block.imports with
      | some found => some found
      | none => mixin? name outer

end Scope

/-! ## Definitions -/

/-- The identity of a definition: the name and where its value stands. -/
abbrev DefinitionKey := Text × Span

def Parameter.key? (p : Parameter) : Option DefinitionKey :=
  p.fallback.map fun value => (p.name, value.span)

/-- The keys of the defaults of a rule's parameters. -/
def RuleKind.keys : RuleKind → List DefinitionKey
  | .mixin parameters => parameters.filterMap Parameter.key?
  | _ => []

mutual

/-- The keys of every definition in a document, at any depth and in every file
it imports. -/
def Document.keys : Document → List DefinitionKey
  | ⟨_, block⟩ => block.keys

def Block.keys : Block → List DefinitionKey
  | ⟨imports, definitions, _, children⟩ =>
    definitions.map (fun (name, value) => (name, value.span)) ++ importKeys imports ++
      ruleKeys children

def Rule.keys : Rule → List DefinitionKey
  | ⟨_, _, kind, _, block, _⟩ => kind.keys ++ block.keys

def Import.keys : Import → List DefinitionKey
  | .sheet document => document.keys
  | .css _ => []

def importKeys : List Import → List DefinitionKey
  | [] => []
  | i :: rest => i.keys ++ importKeys rest

def ruleKeys : List Rule → List DefinitionKey
  | [] => []
  | r :: rest => r.keys ++ ruleKeys rest

end

end Cascade
