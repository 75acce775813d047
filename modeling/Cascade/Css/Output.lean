import Cascade.Css.Expansion

/-!
# Output

How a document becomes CSS. What it imports comes first, then its own rules, each
evaluated in the scope of the blocks around it. A style rule writes its
declarations and then its nested rules; an at-rule wraps the output of its body,
and its own declarations go to the selectors it is nested in, if there are any.
Mixins with a parameter list write nothing where they stand.
-/

namespace Cascade

namespace Chain

/-- Whether a condition holds in the scope its rule is declared in. A text that
is no condition is false, with a warning. -/
def test (idle : List DefinitionKey) (scope : Scope) (condition : Raw) : Drafting Bool := do
  let t ← scope.evaluate idle condition
  match ← blame condition.span (Comparison.decide t) with
  | some outcome => return outcome
  | none => do
    Drafting.warn condition.span (.malformedCondition t)
    return false

/-- Whether a rule takes part in the output, and the chain after it. -/
def takes (idle : List DefinitionKey) (scope : Scope) (chain : Chain) (rule : Rule) :
    Drafting (Bool × Chain) :=
  match chain.branch rule.condition with
  | (.take, chain) => return (true, chain)
  | (.skip, chain) => return (false, chain)
  | (.orphan warning, chain) => do
    Drafting.warn rule.span warning
    return (false, chain)
  | (.test condition, _) => do
    let outcome ← test idle scope condition
    return (outcome, record outcome)

end Chain

/-- Writes an at-rule with the given selectors and declarations around what
`children` writes. -/
def Drafting.atRule (prelude : Text) (selectors : List Text)
    (declarations : List Css.Declaration) (children : Drafting PUnit) : Drafting PUnit := do
  let mark ← modifyGet fun d =>
    let (mark, writer) := d.writer.openBlock prelude
    (mark, { d with writer })
  if !declarations.isEmpty then
    if selectors.isEmpty then Drafting.write (·.bareDeclarations declarations)
    else Drafting.write (·.styleRule selectors declarations)
  children
  Drafting.write (·.closeBlock mark)

mutual

/-- Writes a rule that takes part in the output. -/
def Rule.draft (idle : List DefinitionKey) (scope : Scope) : Rule → Drafting PUnit
  | ⟨selectors, _, kind, _, ⟨imports, definitions, own, children⟩, _⟩ => do
    let block : Block := ⟨imports, definitions, own, children⟩
    let inner := scope.nest block
    match kind with
    | .mixin _ => return
    | .directive t => Drafting.write (·.directive t)
    | .style => do
      let declarations ← inner.declarations idle mixinLimit block
      if !declarations.isEmpty && !selectors.isEmpty then
        Drafting.write (·.styleRule selectors declarations)
      draftRules idle inner .outside children
    | .atRule prelude => do
      let declarations ← inner.declarations idle mixinLimit block
      if selectors.isEmpty && children.isEmpty then
        if !declarations.isEmpty then
          Drafting.write (·.inlineAtRule prelude declarations)
      else
        Drafting.atRule prelude selectors declarations (draftRules idle inner .outside children)

/-- Writes the rules of a block, whose scope is given, after a chain. -/
def draftRules (idle : List DefinitionKey) (scope : Scope) (chain : Chain) :
    List Rule → Drafting PUnit
  | [] => return
  | rule :: rest => do
    let (taken, chain) ← chain.takes idle scope rule
    if taken then rule.draft idle scope
    draftRules idle scope chain rest

end

mutual

/-- Writes a document, and before it all that it imports. -/
def Document.draft (idle : List DefinitionKey) : Document → Drafting PUnit
  | ⟨_, ⟨imports, definitions, own, children⟩⟩ => do
    draftImports idle imports
    draftRules idle (.ofBlock ⟨imports, definitions, own, children⟩) .outside children

def Import.draft (idle : List DefinitionKey) : Import → Drafting PUnit
  | .sheet document => document.draft idle
  | .css t => Drafting.write (·.raw t)

def draftImports (idle : List DefinitionKey) : List Import → Drafting PUnit
  | [] => return
  | i :: rest => do
    i.draft idle
    draftImports idle rest

end

/-- The CSS of a document, or what keeps it from being written, and the warnings
raised on the way. -/
def Document.css (d : Document) : Except Fault Text × Warnings :=
  let (result, draft) := (d.draft d.keys).run ⟨.empty, []⟩
  (result.map fun _ => draft.writer.text, draft.warnings)

end Cascade
