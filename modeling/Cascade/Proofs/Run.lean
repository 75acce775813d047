import Cascade.Css.Output

/-!
# A run of the output

`Document.css` hands down what is in progress: the keys of the definitions that
are idle, and the number of mixin calls that may still be nested. Here the same
work is done on one state that is changed in place, `Run`: a stack of the
definitions being evaluated, a count of the mixin calls being expanded, and the
draft. A definition is pushed before its value is evaluated and popped after, and
a call is counted before its body is expanded and uncounted after, also when
either fails.

Nothing here bounds the nesting but the two checks themselves, so the functions
are fixed points over `Option`, in which `none` is a run that does not end. That
every run ends, leaves stack and count as they were and writes what `Document.css`
writes is what `Running.Follows` states, one step at a time.

A run also keeps a record of itself: `history` has every moment at which something
was begun, and `reached` the bodies of the rules that were visited.
-/

namespace Cascade

instance : LawfulBEq DefinitionKey := inferInstance

/-- What is in progress. -/
structure Moment where
  /-- The definitions whose values are being evaluated, the latest first. -/
  resolving : List DefinitionKey
  /-- The number of mixin calls being expanded, each inside the one before. -/
  depth : Nat

structure Run where
  now : Moment
  draft : Draft
  history : List Moment
  reached : List Scope

/-- A step of a run, which may fail with a fault. -/
abbrev Running := ExceptT Fault (StateT Run Option)

namespace Run

def start : Run := ⟨⟨[], 0⟩, ⟨.empty, []⟩, [], []⟩

/-- Begins what makes the given moment. -/
def beginning (now : Moment) (r : Run) : Run := { r with now, history := now :: r.history }

def push (key : DefinitionKey) (r : Run) : Run :=
  r.beginning { r.now with resolving := key :: r.now.resolving }

def pop (r : Run) : Run := { r with now := { r.now with resolving := r.now.resolving.tail } }

def enter (r : Run) : Run := r.beginning { r.now with depth := r.now.depth + 1 }

def leave (r : Run) : Run := { r with now := { r.now with depth := r.now.depth - 1 } }

end Run

namespace Running

/-- A step that only concerns the draft. -/
def drafting {α : Type} (m : Drafting α) : Running α := fun r =>
  some ((m.run.run r.draft).1, { r with draft := (m.run.run r.draft).2 })

def reach (body : Scope) : Running PUnit :=
  modify fun r => { r with reached := body :: r.reached }

end Running

/-! ## Values -/

mutual

/-- Evaluates a raw value in a scope. -/
def Scope.runValue (scope : Scope) (raw : Raw) : Running Text := do
  let tokens ← scope |>.runTokens raw.span (Token.ofText raw.text)
  let v ← blame raw.span (Token.value tokens)
  return v.css
partial_fixpoint

/-- Evaluates a definition in its home, unless it is being evaluated already. -/
def Scope.runDefinition (home : Scope) (name : Text) (value : Raw) (used : Span) : Running Text :=
  fun r => do
    if (name, value.span) ∈ r.now.resolving then return (.error ⟨.variableCycle name, used⟩, r)
    else
      let (result, r) ← (home |>.runValue value).run.run (r.push (name, value.span))
      return (result, r.pop)
partial_fixpoint

/-- Puts the tokens of their values in the place of variables, at any depth. -/
def Scope.runTokens (scope : Scope) (used : Span) : List Token → Running (List Token)
  | [] => return []
  | .reference name :: rest => do
    let first ←
      match scope.meaning? name with
      | none => pure [.word ('@' :: name)]
      | some (.evaluated t) => pure (Token.ofText t)
      | some (.raw value home) => do
        let t ← home |>.runDefinition name value used
        pure (Token.ofText t)
    let others ← scope |>.runTokens used rest
    return first ++ others
  | .call name arguments :: rest => do
    let inside ← scope |>.runTokens used arguments
    let others ← scope |>.runTokens used rest
    return .call name inside :: others
  | .group inside :: rest => do
    let inside ← scope |>.runTokens used inside
    let others ← scope |>.runTokens used rest
    return .group inside :: others
  | token :: rest => do
    let others ← scope |>.runTokens used rest
    return token :: others
partial_fixpoint

end

/-! ## Mixin calls -/

/-- Binds the parameters of a rule, evaluating arguments where the call is. -/
def MixinCall.runBindings (c : MixinCall) (rule : Rule) (caller : Scope) : Running Bindings :=
  match rule.kind with
  | .mixin parameters => parameters.zipIdx.mapM fun (p, i) =>
    match c.argument? i, p.fallback with
    | some a, _ => do
      let t ← caller.runValue a
      return (p.name, .argument t)
    | none, some value => return (p.name, .fallback value)
    | none, none => throw ⟨.missingArgument p.name rule.name, c.span⟩
  | _ => return []

mutual

/-- The declarations of a block in its scope, with mixin calls expanded in place. -/
def Scope.runDeclarations (scope : Scope) (block : Block) : Running (List Css.Declaration) := do
  let expanded ← block.declarations.mapM fun
    | .property p => do
      let t ← scope.runValue p.value
      return [⟨p.name, t⟩]
    | .call c => scope |>.runCall c
  return expanded.flatten
partial_fixpoint

/-- Expands a mixin call, unless too many are being expanded already. -/
def Scope.runCall (scope : Scope) (c : MixinCall) : Running (List Css.Declaration) := do
  match scope.mixin? c.name with
  | none => do
    Running.drafting (.warn c.span (.undefinedMixin c.name))
    return []
  | some (rule, home) => do
    if mixinLimit ≤ (← get).now.depth then throw ⟨.mixinsTooDeep c.name mixinLimit, c.span⟩
    let bindings ← c.runBindings rule scope
    home.ofCall rule.block bindings |>.runBody rule.block
partial_fixpoint

/-- Expands the body of a mixin, one call further in. -/
def Scope.runBody (scope : Scope) (block : Block) : Running (List Css.Declaration) :=
  fun r => do
    let (result, r) ← (scope |>.runDeclarations block).run.run r.enter
    return (result, r.leave)
partial_fixpoint

end

/-! ## Rules and documents -/

def Chain.runTest (scope : Scope) (condition : Raw) : Running Bool := do
  let t ← scope.runValue condition
  match ← blame condition.span (Comparison.decide t) with
  | some outcome => return outcome
  | none => do
    Running.drafting (.warn condition.span (.malformedCondition t))
    return false

def Chain.runTakes (scope : Scope) (chain : Chain) (rule : Rule) : Running (Bool × Chain) :=
  match chain.branch rule.condition with
  | (.take, chain) => return (true, chain)
  | (.skip, chain) => return (false, chain)
  | (.orphan warning, chain) => do
    Running.drafting (.warn rule.span warning)
    return (false, chain)
  | (.test condition, _) => do
    let outcome ← Chain.runTest scope condition
    return (outcome, record outcome)

/-- The declarations of a rule that is visited. -/
def Scope.runVisit (body : Scope) (block : Block) : Running (List Css.Declaration) := do
  Running.reach body
  body.runDeclarations block

def Running.atRule (prelude : Text) (selectors : List Text)
    (declarations : List Css.Declaration) (children : Running PUnit) : Running PUnit := do
  let mark ← Running.drafting (modifyGet fun d =>
    let (mark, writer) := d.writer.openBlock prelude
    (mark, { d with writer }))
  if !declarations.isEmpty then
    if selectors.isEmpty then Running.drafting (.write (·.bareDeclarations declarations))
    else Running.drafting (.write (·.styleRule selectors declarations))
  children
  Running.drafting (.write (·.closeBlock mark))

mutual

def Rule.run (scope : Scope) : Rule → Running PUnit
  | ⟨selectors, _, kind, _, ⟨imports, definitions, own, children⟩, _⟩ => do
    let block : Block := ⟨imports, definitions, own, children⟩
    let inner := scope.nest block
    match kind with
    | .mixin _ => return
    | .directive t => Running.drafting (.write (·.directive t))
    | .style => do
      let declarations ← inner.runVisit block
      if !declarations.isEmpty && !selectors.isEmpty then
        Running.drafting (.write (·.styleRule selectors declarations))
      runRules inner .outside children
    | .atRule prelude => do
      let declarations ← inner.runVisit block
      if selectors.isEmpty && children.isEmpty then
        if !declarations.isEmpty then
          Running.drafting (.write (·.inlineAtRule prelude declarations))
      else
        Running.atRule prelude selectors declarations (runRules inner .outside children)

def runRules (scope : Scope) (chain : Chain) : List Rule → Running PUnit
  | [] => return
  | rule :: rest => do
    let (taken, chain) ← chain.runTakes scope rule
    if taken then rule.run scope
    runRules scope chain rest

end

mutual

def Document.run : Document → Running PUnit
  | ⟨_, ⟨imports, definitions, own, children⟩⟩ => do
    runImports imports
    runRules (.ofBlock ⟨imports, definitions, own, children⟩) .outside children

def Import.run : Import → Running PUnit
  | .sheet document => document.run
  | .css t => Running.drafting (.write (·.raw t))

def runImports : List Import → Running PUnit
  | [] => return
  | i :: rest => do
    i.run
    runImports rest

end

end Cascade
