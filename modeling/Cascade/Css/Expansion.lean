import Cascade.Css.Chain
import Cascade.Css.Writer
import Cascade.Evaluation

/-!
# Expansion

The declarations of a block with its mixin calls expanded in place. A call is
looked up in the scope it stands in, its arguments are evaluated there, and the
body of the mixin is expanded where the mixin is defined. A call of an unknown
mixin is ignored with a warning.

Mixins may call each other, so the number of calls inside each other is limited;
`depth` counts how many more there may be.
-/

namespace Cascade

/-- What writing a document goes through: the text so far and the warnings,
which are kept also when writing fails. -/
structure Draft where
  writer : Css.Writer
  warnings : Warnings

abbrev Drafting := ExceptT Fault (StateM Draft)

namespace Drafting

def warn (span : Span) (w : Warning) : Drafting PUnit :=
  modify fun d => { d with warnings := d.warnings.add span w }

def write (f : Css.Writer → Css.Writer) : Drafting PUnit :=
  modify fun d => { d with writer := f d.writer }

end Drafting

/-- The greatest number of mixin calls inside each other. -/
def mixinLimit : Nat := 100

namespace MixinCall

/-- The argument for the parameter with the given number, unless it is blank. -/
def argument? (c : MixinCall) (i : Nat) : Option Raw :=
  match c.arguments[i]? with
  | some a => if a.text.isEmpty then none else some a
  | none => none

/-- Binds a parameter: to its argument, evaluated where the call is, or else to
its default. -/
def bind (idle : List DefinitionKey) (c : MixinCall) (mixin : Text) (caller : Scope)
    (p : Parameter) (i : Nat) : Except Fault (Text × Binding) :=
  match c.argument? i, p.fallback with
  | some a, _ => (caller.evaluate idle a).map fun t => (p.name, .argument t)
  | none, some value => .ok (p.name, .fallback value)
  | none, none => .error ⟨.missingArgument p.name mixin, c.span⟩

/-- Binds the parameters of a rule in order. A style rule has none. -/
def bindings (idle : List DefinitionKey) (c : MixinCall) (rule : Rule) (caller : Scope) :
    Except Fault Bindings :=
  match rule.kind with
  | .mixin parameters => parameters.zipIdx.mapM fun (p, i) => c.bind idle rule.name caller p i
  | _ => .ok []

end MixinCall

/-- The declarations of a block in its scope, with at most `depth` mixin calls
inside each other. -/
def Scope.declarations (idle : List DefinitionKey) (depth : Nat) (scope : Scope) (block : Block) :
    Drafting (List Css.Declaration) := do
  let expanded ← block.declarations.mapM fun
    | .property p => do return [⟨p.name, ← scope.evaluate idle p.value⟩]
    | .call c =>
      match scope.mixin? c.name with
      | none => do
        Drafting.warn c.span (.undefinedMixin c.name)
        return []
      | some (rule, home) =>
        match depth with
        | 0 => throw ⟨.mixinsTooDeep c.name mixinLimit, c.span⟩
        | depth + 1 => do
          let bindings ← c.bindings idle rule scope
          Scope.declarations idle depth (home.ofCall rule.block bindings) rule.block
  return expanded.flatten

end Cascade
