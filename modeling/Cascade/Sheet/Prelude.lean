import Cascade.Fault
import Cascade.Sheet

/-!
# Preludes

The prelude of a block is what stands before its `{`, with white space
collapsed. From its end a condition is taken off; what is left is a mixin
signature, the prelude of an at-rule or a list of selectors.
-/

namespace Cascade

namespace Condition

/-- What precedes a keyword at the end of a text, if the keyword stands on its
own there. -/
def beforeKeyword? (keyword head : Text) : Option Text :=
  match Text.before? keyword head with
  | some selector =>
    if selector.isEmpty ∨ selector.getLast? = some ' ' then some selector.trimEnd else none
  | none => none

/-- Takes `@if (...)`, `@elseif (...)` or `@else` off the end of a prelude. -/
def split (prelude : Text) (span : Span) : Text × Option Condition :=
  if prelude = "@else".toList then ([], some .otherwise)
  else
    match Text.before? " @else" prelude with
    | some selector => (selector, some .otherwise)
    | none =>
      match Text.lastGroup? prelude with
      | none => (prelude, none)
      | some (before, inside) =>
        match beforeKeyword? "@elseif" before.trimEnd, beforeKeyword? "@if" before.trimEnd with
        | some selector, _ => (selector, some (.orTest ⟨inside.trim, span⟩))
        | none, some selector => (selector, some (.test ⟨inside.trim, span⟩))
        | none, none => (prelude, none)

end Condition

/-- The name of a mixin, with its leading `.`, and its parameters. -/
structure Signature where
  name : Text
  parameters : List Parameter
deriving DecidableEq, Repr

namespace Signature

/-- One parameter, `@name` or `@name: default`, written in the mixin of the
given name after the parameters `before`. -/
def readParameter (mixin : Text) (span : Span) (before : List Parameter) (piece : Text) :
    Except Fault Parameter :=
  match Text.after? "@" piece with
  | none => .error ⟨.bareParameter piece, span⟩
  | some declaration =>
    let name := Text.trim (declaration.takeWhile (· ≠ ':'))
    let fallback : Option Raw :=
      match declaration.dropWhile (· ≠ ':') with
      | [] => none
      | _ :: text => some ⟨Text.trim text, span⟩
    if name.isEmpty ∨ ¬ name.all isNameChar then .error ⟨.invalidParameter name, span⟩
    else if before.any (·.name == name) then .error ⟨.duplicateParameter name mixin, span⟩
    else .ok ⟨name, fallback⟩

/-- Parameters are separated by `;` if there is one at top level, and by `,`
otherwise. Blank pieces are skipped. -/
def readParameters (mixin : Text) (span : Span) (inside : Text) :
    Except Fault (List Parameter) :=
  let separator := if Text.hasTop ';' inside then ';' else ','
  let pieces := (Text.splitTop separator .top inside).map Text.trim
  (pieces.filter (!·.isEmpty)).foldlM
    (fun before piece => (readParameter mixin span before piece).map fun p => before ++ [p]) []

/-- Reads `.name(...)`. Any other selector is no signature. -/
def read? (selector : Text) (span : Span) : Except Fault (Option Signature) :=
  match Text.after? "." selector with
  | none => .ok none
  | some rest =>
    let name := rest.takeWhile isNameChar
    if name.isEmpty then .ok none
    else
      match Text.lastGroup? (Text.trimStart (rest.drop name.length)) with
      | some ([], inside) =>
        (readParameters ('.' :: name) span inside).map fun parameters =>
          some ⟨'.' :: name, parameters⟩
      | _ => .ok none

end Signature

end Cascade
