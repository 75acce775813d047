import Cascade.Fault
import Cascade.Sheet
import Cascade.Source.Slice

/-!
# Statements inside a block

How a property and a mixin call are read from the slice that holds them. The
number in front of the slice is that of its source.
-/

namespace Cascade

/-- `name: value`. The name ends at the first colon, wherever it stands. -/
def Property.read (source : Nat) (whole : Slice) : Except Fault Property :=
  match whole.cutAt? ':' with
  | none => .error ⟨.missingColon whole.collapsed, whole.span source⟩
  | some (name, value) =>
    if name.collapsed.isEmpty then .error ⟨.missingPropertyName, whole.span source⟩
    else .ok ⟨name.collapsed, ⟨value.trimmed, value.span source⟩⟩

namespace MixinCall

/-- The arguments between a pair of parentheses, separated by `;` if there is
one at top level, and by `,` otherwise. One blank argument is none at all. -/
def readArguments (source : Nat) (inside : Slice) : List Raw :=
  let separator := if 1 < (inside.splitTop ';').length then ';' else ','
  match (inside.splitTop separator).map fun piece => Raw.mk piece.trimmed (piece.span source) with
  | [⟨[], _⟩] => []
  | arguments => arguments

/-- The arguments at the beginning of a slice, and what follows them; nothing if
the parenthesis is not closed. -/
def readArgumentList? (source : Nat) (s : Slice) : Option (List Raw × Slice) :=
  match s.text with
  | '(' :: _ =>
    let (inside, rest) := (s.drop 1).untilTop (· == ')')
    if rest.length = 0 then none
    else some (readArguments source inside, (rest.drop 1).dropGap)
  | _ => some ([], s)

/-- Skips `!important`, which has no effect on a mixin call. -/
def dropImportant (s : Slice) : Slice :=
  let mark : Text := "!important"
  match Text.after? mark s.text with
  | some _ => (s.drop mark.length).dropGap
  | none => s

/-- `.name` or `.name(...)`. -/
def read (source : Nat) (whole : Slice) : Except Fault MixinCall :=
  let span := whole.span source
  let name := (whole.text.drop 1).takeWhile isNameChar
  if name.isEmpty then .error ⟨.missingMixinName, span⟩
  else
    match readArgumentList? source (whole.drop (1 + name.length)).dropGap with
    | none => .error ⟨.unclosedArguments, span⟩
    | some (arguments, rest) =>
      if (dropImportant rest).length = 0 then .ok ⟨'.' :: name, arguments, span⟩
      else .error ⟨.trailingText, span⟩

end MixinCall

end Cascade
