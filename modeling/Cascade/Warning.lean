import Cascade.Source

/-!
# Warnings

What is passed through unresolved or ignored. A construct is warned about once,
however often it is reached; the span tells constructs apart.
-/

namespace Cascade

inductive Warning where
  | undefinedMixin (name : Text)
  | orphanElseif
  | orphanElse
  | malformedCondition (condition : Text)
deriving DecidableEq, Repr

def Warning.message : Warning → Text
  | undefinedMixin name => "Mixin " ++ name ++ " is not defined; the call is ignored."
  | orphanElseif => "@elseif without a preceding @if is ignored."
  | orphanElse => "@else without a preceding @if is ignored."
  | malformedCondition condition =>
    "Malformed condition \"" ++ condition ++ "\" is treated as false."

/-- Warnings in the order they arose, with no two for one span. -/
abbrev Warnings := List (Span × Warning)

def Warnings.add (log : Warnings) (span : Span) (w : Warning) : Warnings :=
  if log.any (·.1 == span) then log else log ++ [(span, w)]

end Cascade
