import Cascade.Sheet
import Cascade.Warning

/-!
# Chains of conditions

Sibling rules with conditions form chains: `@if` begins one, `@elseif` goes on,
`@else` ends it, and so does a rule without a condition. Of a chain at most one
rule is taken, and no condition is tested once a rule has been.
-/

namespace Cascade

/-- Where a sequence of siblings stands. -/
inductive Chain where
  | outside
  /-- Every condition of the chain so far was false. -/
  | pending
  /-- A rule of the chain has been taken. -/
  | taken
deriving DecidableEq, Repr

/-- What is to be done with the next sibling. -/
inductive Branch where
  | take
  | skip
  /-- The condition decides, and so does it on the chain. -/
  | test (condition : Raw)
  | orphan (warning : Warning)
deriving DecidableEq, Repr

namespace Chain

/-- The branch for a rule with the given condition, and the chain after it where
that does not depend on a test. -/
def branch (chain : Chain) : Option Condition → Branch × Chain
  | none => (.take, outside)
  | some (.test condition) => (.test condition, chain)
  | some (.orTest condition) =>
    match chain with
    | outside => (.orphan .orphanElseif, outside)
    | pending => (.test condition, pending)
    | taken => (.skip, taken)
  | some .otherwise =>
    match chain with
    | outside => (.orphan .orphanElse, outside)
    | pending => (.take, outside)
    | taken => (.skip, outside)

/-- The chain after a test. -/
def record (outcome : Bool) : Chain := if outcome then taken else pending

end Chain

end Cascade
