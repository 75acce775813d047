import Cascade.Text

/-!
# Notes

What the reader recognizes, for those who ask to be told.
-/

namespace Cascade

inductive Note where
  | definition (name value : Text)
  | directive (text : Text)
  | mixin (name : Text) (parameters : Nat)
  | atRule (prelude : Text)
  | rule (selectors : List Text)
  | call (name : Text) (arguments : Nat)
  | importing (path : Text)
  /-- An import that is left to whoever reads the output. -/
  | passing (statement : Text)
deriving DecidableEq, Repr

def Note.message : Note → Text
  | definition name value => "variable @" ++ name ++ ": " ++ value
  | directive text => "directive " ++ text
  | mixin name parameters => "mixin " ++ name ++ " with " ++ parameters.repr ++ " parameter(s)"
  | atRule prelude => "at-rule " ++ prelude
  | rule selectors => "rule " ++ Text.join ", " selectors
  | call name arguments => "mixin call " ++ name ++ " with " ++ arguments.repr ++ " argument(s)"
  | importing path => "importing " ++ path
  | passing statement => "passing through " ++ statement

end Cascade
