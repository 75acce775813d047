import Cascade.Source

/-!
# Faults

What can make a stylesheet impossible to compile. A `Cause` says what is wrong
in the terms of the language; its wording is in `Cause.message` alone, and its
class in `Cause.category`. A `Fault` is a cause with the span it is blamed on.
-/

namespace Cascade

/-- The broad class of a cause. -/
inductive Category where
  | syntactic
  | missingParameter
  | unitMismatch
  | invalidColor
  | invalidArgument
  | recursion
  | importing
deriving DecidableEq, Repr

def Category.description : Category → Text
  | .syntactic => "syntax error"
  | .missingParameter => "missing parameter"
  | .unitMismatch => "unit mismatch"
  | .invalidColor => "invalid color"
  | .invalidArgument => "invalid argument"
  | .recursion => "recursion"
  | .importing => "import error"

inductive Cause where
  /-- A block is still open at the end of the source. -/
  | unclosedBlock
  /-- A `}` at the top level. -/
  | unmatchedBrace
  /-- A variable or an import that does not end. -/
  | missingSemicolon
  /-- A statement at the top level that is not followed by a block. -/
  | missingBlock
  | missingColon (declaration : Text)
  | missingPropertyName
  | missingMixinName
  | unclosedArguments
  /-- Something stands between a mixin call and its end. -/
  | trailingText
  | bareParameter (parameter : Text)
  | invalidParameter (parameter : Text)
  | duplicateParameter (parameter mixin : Text)
  | importNotFound
  | importCycle
  | importUnreadable (path reason : Text)
  | importUndecodable (path : Text)
  | variableCycle (name : Text)
  | mixinsTooDeep (mixin : Text) (limit : Nat)
  | missingArgument (parameter mixin : Text)
  /-- The operands of an operation carry two units. -/
  | mixedUnits (first second : Text)
  /-- A text that begins as a color but is none, as an operand. -/
  | badColorOperand (text : Text)
  /-- The arguments of a function, or the sides of a comparison, carry two units. -/
  | mixedArgumentUnits (first second : Text)
  /-- A text that begins as a color but is none, as an argument. -/
  | badColorArgument (text : Text)
  | colorAgainstNumber (condition : Text)
  | noArguments (function : Text)
  | absentArgument (function argument : Text)
  | numbersExpected (function found : Text)
  | numberExpected (function found : Text)
  | colorExpected (function found : Text)
  | percentageExpected (function found : Text)
deriving DecidableEq, Repr

namespace Cause

def category : Cause → Category
  | unclosedBlock | unmatchedBrace | missingSemicolon | missingBlock | missingColon _
  | missingPropertyName | missingMixinName | unclosedArguments | trailingText
  | bareParameter _ | invalidParameter _ | duplicateParameter _ _ => .syntactic
  | importNotFound | importCycle | importUnreadable _ _ | importUndecodable _ => .importing
  | variableCycle _ | mixinsTooDeep _ _ => .recursion
  | missingArgument _ _ => .missingParameter
  | mixedUnits _ _ | mixedArgumentUnits _ _ | colorAgainstNumber _ => .unitMismatch
  | badColorOperand _ | badColorArgument _ => .invalidColor
  | noArguments _ | absentArgument _ _ | numbersExpected _ _ | numberExpected _ _
  | colorExpected _ _ | percentageExpected _ _ => .invalidArgument

def message : Cause → Text
  | unclosedBlock => "expected \"\x7d\"."
  | unmatchedBrace => "unmatched \"\x7d\"."
  | missingSemicolon => "expected \";\"."
  | missingBlock => "expected \"\x7b\"."
  | missingColon declaration => "expected \":\" in declaration \"" ++ declaration ++ "\"."
  | missingPropertyName => "expected a property name."
  | missingMixinName => "expected a mixin name."
  | unclosedArguments => "expected \")\"."
  | trailingText => "expected \";\" after mixin call."
  | bareParameter parameter =>
    "Invalid mixin declaration: expected \"@\" before \"" ++ parameter ++ "\"."
  | invalidParameter parameter => "Invalid mixin parameter \"@" ++ parameter ++ "\"."
  | duplicateParameter parameter mixin =>
    "Duplicate parameter \"@" ++ parameter ++ "\" in mixin " ++ mixin ++ "."
  | importNotFound => "Can't find stylesheet to import."
  | importCycle => "This file is already being loaded."
  | importUnreadable path reason => "Error reading " ++ path ++ ": " ++ reason
  | importUndecodable path => path ++ " is not valid UTF-8."
  | variableCycle name => "Variable @" ++ name ++ " is defined in terms of itself."
  | mixinsTooDeep mixin limit =>
    "Mixin " ++ mixin ++ " is nested more than " ++ limit.repr ++ " calls deep."
  | missingArgument parameter mixin =>
    "Missing argument for parameter @" ++ parameter ++ " of mixin " ++ mixin ++ "."
  | mixedUnits first second =>
    "Mixing units inside expression (\"" ++ first ++ "\" and \"" ++ second ++ "\")."
  | badColorOperand text => "Invalid color format inside expression \"" ++ text ++ "\"."
  | mixedArgumentUnits first second =>
    "Calling function with several different units (\"" ++ first ++ "\" and \"" ++ second ++ "\")."
  | badColorArgument text => "Invalid color format inside function call \"" ++ text ++ "\"."
  | colorAgainstNumber condition =>
    "Cannot compare a color with a number in \"" ++ condition ++ "\"."
  | noArguments function => function ++ "() requires at least one argument."
  | absentArgument function argument => function ++ "() is missing argument " ++ argument ++ "."
  | numbersExpected function found =>
    function ++ "() expects numbers, found color \"" ++ found ++ "\"."
  | numberExpected function found =>
    function ++ "() expects a number, found color \"" ++ found ++ "\"."
  | colorExpected function found => function ++ "() expects a color, found \"" ++ found ++ "\"."
  | percentageExpected function found =>
    function ++ "() expects a percentage, found color \"" ++ found ++ "\"."

end Cause

structure Fault where
  cause : Cause
  span : Span
deriving DecidableEq, Repr

end Cascade
