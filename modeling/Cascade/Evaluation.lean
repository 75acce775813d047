import Cascade.Idle
import Cascade.Scope
import Cascade.Value.Builtin
import Cascade.Value.Expression
import Cascade.Value.Operation

/-!
# Evaluation

A raw value is evaluated in a scope in three steps: it is cut into tokens, each
variable is replaced by the tokens of its evaluated value, and the expression is
computed. Whatever cannot be resolved or computed is written as it was.

Substitution only looks at variables and computation only at the result, so each
is defined on its own. `Token.compute` computes a token in every way that its
surroundings may ask for: parentheses group an operand and are gone, parentheses
around a term stay if they change nothing, and inside a call of an unknown
function only known functions are computed.
-/

namespace Cascade

/-! ## Computing expressions -/

/-- What a token amounts to as a term, as an operand, and inside text that is
kept as it is. -/
structure Computed where
  value : Except Cause Value
  operand : Except Cause Value
  verbatim : Except Cause Text

namespace Arithmetic

/-- An operation that cannot be computed is written with single spaces, and a
missing operand is left out. -/
def written (left : Text) (o : Operator) (right : Text) : Text :=
  Text.join [' '] ([left, [o.char], right].filter (!·.isEmpty))

/-- The value of an expression as the operand of another. -/
def operand : Arithmetic Computed → Except Cause Value
  | missing => .ok (.text [])
  | term a => a.operand
  | binary left o right => do
    let l ← left.operand
    let r ← right.operand
    match ← o.operate l r with
    | some v => return v
    | none => return .text (written l.css o r.css)

/-- The value of an expression that stands on its own. -/
def value : Arithmetic Computed → Except Cause Value
  | term a => a.value
  | e => e.operand

end Arithmetic

def Item.css : Item Computed → Except Cause Text
  | separator s => .ok s.text
  | expression e => e.value.map Value.css

/-- The value of a list is the text of its items, one after the other. -/
def Expression.value : Expression Computed → Except Cause Value
  | single e => e.value
  | list items => (items.mapM Item.css).map fun texts => .text texts.flatten

namespace Computed

def ofValue (v : Except Cause Value) : Computed := ⟨v, v, v.map Value.css⟩

/-- A term that is written as it is wherever it is not computed. -/
def ofText (v : Value) (t : Text) : Computed := ⟨.ok v, .ok v, .ok t⟩

end Computed

/-- What separates terms is text wherever it stands. -/
def Piece.verbatim : Piece Computed → Except Cause Text
  | separator s => .ok s.text
  | operator o => .ok [' ', o.char, ' ']
  | term a => a.verbatim

namespace Piece

def verbatims (pieces : List (Piece Computed)) : Except Cause Text :=
  (pieces.mapM verbatim).map List.flatten

/-- The value of a run of tokens. -/
def valueOf (pieces : List (Piece Computed)) : Except Cause Value :=
  (Expression.ofPieces pieces).value

/-- The arguments of a call, which commas separate. White space alone is no
argument. -/
def arguments (pieces : List (Piece Computed)) : List (List (Piece Computed)) :=
  let isSpace : Piece Computed → Bool
    | separator .space => true
    | _ => false
  let isComma : Piece Computed → Bool
    | separator (.comma _) => true
    | _ => false
  if pieces.all isSpace then [] else pieces.splitOnP isComma

/-- A group keeps its parentheses if its contents come out as they were. -/
def group (pieces : List (Piece Computed)) : Except Cause Value := do
  let v ← valueOf pieces
  let t ← verbatims pieces
  return if v.css = Text.trim t then .text ('(' :: t ++ [')']) else v

/-- A call is of a known function, a color, or text. -/
def call (name : Text) (pieces : List (Piece Computed)) : Computed :=
  match Builtin.ofName? name with
  | some b => .ofValue do b.eval (← (arguments pieces).mapM valueOf)
  | none =>
    let t := (verbatims pieces).map fun inside => name ++ '(' :: inside ++ [')']
    let v := t.map fun t =>
      match Color.ofCall? t with
      | some c => .color c
      | none => .text t
    ⟨v, v, t⟩

end Piece

namespace Token

mutual

def compute : Token → Piece Computed
  | space => .separator .space
  | comma spaced => .separator (.comma spaced)
  | operator o => .operator o
  | word t => .term (.ofText (.ofWord t) t)
  | reference name => .term (.ofText (.text ('@' :: name)) ('@' :: name))
  | call name arguments => .term (Piece.call name (computeAll arguments))
  | group inside =>
    let pieces := computeAll inside
    .term ⟨Piece.group pieces, Piece.valueOf pieces,
      (Piece.verbatims pieces).map fun t => '(' :: t ++ [')']⟩

def computeAll : List Token → List (Piece Computed)
  | [] => []
  | token :: rest => compute token :: computeAll rest

end

/-- The value of a run of tokens. -/
def value (tokens : List Token) : Except Cause Value := Piece.valueOf (computeAll tokens)

/-! ## Substitution -/

mutual

/-- Puts tokens in the place of variables, at any depth. -/
def substitute {m : Type → Type} [Monad m] (replacement : Text → m (List Token)) :
    Token → m (List Token)
  | reference name => replacement name
  | call name arguments => do return [call name (← substituteAll replacement arguments)]
  | group inside => do return [group (← substituteAll replacement inside)]
  | token => return [token]

def substituteAll {m : Type → Type} [Monad m] (replacement : Text → m (List Token)) :
    List Token → m (List Token)
  | [] => return []
  | token :: rest => do
    let first ← substitute replacement token
    let others ← substituteAll replacement rest
    return first ++ others

end

end Token

/-! ## Evaluating in a scope -/

/-- Blames a cause on a span. -/
def blame {α : Type} (span : Span) : Except Cause α → Except Fault α
  | .ok a => .ok a
  | .error cause => .error ⟨cause, span⟩

/-- The text that a raw value comes to in a scope. `idle` holds the keys of the
definitions that are not being evaluated; a variable that leads back to one that
is has no value. An unknown variable stays as it is. -/
def Scope.evaluate (idle : List DefinitionKey) (scope : Scope) (raw : Raw) : Except Fault Text := do
  let replacement (name : Text) : Except Fault (List Token) :=
    match scope.meaning? name with
    | none => .ok [.word ('@' :: name)]
    | some (.evaluated t) => .ok (Token.ofText t)
    | some (.raw value home) =>
      match Idle.take? (name, value.span) idle with
      | none => .error ⟨.variableCycle name, raw.span⟩
      | some ⟨rest, _⟩ => (home.evaluate rest value).map Token.ofText
  let tokens ← Token.substituteAll replacement (Token.ofText raw.text)
  let v ← blame raw.span (Token.value tokens)
  return v.css
termination_by idle.length

end Cascade
