import Cascade.Value.Token

/-!
# Expressions

The tree of a run of tokens. `*` and `/` bind tighter than `+` and `-`, and
operators of one strength group to the left; white space and commas separate the
expressions of a list. Every run has a tree: an operand that is not there is
`missing`, and terms with nothing between them are neighbours in a list.

The tree does not look into its terms, so it is stated for terms of any kind.
-/

namespace Cascade

/-- What can separate the expressions of a list. -/
inductive Separator where
  | space
  | comma (spaced : Bool)
deriving DecidableEq, Repr

def Separator.text : Separator → Text
  | space => [' ']
  | comma true => [',', ' ']
  | comma false => [',']

/-- A token as an expression sees it. -/
inductive Piece (α : Type) where
  | separator (s : Separator)
  | operator (o : Operator)
  | term (a : α)
deriving Repr

/-- An operation, or a single operand. -/
inductive Arithmetic (α : Type) where
  | missing
  | term (a : α)
  | binary (left : Arithmetic α) (o : Operator) (right : Arithmetic α)
deriving Repr

inductive Item (α : Type) where
  | separator (s : Separator)
  | expression (e : Arithmetic α)
deriving Repr

/-- A single expression, or a list of at least two items. -/
inductive Expression (α : Type) where
  | single (e : Arithmetic α)
  | list (items : List (Item α))
deriving Repr

variable {α : Type}

namespace Arithmetic

/-- A sum whose last product may still grow. -/
def close (sum : Option (Arithmetic α × Operator)) (product : Arithmetic α) : Arithmetic α :=
  match sum with
  | none => product
  | some (left, o) => binary left o product

/-- The tree of operands with operators before them, after the beginning of a
sum and of its last product. -/
def ofChain (sum : Option (Arithmetic α × Operator)) (product : Arithmetic α) :
    List (Operator × Arithmetic α) → Arithmetic α
  | [] => close sum product
  | (o, operand) :: rest =>
    if o.isTight then ofChain sum (binary product o operand) rest
    else ofChain (some (close sum product, o)) operand rest

end Arithmetic

namespace Expression

/-- The operators at the beginning of a run, each with the operand after it, and
what follows. -/
def chain : List (Piece α) → List (Operator × Arithmetic α) × List (Piece α)
  | .operator o :: .term a :: rest =>
    let (operands, after) := chain rest
    ((o, .term a) :: operands, after)
  | .operator o :: rest =>
    let (operands, after) := chain rest
    ((o, .missing) :: operands, after)
  | rest => ([], rest)

theorem length_chain (ps : List (Piece α)) : (chain ps).2.length ≤ ps.length := by
  fun_induction chain ps with
  | case1 _ _ _ _ _ hrest ih | case2 _ _ _ _ _ hrest ih =>
      simp only [hrest, List.length_cons] at ih ⊢; omega
  | case3 => exact Nat.le_refl _

theorem length_chain_lt (o : Operator) (ps : List (Piece α)) :
    (chain (.operator o :: ps)).2.length < (Piece.operator o :: ps).length := by
  have hps := length_chain ps
  match ps with
  | [] => simp [chain]
  | .term a :: rest =>
    have := length_chain rest
    simp only [chain, List.length_cons]; omega
  | .separator s :: rest | .operator p :: rest =>
    simp only [chain, List.length_cons] at hps ⊢; omega

/-- The items of a run of tokens. -/
def items : List (Piece α) → List (Item α)
  | [] => []
  | .separator s :: rest => .separator s :: items rest
  | .term a :: rest =>
    .expression (.ofChain none (.term a) (chain rest).1) :: items (chain rest).2
  | .operator o :: rest =>
    .expression (.ofChain none .missing (chain (.operator o :: rest)).1) ::
      items (chain (.operator o :: rest)).2
termination_by ps => ps.length
decreasing_by
  · simp
  · have := length_chain rest
    simp only [List.length_cons]; omega
  · exact length_chain_lt o rest

/-- White space around an expression is not part of it. -/
def trimSpaces (ps : List (Piece α)) : List (Piece α) :=
  let isSpace : Piece α → Bool
    | .separator .space => true
    | _ => false
  ((ps.dropWhile isSpace).reverse.dropWhile isSpace).reverse

/-- The tree of a run of tokens. A separator alone separates nothing, and its run
counts as empty. -/
def ofPieces (ps : List (Piece α)) : Expression α :=
  match items (trimSpaces ps) with
  | [] | [.separator _] => .single .missing
  | [.expression e] => .single e
  | items => .list items

end Expression

namespace Token

/-- A token as an expression sees it: separators and operators are themselves,
any other token is a term. -/
def piece : Token → Piece Token
  | .space => .separator .space
  | .comma spaced => .separator (.comma spaced)
  | .operator o => .operator o
  | token => .term token

/-- The tree of a run of tokens. -/
def expression (tokens : List Token) : Expression Token := .ofPieces (tokens.map piece)

end Token

end Cascade
