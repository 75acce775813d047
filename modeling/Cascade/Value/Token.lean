import Cascade.Value.Operator

/-!
# Value tokens

A raw value is a sequence of words, separators, operators, calls and groups.
Variables are put in at this level, so a variable can stand for several tokens.
`Token.textOf` writes tokens out again, and `Token.ofText` reads them: white space
becomes one space or goes where it says nothing, and all else is kept.
-/

namespace Cascade

inductive Token where
  /-- White space between two terms. -/
  | space
  /-- A comma, and whether white space followed it. -/
  | comma (spaced : Bool)
  /-- An operator with white space on both sides. -/
  | operator (o : Operator)
  /-- A number, color, keyword or quoted string, or any other run of characters
  up to the next token. -/
  | word (t : Text)
  /-- The name of a variable, after an `@`. -/
  | reference (name : Text)
  /-- A name directly followed by a pair of parentheses. -/
  | call (name : Text) (arguments : List Token)
  /-- A pair of parentheses that no name precedes. -/
  | group (inside : List Token)
deriving Repr

namespace Token

mutual

def text : Token → Text
  | space => [' ']
  | comma true => [',', ' ']
  | comma false => [',']
  | operator o => [' ', o.char, ' ']
  | word t => t
  | reference name => '@' :: name
  | call name arguments => name ++ '(' :: textOf arguments ++ [')']
  | group inside => '(' :: textOf inside ++ [')']

/-- Writes a run of tokens out. -/
def textOf : List Token → Text
  | [] => []
  | token :: rest => text token ++ textOf rest

end

/-! ## Reading -/

/-- The operator at the beginning of a text, if white space follows it. -/
def operatorAt? : Text → Option Operator
  | c :: d :: _ => if isBlank d then Operator.ofChar? c else none
  | _ => none

/-- Whether a text begins with `@` and a name. -/
def variableAt : Text → Bool
  | '@' :: c :: _ => isNameChar c
  | _ => false

/-- Whether a word ends before the text, unless it begins there. -/
def endsWord (t : Text) : Bool :=
  match t with
  | [] => true
  | c :: _ => isBlank c || c == ',' || c == '(' || c == ')' || c == '"' || c == '\'' || variableAt t

/-- Whether white space before the text separates nothing: at the end, before a
comma and before a closing parenthesis. -/
def endsTerm : Text → Bool
  | [] => true
  | c :: _ => c == ',' || c == ')'

/-- The rest of a word that has begun, and what follows it. -/
def wordRest : Text → Text × Text
  | [] => ([], [])
  | c :: t =>
    if endsWord (c :: t) then ([], c :: t)
    else
      let (more, rest) := wordRest t
      (c :: more, rest)

/-- The rest of a quoted string up to its closing mark, and what follows. A
string that is not closed takes everything. -/
def quotedRest (mark : Char) : (escaped : Bool) → Text → Text × Text
  | _, [] => ([], [])
  | escaped, c :: t =>
    if !escaped && c == mark then ([c], t)
    else
      let (inside, rest) := quotedRest mark (!escaped && c == '\\') t
      (c :: inside, rest)

theorem length_wordRest (t : Text) : (wordRest t).2.length ≤ t.length := by
  induction t with
  | nil => simp [wordRest]
  | cons c t ih =>
      unfold wordRest
      split
      · exact Nat.le_refl _
      · exact Nat.le_succ_of_le ih

theorem length_quotedRest (mark : Char) (escaped : Bool) (t : Text) :
    (quotedRest mark escaped t).2.length ≤ t.length := by
  induction t generalizing escaped with
  | nil => simp [quotedRest]
  | cons c t ih =>
      unfold quotedRest
      split
      · simp
      · have := ih (!escaped && c == '\\')
        simp; omega

theorem length_dropBlank (t : Text) : (t.dropWhile isBlank).length ≤ t.length :=
  (List.dropWhile_sublist isBlank).length_le

theorem length_dropBlank_lt (c : Char) (t : Text) :
    (t.dropWhile isBlank).length < (c :: t).length :=
  Nat.lt_succ_of_le (length_dropBlank t)

theorem length_dropOperator_lt (c : Char) (t : Text) :
    (((t.dropWhile isBlank).drop 1).dropWhile isBlank).length < (c :: t).length := by
  have h₁ := length_dropBlank t
  have h₂ := length_dropBlank ((t.dropWhile isBlank).drop 1)
  simp only [List.length_drop] at h₂
  simp only [List.length_cons]; omega

theorem length_dropName_lt (c : Char) (t : Text) :
    (t.dropWhile isNameChar).length < (c :: t).length :=
  Nat.lt_succ_of_le (List.dropWhile_sublist isNameChar).length_le

theorem length_quotedRest_lt (mark c : Char) (t : Text) :
    (quotedRest mark false t).2.length < (c :: t).length :=
  Nat.lt_succ_of_le (length_quotedRest mark false t)

theorem length_wordRest_lt (c : Char) (t : Text) :
    (wordRest t).2.length < (c :: t).length :=
  Nat.lt_succ_of_le (length_wordRest t)

theorem length_lt_of_wordRest {c d : Char} {t rest : Text} (h : (wordRest t).2 = d :: rest) :
    rest.length < (c :: t).length :=
  Nat.lt_trans (h ▸ Nat.lt_succ_self rest.length) (length_wordRest_lt c t)

/-- Puts a token in front of what is read after it. -/
private def before {n m : Nat} (token : Token) (h : n ≤ m)
    (r : { r : List Token × Text // r.2.length ≤ n }) :
    { r : List Token × Text // r.2.length ≤ m } :=
  ⟨(token :: r.val.1, r.val.2), Nat.le_trans r.property h⟩

/-- Reads tokens up to the end of the text or, inside parentheses, past the `)`
that closes them. `first` says that no token precedes, so that an operator needs
no white space before it. -/
def scan (nested first : Bool) (t : Text) :
    { r : List Token × Text // r.2.length ≤ t.length } :=
  match t with
  | [] => ⟨([], []), by simp⟩
  | c :: rest =>
    if nested && c == ')' then ⟨([], rest), by simp⟩
    else if isBlank c then
      let after := rest.dropWhile isBlank
      have hafter : after.length < (c :: rest).length := length_dropBlank_lt c rest
      match operatorAt? after with
      | some o =>
        let operand := (after.drop 1).dropWhile isBlank
        have hoperand : operand.length < (c :: rest).length := length_dropOperator_lt c rest
        before (operator o) (Nat.le_of_lt hoperand) (scan nested false operand)
      | none =>
        if endsTerm after then
          let silent := scan nested first after
          ⟨silent.val, Nat.le_trans silent.property (Nat.le_of_lt hafter)⟩
        else before space (Nat.le_of_lt hafter) (scan nested false after)
    else if c = ',' then
      let after := rest.dropWhile isBlank
      have hafter : after.length < (c :: rest).length := length_dropBlank_lt c rest
      before (comma (after.length < rest.length)) (Nat.le_of_lt hafter) (scan nested false after)
    else if c = '(' then
      have hrest : rest.length < (c :: rest).length := Nat.lt_succ_self rest.length
      let inside := scan true true rest
      have hinside : inside.val.2.length < (c :: rest).length := Nat.lt_succ_of_le inside.property
      before (group inside.val.1) (Nat.le_of_lt hinside) (scan nested false inside.val.2)
    else if variableAt (c :: rest) then
      let after := rest.dropWhile isNameChar
      have hafter : after.length < (c :: rest).length := length_dropName_lt c rest
      before (reference (rest.takeWhile isNameChar)) (Nat.le_of_lt hafter) (scan nested false after)
    else if c = '"' || c = '\'' then
      let quoted := quotedRest c false rest
      have hquoted : quoted.2.length < (c :: rest).length := length_quotedRest_lt c c rest
      before (word (c :: quoted.1)) (Nat.le_of_lt hquoted) (scan nested false quoted.2)
    else
      match first, operatorAt? (c :: rest) with
      | true, some o =>
        let operand := rest.dropWhile isBlank
        have hoperand : operand.length < (c :: rest).length := length_dropBlank_lt c rest
        before (operator o) (Nat.le_of_lt hoperand) (scan nested false operand)
      | _, _ =>
        let whole := wordRest rest
        match hcall : whole.2 with
        | '(' :: arguments =>
          have harguments : arguments.length < (c :: rest).length := length_lt_of_wordRest hcall
          let inside := scan true true arguments
          have hinside : inside.val.2.length < (c :: rest).length :=
            Nat.lt_of_le_of_lt inside.property harguments
          before (call (c :: whole.1) inside.val.1) (Nat.le_of_lt hinside)
            (scan nested false inside.val.2)
        | after =>
          have hlast : after.length < (c :: rest).length := hcall ▸ length_wordRest_lt c rest
          before (word (c :: whole.1)) (Nat.le_of_lt hlast) (scan nested false after)
termination_by t.length
decreasing_by all_goals assumption

/-- The tokens of a raw value. -/
def ofText (t : Text) : List Token := (scan false true t).val.1

end Token

end Cascade
