import Cascade.Text

/-!
# Strings and parentheses

Separators and terminators count only outside quoted strings and parentheses.
`Nesting` is the state of a scan that knows the difference, `Nesting.step` reads
one character, and everything that searches or cuts a text at top level is
stated with it:

- `untilTop` reads up to the first stop at top level;
- `splitTop` cuts a text at every separator at top level.

A closing parenthesis that nothing opens is an ordinary character, and a string
that is never closed runs to the end.
-/

namespace Cascade

/-- Whether a scan stands inside a quoted string, and if so which mark closes it
and whether the next character is escaped. -/
inductive Quoting where
  | outside
  | inside (mark : Char) (escaped : Bool)
deriving DecidableEq, Repr

structure Nesting where
  /-- The number of parentheses open around the string or character at hand. -/
  depth : Nat
  quoting : Quoting
deriving DecidableEq, Repr

namespace Nesting

def top : Nesting := ⟨0, .outside⟩

def isTop (s : Nesting) : Bool := s == top

def step (s : Nesting) (c : Char) : Nesting :=
  match s.quoting with
  | .inside mark true => ⟨s.depth, .inside mark false⟩
  | .inside mark false =>
    if c = '\\' then ⟨s.depth, .inside mark true⟩
    else if c = mark then ⟨s.depth, .outside⟩
    else s
  | .outside =>
    if c = '"' || c = '\'' then ⟨s.depth, .inside c false⟩
    else if c = '(' then ⟨s.depth + 1, .outside⟩
    else if c = ')' then ⟨s.depth - 1, .outside⟩
    else s

/-- The state after a whole text. -/
def run (s : Nesting) (t : Text) : Nesting := t.foldl step s

@[simp] theorem run_nil (s : Nesting) : s.run [] = s := rfl

@[simp] theorem run_cons (s : Nesting) (c : Char) (t : Text) :
    s.run (c :: t) = (s.step c).run t := rfl

theorem run_append (s : Nesting) (t u : Text) : s.run (t ++ u) = (s.run t).run u := by
  simp [run, List.foldl_append]

end Nesting

namespace Text

/-- The part of a text before the first stop at top level, and the rest, which
begins with that stop unless there is none. -/
def untilTop (stop : Char → Bool) : Nesting → Text → Text × Text
  | _, [] => ([], [])
  | s, c :: rest =>
    if s.isTop && stop c then ([], c :: rest)
    else
      let (before, after) := untilTop stop (s.step c) rest
      (c :: before, after)

theorem untilTop_append (stop : Char → Bool) (s : Nesting) (t : Text) :
    (untilTop stop s t).1 ++ (untilTop stop s t).2 = t := by
  induction t generalizing s with
  | nil => rfl
  | cons c rest ih =>
      unfold untilTop
      split
      · rfl
      · simpa using ih (s.step c)

theorem length_untilTop (stop : Char → Bool) (s : Nesting) (t : Text) :
    (untilTop stop s t).1.length + (untilTop stop s t).2.length = t.length := by
  rw [← List.length_append, untilTop_append]

/-- Cuts a text at every separator at top level. The pieces keep their blanks,
and there is one more of them than there are separators. -/
def splitTop (separator : Char) (s : Nesting) : Text → List Text
  | [] => [[]]
  | c :: rest =>
    if s.isTop && c == separator then [] :: splitTop separator s rest
    else
      match splitTop separator (s.step c) rest with
      | [] => [[c]]
      | piece :: pieces => (c :: piece) :: pieces

/-- Whether the separator occurs at top level. -/
def hasTop (separator : Char) (t : Text) : Bool :=
  1 < (splitTop separator .top t).length

end Text

end Cascade
