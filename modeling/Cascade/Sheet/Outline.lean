import Cascade.Fault
import Cascade.Source.Slice

/-!
# Outlines

The outline of a source is what its braces and semicolons say before any
statement is looked into: a sequence of statements and blocks, each a slice,
that ends where the block ends or where the structure breaks. It is made in one
pass from front to back, so what stands before a break is there to be read.

A statement is told by how it begins. `@import` and `@name:` run to the next `;`
or `}`; anything else runs to the next `{`, `;` or `}`, and is a block if that
is a `{`. Only characters outside strings and parentheses end a statement.
-/

namespace Cascade

inductive Statement where
  | importing (whole : Slice)
  | definition (name : Text) (value whole : Slice)
  /-- An at-rule without a block. -/
  | directive (whole : Slice)
  | call (whole : Slice)
  | property (whole : Slice)
deriving DecidableEq, Repr

inductive Outline where
  /-- The end of the block, or of the source at the top level. -/
  | closed
  | broken (cause : Cause) (blamed : Slice)
  | statement (s : Statement) (rest : Outline)
  | block (prelude : Slice) (body rest : Outline)
deriving Repr

namespace Statement

def endsDefinition (c : Char) : Bool := c == ';' || c == '}'

def ends (c : Char) : Bool := c == '{' || endsDefinition c

/-- `@import`, in any case, and not the beginning of a longer name. -/
def beginsImport (t : Text) : Bool :=
  match Text.afterIgnoringCase? "@import" t with
  | some (c :: _) => !isNameChar c
  | some [] => true
  | none => false

/-- The name of a variable and the number of characters up to its colon, for a
text that begins with `@name:`. -/
def beginsDefinition? : Text → Option (Text × Nat)
  | '@' :: t =>
    let name := t.takeWhile isNameChar
    let gap := (t.drop name.length).takeWhile isGap
    let length := 1 + name.length + gap.length
    match t.drop (name.length + gap.length) with
    | ':' :: _ => if name.isEmpty then none else some (name, length)
    | _ => none
  | _ => none

/-- What the beginning of a block is cut into: one statement with what follows
it, a prelude with what follows its `{`, or nothing that can stand there. -/
inductive Cut where
  | statement (s : Statement) (rest : Slice)
  | opening (prelude rest : Slice)
  | broken (cause : Cause) (blamed : Slice)

/-- What follows a statement whose end is the first glyph of the slice. A `}`
is left to end the block. -/
def afterEnd (rest : Slice) : Slice :=
  match rest.text with
  | ';' :: _ => rest.drop 1
  | _ => rest

/-- A definition or an import, which has to be ended by `;`, or by the `}` of
the block it stands in. -/
def cutDefinition (nested : Bool) (whole rest : Slice) (s : Statement) : Cut :=
  match rest.text with
  | ';' :: _ => .statement s (rest.drop 1)
  | '}' :: _ => if nested then .statement s rest else .broken .missingSemicolon whole
  | _ => .broken .missingSemicolon whole

/-- A statement that is neither a definition nor an import. -/
def cutPlain (nested : Bool) (s : Slice) : Cut :=
  let (whole, rest) := s.untilTop ends
  match rest.text, whole.text with
  | '{' :: _, _ => .opening whole (rest.drop 1)
  | _, '@' :: _ => .statement (.directive whole) (afterEnd rest)
  | _, first =>
    if nested then
      if first.head? = some '.' then .statement (.call whole) (afterEnd rest)
      else .statement (.property whole) (afterEnd rest)
    else .broken .missingBlock whole

/-- Cuts the statement at the beginning of a slice that begins with neither `;`
nor `}`. `nested` says whether it stands inside a block. -/
def cut (nested : Bool) (s : Slice) : Cut :=
  if beginsImport s.text then
    let (whole, rest) := s.untilTop endsDefinition
    cutDefinition nested whole rest (.importing whole)
  else
    match beginsDefinition? s.text with
    | some (name, colon) =>
      let (value, rest) := (s.drop (colon + 1)).untilTop endsDefinition
      let whole := s.take (rest.start - s.start)
      cutDefinition nested whole rest (.definition name value whole)
    | none => cutPlain nested s

/-- Whatever a cut leaves to be read is shorter than `s`. -/
def Cut.Shortens (s : Slice) : Cut → Prop
  | .statement _ rest => rest.length < s.length
  | .opening _ rest => rest.length < s.length
  | .broken _ _ => True

theorem length_afterEnd (rest : Slice) : (afterEnd rest).length ≤ rest.length := by
  unfold afterEnd
  split <;> simp

theorem cutDefinition_shortens {nested : Bool} {whole rest s : Slice} {st : Statement}
    (h : rest.length < s.length) : (cutDefinition nested whole rest st).Shortens s := by
  unfold cutDefinition
  split
  · simp only [Cut.Shortens, Slice.length_drop]; omega
  · split
    · exact h
    · trivial
  · trivial

theorem cutPlain_shortens {nested : Bool} {s : Slice} {c : Char} {t : Text}
    (hs : s.text = c :: t) (hc : endsDefinition c = false) :
    (cutPlain nested s).Shortens s := by
  have hle := Slice.length_untilTop ends s
  have hpos : 0 < s.length := by simp [Slice.length, hs]
  have hlt (hne : ∀ t', (s.untilTop ends).2.text = '{' :: t' → False) :
      (s.untilTop ends).2.length < s.length := by
    cases he : ends c with
    | false => exact Slice.length_untilTop_lt hs he
    | true =>
        refine (hne t ?_).elim
        rw [Slice.untilTop_eq_self hs he, hs]
        simp only [ends, hc, Bool.or_false, beq_iff_eq] at he
        rw [he]
  have hend := length_afterEnd (s.untilTop ends).2
  unfold cutPlain
  simp only
  split
  · simp only [Cut.Shortens, Slice.length_drop]; omega
  · have := hlt (by assumption)
    simp only [Cut.Shortens]; omega
  · have := hlt (by assumption)
    split
    · split <;> (simp only [Cut.Shortens]; omega)
    · trivial

theorem cut_shortens {nested : Bool} {s : Slice} {c : Char} {t : Text}
    (hs : s.text = c :: t) (hc : endsDefinition c = false) : (cut nested s).Shortens s := by
  unfold cut
  split
  · exact cutDefinition_shortens (Slice.length_untilTop_lt hs hc)
  · split
    · rename_i colon _
      have hle := Slice.length_untilTop endsDefinition (s.drop (colon + 1))
      have hpos : 0 < s.length := by simp [Slice.length, hs]
      rw [Slice.length_drop] at hle
      refine cutDefinition_shortens ?_
      show ((s.drop (colon + 1)).untilTop endsDefinition).2.length < s.length
      omega
    · exact cutPlain_shortens hs hc

/-- What follows a statement cut off a part of the input is shorter than the
input. -/
theorem length_lt_of_cut_statement {nested : Bool} {input s rest : Slice} {st : Statement}
    (hs : s.length ≤ input.length) (h : (cut nested s).Shortens s)
    (hcut : cut nested s = .statement st rest) : rest.length < input.length := by
  rw [hcut] at h
  exact Nat.lt_of_lt_of_le h hs

/-- What follows the `{` of a block cut off a part of the input is shorter than
the input. -/
theorem length_lt_of_cut_opening {nested : Bool} {input s prelude rest : Slice}
    (hs : s.length ≤ input.length) (h : (cut nested s).Shortens s)
    (hcut : cut nested s = .opening prelude rest) : rest.length < input.length := by
  rw [hcut] at h
  exact Nat.lt_of_lt_of_le h hs

end Statement

namespace Outline

/-- The outline of the rest of a block, and what follows its `}`. `opened` is
the prelude of the block, and none at the top level. -/
def scan (opened : Option Slice) (input : Slice) :
    { r : Outline × Slice // r.2.length ≤ input.length } :=
  let s := input.dropGap
  have hs : s.length ≤ input.length := input.length_dropGap
  match ht : s.text with
  | [] =>
    match opened with
    | some prelude => ⟨(broken .unclosedBlock prelude, s), hs⟩
    | none => ⟨(closed, s), hs⟩
  | c :: t =>
    have hdrop : (s.drop 1).length < input.length :=
      Nat.lt_of_lt_of_le (Slice.length_drop_one_lt ht) hs
    if hc : Statement.endsDefinition c = true then
      if c = ';' then
        let after := scan opened (s.drop 1)
        ⟨after.val, Nat.le_trans after.property (Nat.le_of_lt hdrop)⟩
      else if opened.isSome then ⟨(closed, s.drop 1), Nat.le_of_lt hdrop⟩
      else ⟨(broken .unmatchedBrace (s.take 1), s), hs⟩
    else
      have hshort : (Statement.cut opened.isSome s).Shortens s :=
        Statement.cut_shortens ht (Bool.eq_false_iff.mpr hc)
      match hcut : Statement.cut opened.isSome s with
      | .broken cause blamed => ⟨(broken cause blamed, s), hs⟩
      | .statement st rest =>
        have hlt : rest.length < input.length :=
          Statement.length_lt_of_cut_statement hs hshort hcut
        let after := scan opened rest
        ⟨(statement st after.val.1, after.val.2),
          Nat.le_trans after.property (Nat.le_of_lt hlt)⟩
      | .opening prelude rest =>
        have hlt : rest.length < input.length :=
          Statement.length_lt_of_cut_opening hs hshort hcut
        let body := scan (some prelude) rest
        have hbody : body.val.2.length < input.length := Nat.lt_of_le_of_lt body.property hlt
        let after := scan opened body.val.2
        ⟨(block prelude body.val.1 after.val.1, after.val.2),
          Nat.le_trans after.property (Nat.le_of_lt hbody)⟩
termination_by input.length
decreasing_by
  · exact hdrop
  · exact hlt
  · exact hlt
  · exact hbody

/-- The outline of a whole source. -/
def ofText (t : Text) : Outline := (scan none (.ofText t)).val.1

end Outline

end Cascade
