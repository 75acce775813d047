import Cascade.Proofs.Assembly
import Cascade.Proofs.Retabling

/-!
# Lines and what they are written for

The CSS of a document once more, as a list of lines: each with the address of the rule that
it is written for, and with whether it opens or closes the block of an at-rule. Put together,
the lines are the text of the forest, and so the CSS (`Document.css_lines`).
-/

namespace Cascade

namespace Css

/-- A line of CSS, or the text of an imported style sheet. -/
structure Line where
  /-- Where the rule stands that it is written for, or the style sheet. -/
  place : Address
  /-- Whether it opens or closes the block of an at-rule. -/
  edge : Bool
  text : Text
deriving DecidableEq, Repr

namespace Line

def textOf (lines : List Line) : Text := lines.flatMap text

def ofNode (place : Address) (indentation : Nat) (node : Node) : Line :=
  ⟨place, false, node.print indentation⟩

/-- The lines of a block. If there are none in it, there are none. -/
def block (place : Address) (indentation : Nat) (prelude : Text) (inside : List Line) :
    List Line :=
  if inside.isEmpty then []
  else
    ⟨place, true, Node.line indentation (prelude ++ " \x7b")⟩ :: inside ++
      [⟨place, true, Node.line indentation ['\x7d']⟩]

end Line

end Css

open Css (Line)

mutual

/-- The lines that are written for a rule that takes part and stands at the address, and for
the rules in it. -/
def Rule.lines (idle : List DefinitionKey) (scope : Scope) (a : Address) (indentation : Nat) :
    Rule → Except Fault (List Line)
  | ⟨selectors, _, kind, _, ⟨imports, definitions, own, children⟩, _⟩ =>
    let block : Block := ⟨imports, definitions, own, children⟩
    let inner := scope.nest block
    match kind with
    | .mixin _ => return []
    | .directive t => return [.ofNode a indentation (.directive t)]
    | .style => do
      let declarations ← inner.expand idle mixinLimit block
      let nested ← rulesLines idle inner a 0 indentation .outside children
      let line :=
        if !declarations.isEmpty && !selectors.isEmpty then
          [.ofNode a indentation (.rule selectors declarations)]
        else []
      return line ++ nested
    | .atRule prelude => do
      let declarations ← inner.expand idle mixinLimit block
      if selectors.isEmpty && children.isEmpty then
        if !declarations.isEmpty then
          return [.ofNode a indentation (.rule [prelude] declarations)]
        else return []
      else
        let further := indentation + 2
        let nested ← rulesLines idle inner a 0 further .outside children
        let own := (Css.Node.own selectors declarations).map (Line.ofNode a further)
        return Line.block a indentation prelude (own ++ nested)

/-- The lines of the rules of the block at the address, after a chain. The first of them has
the number `i`. -/
def rulesLines (idle : List DefinitionKey) (scope : Scope) (a : Address) (i : Nat)
    (indentation : Nat) (chain : Chain) : List Rule → Except Fault (List Line)
  | [] => return []
  | rule :: rest => do
    let (taken, chain) ← chain.admits idle scope rule
    let first ← if taken then rule.lines idle scope (.child i :: a) indentation else pure []
    let others ← rulesLines idle scope a (i + 1) indentation chain rest
    return first ++ others

end

mutual

/-- The lines of a document that stands at the address: those of all that it imports, and
then its own. -/
def Document.lines (a : Address) : Document → Except Fault (List Line)
  | ⟨path, ⟨imports, definitions, own, children⟩⟩ => do
    let document : Document := ⟨path, ⟨imports, definitions, own, children⟩⟩
    let imported ← importsLines a 0 imports
    let rules ← rulesLines document.keys (.ofBlock document.block) a 0 0 .outside children
    return imported ++ rules

def Import.lines (a : Address) : Import → Except Fault (List Line)
  | .sheet document => document.lines a
  | .css t => return [.ofNode a 0 (.raw t)]

def importsLines (a : Address) (i : Nat) : List Import → Except Fault (List Line)
  | [] => return []
  | import' :: rest => do
    let first ← import'.lines (.imported i :: a)
    let others ← importsLines a (i + 1) rest
    return first ++ others

end

/-! ## The lines of a forest -/

/-- The lines have the text of the forest, and `P` holds of each. -/
structure Spells (P : Line → Prop) (indentation : Nat) (lines : Except Fault (List Line))
    (forest : Except Fault (List Css.Node)) : Prop where
  text : lines.map Line.textOf = forest.map (Css.Node.printAll indentation)
  each : ∀ ls, lines = .ok ls → ∀ l ∈ ls, P l

/-- A line that is written for what stands at the address, or in there. -/
def Css.Line.Within (a : Address) (l : Line) : Prop := a <:+ l.place

/-- A line that is no empty text. -/
def Css.Line.Solid (l : Line) : Prop := l.text ≠ []

theorem Css.Line.textOf_append (ls ls' : List Line) :
    textOf (ls ++ ls') = textOf ls ++ textOf ls' :=
  List.flatMap_append

namespace Spells

variable {α : Type} {P Q : Line → Prop} {indentation : Nat}
  {lines lines' : Except Fault (List Line)} {forest forest' : Except Fault (List Css.Node)}

theorem imp (h : Spells P indentation lines forest) (hPQ : ∀ l, P l → Q l) :
    Spells Q indentation lines forest :=
  ⟨h.text, fun ls hls l hl => hPQ l (h.each ls hls l hl)⟩

theorem nothing : Spells P indentation (.ok []) (.ok []) := by
  refine ⟨rfl, fun ls hls => ?_⟩
  cases hls
  exact nofun

theorem node {a : Address} {n : Css.Node} (h : P (.ofNode a indentation n)) :
    Spells P indentation (.ok [.ofNode a indentation n]) (.ok [n]) := by
  refine ⟨congrArg Except.ok ?_, fun ls hls l hl => ?_⟩
  · simp [Line.textOf, Line.ofNode]
  · cases hls
    rw [List.mem_singleton.mp hl]
    exact h

theorem after {e : Except Fault α} {f : α → Except Fault (List Line)}
    {g : α → Except Fault (List Css.Node)} (h : ∀ a, Spells P indentation (f a) (g a)) :
    Spells P indentation (e >>= f) (e >>= g) := by
  cases e with
  | error fault => exact ⟨rfl, nofun⟩
  | ok a => exact h a

theorem outcomes (h : Spells P indentation lines forest) :
    (∃ fault, lines = .error fault ∧ forest = .error fault) ∨
      ∃ ls nodes, lines = .ok ls ∧ forest = .ok nodes ∧
        Line.textOf ls = Css.Node.printAll indentation nodes ∧ ∀ l ∈ ls, P l := by
  obtain ⟨htext, heach⟩ := h
  cases lines with
  | error fault =>
      cases forest with
      | error fault' => exact .inl ⟨fault, rfl, congrArg Except.error (Except.error.inj htext).symm⟩
      | ok => cases htext
  | ok ls =>
      cases forest with
      | error => cases htext
      | ok nodes => exact .inr ⟨ls, nodes, rfl, rfl, Except.ok.inj htext, heach ls rfl⟩

theorem append (h : Spells P indentation lines forest) (h' : Spells P indentation lines' forest') :
    Spells P indentation (do return (← lines) ++ (← lines'))
      (do return (← forest) ++ (← forest')) := by
  obtain ⟨fault, rfl, rfl⟩ | ⟨ls, nodes, rfl, rfl, htext, heach⟩ := h.outcomes
  · exact ⟨rfl, nofun⟩
  · obtain ⟨fault, rfl, rfl⟩ | ⟨ls', nodes', rfl, rfl, htext', heach'⟩ := h'.outcomes
    · exact ⟨rfl, nofun⟩
    · refine ⟨congrArg Except.ok ?_, fun all hall l hl => ?_⟩
      · rw [Line.textOf_append, Css.Node.printAll_append, htext, htext']
      · cases hall
        exact (List.mem_append.mp hl).elim (heach l) (heach' l)

theorem prepend {ls : List Line} {nodes : List Css.Node}
    (h : Spells P indentation (.ok ls) (.ok nodes)) (h' : Spells P indentation lines forest) :
    Spells P indentation (do return ls ++ (← lines)) (do return nodes ++ (← forest)) :=
  h.append h'

theorem block (a : Address) (prelude : Text) (hP : ∀ l, P l → l.Solid)
    (hedge : ∀ t, P ⟨a, true, Css.Node.line indentation t⟩)
    (h : Spells P (indentation + 2) lines forest) :
    Spells P indentation (do return Line.block a indentation prelude (← lines))
      (do return [.block prelude (← forest)]) := by
  obtain ⟨fault, rfl, rfl⟩ | ⟨ls, nodes, rfl, rfl, htext, heach⟩ := h.outcomes
  · exact ⟨rfl, nofun⟩
  · refine ⟨congrArg Except.ok ?_, fun all hall l hl => ?_⟩
    · rw [Css.Node.printAll_singleton, Css.Node.print, ← htext]
      cases ls with
      | nil => rfl
      | cons l ls =>
          have hsolid : Line.textOf (l :: ls) ≠ [] := fun hnil =>
            hP l (heach l (List.mem_cons_self ..)) (List.append_eq_nil_iff.mp hnil).1
          split
          · rename_i hnil
            exact (hsolid hnil).elim
          · simp [Line.block, Line.textOf]
    · cases hall
      unfold Line.block at hl
      split at hl
      · cases hl
      · rcases List.mem_cons.mp hl with rfl | hl
        · exact hedge _
        · rcases List.mem_append.mp hl with hl | hl
          · exact heach l hl
          · rw [List.mem_singleton.mp hl]
            exact hedge _

end Spells

namespace Css.Line

/-- A line that is written for one of the rules of a block, or of its imports, from the one
with the number `i` on. -/
def Among (step : Nat → Descent) (a : Address) (i : Nat) (l : Line) : Prop :=
  ∃ j, i ≤ j ∧ l.Within (step j :: a)

variable {step : Nat → Descent} {a b : Address} {i : Nat} {l : Line}

theorem Within.of_suffix (h : l.Within b) (hab : a <:+ b) : l.Within a := hab.trans h

theorem within_ofNode (a : Address) (indentation : Nat) (n : Css.Node) :
    (ofNode a indentation n).Within a :=
  List.suffix_rfl

theorem Within.among (step : Nat → Descent) (h : l.Within (step i :: a)) : l.Among step a i :=
  ⟨i, Nat.le_refl i, h⟩

theorem Among.within (h : l.Among step a i) : l.Within a := by
  obtain ⟨j, -, hwithin⟩ := h
  exact hwithin.of_suffix (List.suffix_cons ..)

theorem Among.of_succ (h : l.Among step a (i + 1)) : l.Among step a i := by
  obtain ⟨j, hj, hwithin⟩ := h
  exact ⟨j, Nat.le_of_succ_le hj, hwithin⟩

end Css.Line

/-- The own declarations of an at-rule in its block. -/
theorem Spells.own {a : Address} (indentation : Nat) (selectors : List Text)
    (declarations : List Css.Declaration) :
    Spells (fun l => l.Within a ∧ l.Solid) indentation
      (.ok ((Css.Node.own selectors declarations).map (Line.ofNode a indentation)))
      (.ok (Css.Node.own selectors declarations)) := by
  unfold Css.Node.own
  split
  · exact .nothing
  · split
    · exact .node ⟨Line.within_ofNode .., Css.Node.line_ne_nil _ _⟩
    · exact .node ⟨Line.within_ofNode .., Css.Node.line_ne_nil _ _⟩

section

variable (idle : List DefinitionKey)

mutual

theorem Rule.lines_spells (scope : Scope) (a : Address) (indentation : Nat) : ∀ rule : Rule,
    Spells (fun l => l.Within a ∧ l.Solid) indentation (rule.lines idle scope a indentation)
      (rule.forest idle scope)
  | ⟨selectors, own, kind, condition, ⟨imports, definitions, declarations, children⟩, span⟩ => by
      rw [Rule.lines.eq_def, Rule.forest.eq_def]
      have hchildren (indentation : Nat) := (rulesLines_spells
        (scope.nest ⟨imports, definitions, declarations, children⟩) a 0 indentation .outside
          children).imp fun l => And.imp_left Line.Among.within
      have hline {n : Css.Node} (h : (Line.ofNode a indentation n).Solid) :
          Spells (fun l => l.Within a ∧ l.Solid) indentation (.ok [.ofNode a indentation n])
            (.ok [n]) :=
        .node ⟨Line.within_ofNode .., h⟩
      cases kind with
      | mixin _ => exact .nothing
      | directive t => exact hline (Css.Node.line_ne_nil _ _)
      | style =>
          refine .after fun own => ?_
          cases !own.isEmpty && !selectors.isEmpty with
          | true =>
              have hrule : (Line.ofNode a indentation (.rule selectors own)).Solid :=
                Css.Node.line_ne_nil _ _
              exact (hline hrule).append (hchildren indentation)
          | false => exact Spells.nothing.append (hchildren indentation)
      | atRule prelude =>
          refine .after fun own => ?_
          cases selectors.isEmpty && children.isEmpty with
          | true =>
              cases !own.isEmpty with
              | true => exact hline (Css.Node.line_ne_nil _ _)
              | false => exact .nothing
          | false =>
              have hown := Spells.own (a := a) (indentation + 2) selectors own
              have hinside := hown.prepend (hchildren _)
              have hblock := hinside.block a prelude (fun l h => h.2) fun t =>
                ⟨List.suffix_rfl, Css.Node.line_ne_nil indentation t⟩
              simp only [bind_assoc, pure_bind] at hblock
              exact hblock

theorem rulesLines_spells (scope : Scope) (a : Address) :
    ∀ (i : Nat) (indentation : Nat) (chain : Chain) (rules : List Rule),
      Spells (fun l => l.Among .child a i ∧ l.Solid) indentation
        (rulesLines idle scope a i indentation chain rules) (rulesForest idle scope chain rules)
  | _, _, _, [] => .nothing
  | i, indentation, chain, rule :: rest => by
      rw [rulesLines, rulesForest]
      refine .after fun (taken, chain) => ?_
      have hothers := (rulesLines_spells scope a (i + 1) indentation chain rest).imp fun l =>
        And.imp_left Line.Among.of_succ
      cases taken with
      | true =>
          have hrule := (rule.lines_spells scope (.child i :: a) indentation).imp fun l =>
            And.imp_left fun h => Line.Within.among .child h
          exact hrule.append hothers
      | false => exact Spells.nothing.append hothers

end

end

mutual

theorem Document.lines_spells (a : Address) : ∀ e : Document,
    Spells (·.Within a) 0 (e.lines a) e.forest
  | ⟨path, ⟨imports, definitions, declarations, children⟩⟩ => by
      rw [Document.lines.eq_def, Document.forest.eq_def]
      exact ((importsLines_spells a 0 imports).imp fun _ h => h.within).append
        ((rulesLines_spells _ _ a 0 0 .outside children).imp fun _ h => h.1.within)

theorem Import.lines_spells (a : Address) : ∀ i : Import,
    Spells (·.Within a) 0 (i.lines a) i.forest
  | .sheet e => e.lines_spells a
  | .css _ => .node (Line.within_ofNode ..)

theorem importsLines_spells (a : Address) : ∀ (i : Nat) (imports : List Import),
    Spells (·.Among .imported a i) 0 (importsLines a i imports) (importsForest imports)
  | _, [] => .nothing
  | i, import' :: rest => by
      rw [importsLines, importsForest]
      have hfirst := (import'.lines_spells (.imported i :: a)).imp fun l h =>
        Line.Within.among .imported h
      exact hfirst.append ((importsLines_spells a (i + 1) rest).imp fun _ h => h.of_succ)

end

/-- The lines of a document, one after the other, are its CSS. -/
theorem Document.css_lines (d : Document) : d.css.1 = (d.lines []).map Line.textOf := by
  rw [(d.lines_spells []).text, d.css_printed]

end Cascade
