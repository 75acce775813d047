import Cascade.Proofs.Expansion

/-!
# What is written, as a forest

A writer keeps one buffer, counts how far in it is, and opens a block before it knows
whether there is anything to put into it. `Css.Node` says what is written without any of
this: a forest, of which `Css.Node.print` gives the text. It has spellings of its own for
all that it prints, down to the declarations, and each call of a writer is proved to append
what is spelled so (`Css.Writer.styleRule_eq` and those beside it).

`Drafting.Prints` ties the two. A drafting prints a forest if from any draft it appends
the text of the forest, as far in as the draft is, and leaves the draft as far in as it
was. The relation goes through `>>=`, and through a block around what prints its
contents (`Drafting.Prints.atRule`): if that is no text at all, the block is taken back,
and what had been written before it is there again.
-/

namespace Cascade

namespace Css

/-- A piece of what is written. -/
inductive Node where
  /-- The text of an imported style sheet. -/
  | raw (t : Text)
  | directive (t : Text)
  /-- A rule on one line, which an at-rule can be as well. -/
  | rule (selectors : List Text) (declarations : List Declaration)
  /-- Declarations that belong to an at-rule itself. -/
  | bare (declarations : List Declaration)
  | block (prelude : Text) (body : List Node)

namespace Node

/-- A line so far in. -/
def line (indentation : Nat) (t : Text) : Text := List.replicate indentation ' ' ++ t ++ ['\n']

theorem line_ne_nil (indentation : Nat) (t : Text) : line indentation t ≠ [] := by
  simp [line]

/-- A declaration as it stands in a line. -/
def declarationText (d : Declaration) : Text := d.name ++ ": " ++ d.value ++ ";"

/-- Declarations that share a line. -/
def declarationsText (declarations : List Declaration) : Text :=
  List.intercalate [' '] (declarations.map declarationText)

/-- The text of a rule without its indentation. -/
def ruleText (selectors : List Text) (declarations : List Declaration) : Text :=
  List.intercalate [',', ' '] selectors ++ " \x7b " ++ declarationsText declarations ++ " \x7d"

mutual

/-- The text of a node that stands so far in. What is in a block stands two spaces further in,
and a block with no text in it is none. -/
def print (indentation : Nat) : Node → Text
  | raw t => if t.isEmpty ∨ t.getLast? = some '\n' then t else t ++ ['\n']
  | directive t => line indentation (t ++ [';'])
  | rule selectors declarations => line indentation (ruleText selectors declarations)
  | bare declarations => line indentation (declarationsText declarations)
  | block prelude body =>
    match printAll (indentation + 2) body with
    | [] => []
    | inside => line indentation (prelude ++ " \x7b") ++ inside ++ line indentation ['\x7d']

def printAll (indentation : Nat) : List Node → Text
  | [] => []
  | node :: rest => print indentation node ++ printAll indentation rest

end

@[simp] theorem printAll_append (indentation : Nat) (nodes nodes' : List Node) :
    printAll indentation (nodes ++ nodes') =
      printAll indentation nodes ++ printAll indentation nodes' := by
  induction nodes with
  | nil => rfl
  | cons node rest ih => simp [printAll, ih]

@[simp] theorem printAll_singleton (indentation : Nat) (node : Node) :
    printAll indentation [node] = print indentation node := by
  simp [printAll]

/-- The declarations of an at-rule in its block. They belong to the selectors it is
nested in, if there are any. -/
def own (selectors : List Text) (declarations : List Declaration) : List Node :=
  if declarations.isEmpty then []
  else if selectors.isEmpty then [bare declarations]
  else [rule selectors declarations]

end Node

/-! ## Writers -/

namespace Writer

@[simp] theorem append_indentation (w : Writer) (t : Text) :
    (w.append t).indentation = w.indentation := rfl

@[simp] theorem append_buffer_toList (w : Writer) (t : Text) :
    (w.append t).buffer.toList = w.buffer.toList ++ t := by
  simp [append]

theorem ext_toList {w w' : Writer} (hindentation : w.indentation = w'.indentation)
    (hbuffer : w.buffer.toList = w'.buffer.toList) : w = w' := by
  cases w
  cases w'
  simp only [mk.injEq]
  exact ⟨hindentation, Array.toList_inj.mp hbuffer⟩

@[simp] theorem append_nil (w : Writer) : w.append [] = w := ext_toList rfl (by simp)

@[simp] theorem append_append (w : Writer) (t u : Text) :
    (w.append t).append u = w.append (t ++ u) := ext_toList rfl (by simp)

/-- A writer spells declarations as a forest does. -/
theorem declarationsText_eq (declarations : List Declaration) :
    declarationsText declarations = Node.declarationsText declarations := by
  refine congrArg (List.intercalate [' ']) (List.map_congr_left fun d _ => ?_)
  simp [Node.declarationText]

theorem raw_eq (w : Writer) (t : Text) :
    w.raw t = w.append (Node.print w.indentation (.raw t)) := by
  unfold raw Node.print
  split <;> rfl

theorem directive_eq (w : Writer) (t : Text) :
    w.directive t = w.append (Node.print w.indentation (.directive t)) := rfl

theorem styleRule_eq (w : Writer) (selectors : List Text) (declarations : List Declaration) :
    w.styleRule selectors declarations =
      w.append (Node.print w.indentation (.rule selectors declarations)) := by
  rw [styleRule, declarationsText_eq]
  rfl

theorem bareDeclarations_eq (w : Writer) (declarations : List Declaration) :
    w.bareDeclarations declarations =
      w.append (Node.print w.indentation (.bare declarations)) := by
  rw [bareDeclarations, declarationsText_eq]
  rfl

theorem inlineAtRule_eq (w : Writer) (prelude : Text) (declarations : List Declaration) :
    w.inlineAtRule prelude declarations =
      w.append (Node.print w.indentation (.rule [prelude] declarations)) :=
  w.styleRule_eq [prelude] declarations

/-- Whatever is written between opening a block and closing it stands in the block, and
the block is only there if that is anything. -/
theorem closeBlock_openBlock (w : Writer) (prelude : Text) (body : List Node) :
    ((w.openBlock prelude).2.append (Node.printAll (w.indentation + 2) body)).closeBlock
      (w.openBlock prelude).1 = w.append (Node.print w.indentation (.block prelude body)) := by
  rw [Node.print]
  generalize Node.printAll (w.indentation + 2) body = inside
  cases inside with
  | nil =>
      refine ext_toList ?_ ?_ <;> simp [closeBlock, openBlock, line, append]
  | cons c inside =>
      have hsize : ((w.openBlock prelude).2.append (c :: inside)).buffer.size ≠
          (w.openBlock prelude).1.bodyStart := by
        rw [← Array.length_toList, append_buffer_toList, List.length_append, Array.length_toList]
        exact Nat.ne_of_gt (Nat.lt_add_of_pos_right (Nat.succ_pos _))
      rw [closeBlock, if_neg hsize]
      refine ext_toList ?_ ?_ <;> simp [openBlock, line, append, Node.line]

end Writer

end Css

/-! ## Draftings that print -/

namespace Drafting

/-- What an at-rule writes between opening its block and closing it. -/
def contents (selectors : List Text) (declarations : List Css.Declaration)
    (children : Drafting PUnit) : Drafting PUnit := do
  if !declarations.isEmpty then
    if selectors.isEmpty then Drafting.write (·.bareDeclarations declarations)
    else Drafting.write (·.styleRule selectors declarations)
  children

theorem run_atRule (prelude : Text) (selectors : List Text) (declarations : List Css.Declaration)
    (children : Drafting PUnit) (d : Draft) :
    (Drafting.atRule prelude selectors declarations children).run.run d =
      (contents selectors declarations children >>= fun _ =>
        Drafting.write (·.closeBlock (d.writer.openBlock prelude).1)).run.run
          ⟨(d.writer.openBlock prelude).2, d.warnings⟩ := by
  have hopen : ((modifyGet fun d : Draft => ((d.writer.openBlock prelude).1,
      { d with writer := (d.writer.openBlock prelude).2 }) : Drafting Css.Mark)).run.run d =
        (.ok (d.writer.openBlock prelude).1, ⟨(d.writer.openBlock prelude).2, d.warnings⟩) := rfl
  unfold Drafting.atRule contents
  refine (run_bind_ok hopen).trans ?_
  split <;> [split; skip] <;> simp only [bind_assoc]

end Drafting

/-- The text that is written from the beginning. -/
def Drafting.text (m : Drafting PUnit) : Except Fault Text :=
  let (result, draft) := m.run ⟨.empty, []⟩
  result.map fun _ => draft.writer.text

/-- From any draft the outcome is the same, and if it is a forest, the text of the
forest is appended. -/
def Drafting.Prints (m : Drafting PUnit) (e : Except Fault (List Css.Node)) : Prop :=
  ∀ d : Draft, match e with
    | .ok nodes => ∃ warnings,
        m.run.run d = (.ok ⟨⟩,
          ⟨d.writer.append (Css.Node.printAll d.writer.indentation nodes), warnings⟩)
    | .error fault => (m.run.run d).1 = .error fault

namespace Drafting.Prints

variable {α : Type} {m m' : Drafting PUnit} {e e' : Except Fault (List Css.Node)}
  {nodes : List Css.Node}

theorem nothing : Prints (pure ⟨⟩) (.ok []) := fun d =>
  ⟨d.warnings, by rw [Css.Node.printAll, Css.Writer.append_nil]; rfl⟩

theorem write {f : Css.Writer → Css.Writer} {node : Css.Node}
    (hf : ∀ w : Css.Writer, f w = w.append (node.print w.indentation)) :
    Prints (Drafting.write f) (.ok [node]) := fun d =>
  ⟨d.warnings, by rw [Css.Node.printAll_singleton, ← hf]; rfl⟩

/-- A drafting that only comes to a value goes before. -/
theorem after {m : Drafting α} {e : Except Fault α} {f : α → Drafting PUnit}
    {g : α → Except Fault (List Css.Node)} (h : m.Settles e)
    (hf : ∀ a, e = .ok a → (f a).Prints (g a)) : (m >>= f).Prints (e >>= g) := by
  intro d
  obtain ⟨warnings, hm⟩ := h d
  cases e with
  | error fault =>
      show ((m >>= f).run.run d).1 = .error fault
      rw [run_bind_error hm]
  | ok a =>
      rw [run_bind_ok hm]
      exact hf a rfl { d with warnings }

theorem bind (h : m.Prints e) (h' : m'.Prints e') :
    Prints (m >>= fun _ => m') (do return (← e) ++ (← e')) := by
  intro d
  cases e with
  | error fault =>
      have hm : m.run.run d = (.error fault, (m.run.run d).2) := Prod.ext (h d) rfl
      show ((m >>= fun _ => m').run.run d).1 = .error fault
      rw [run_bind_error hm]
  | ok nodes =>
      obtain ⟨warnings, hm⟩ := h d
      rw [run_bind_ok hm]
      specialize h' ⟨d.writer.append (Css.Node.printAll d.writer.indentation nodes), warnings⟩
      cases e' with
      | error fault => exact h'
      | ok nodes' =>
          obtain ⟨warnings', hm'⟩ := h'
          refine ⟨warnings', hm'.trans ?_⟩
          simp

theorem contents (selectors : List Text) (declarations : List Css.Declaration) (h : m.Prints e) :
    Prints (Drafting.contents selectors declarations m)
      (do return Css.Node.own selectors declarations ++ (← e)) := by
  unfold Drafting.contents Css.Node.own
  cases declarations.isEmpty with
  | true => exact Prints.bind .nothing h
  | false =>
      cases selectors.isEmpty with
      | true => exact (Prints.write fun w => w.bareDeclarations_eq declarations).bind h
      | false => exact (Prints.write fun w => w.styleRule_eq selectors declarations).bind h

theorem atRule {prelude : Text} {selectors : List Text} {declarations : List Css.Declaration}
    (h : m.Prints e) :
    Prints (Drafting.atRule prelude selectors declarations m) (do
      return [.block prelude (Css.Node.own selectors declarations ++ (← e))]) := by
  intro d
  have hinside := h.contents selectors declarations
    ⟨(d.writer.openBlock prelude).2, d.warnings⟩
  have hrun := Drafting.run_atRule prelude selectors declarations m d
  cases e with
  | error fault =>
      show ((Drafting.atRule prelude selectors declarations m).run.run d).1 = .error fault
      rw [hrun, run_bind_error (Prod.ext hinside rfl)]
  | ok nodes =>
      obtain ⟨warnings, hinside⟩ := hinside
      have hclose := Css.Writer.closeBlock_openBlock d.writer prelude
        (Css.Node.own selectors declarations ++ nodes)
      refine ⟨warnings, hrun.trans ((run_bind_ok hinside).trans ?_)⟩
      rw [Css.Node.printAll_singleton]
      exact congrArg (fun w => (Except.ok PUnit.unit, Draft.mk w warnings)) hclose

theorem text (h : m.Prints e) : m.text = e.map (Css.Node.printAll 0) := by
  have hprints := h ⟨.empty, []⟩
  show (m.run.run ⟨.empty, []⟩).1.map (fun _ => (m.run.run ⟨.empty, []⟩).2.writer.text) = _
  cases e with
  | error fault =>
      rw [hprints]
      rfl
  | ok nodes =>
      obtain ⟨warnings, hrun⟩ := hprints
      rw [hrun]
      simp [Except.map, Css.Writer.text, Css.Writer.empty]

end Drafting.Prints

end Cascade
