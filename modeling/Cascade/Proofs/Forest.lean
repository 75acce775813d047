import Cascade.Proofs.Printing

/-!
# What a document means

Writing a document goes through it with a writer, a list of warnings and a chain of
conditions. `Document.forest` is what comes of it, as a function of the document: first
the forests of what it imports, then for each rule that takes part its node and those of
its nested rules. Each imported document has the forest it has on its own.

The CSS of a document is the text of this forest, and where there is no forest there is
no CSS, for the same fault (`Document.writesForest`). The forest has all that its rules
expand to, and in its text each of these declarations is spelled out, one behind the other
(`Document.css_hasInOrder`).
-/

namespace Cascade

/-! ## Rules that take part -/

namespace Chain

/-- Whether a condition holds. A text that is no condition is false. -/
def holds (idle : List DefinitionKey) (scope : Scope) (condition : Raw) : Except Fault Bool := do
  let t ← scope.evaluate idle condition
  return (← blame condition.span (Comparison.decide t)).getD false

/-- Whether a rule takes part in the output, and the chain after it. -/
def admits (idle : List DefinitionKey) (scope : Scope) (chain : Chain) (rule : Rule) :
    Except Fault (Bool × Chain) :=
  match rule.condition, chain with
  | none, _ => return (true, outside)
  | some (.test condition), _ | some (.orTest condition), pending => do
    let outcome ← holds idle scope condition
    return (outcome, if outcome then taken else pending)
  | some (.orTest _), outside => return (false, outside)
  | some (.orTest _), taken => return (false, taken)
  | some .otherwise, pending => return (true, outside)
  | some .otherwise, outside | some .otherwise, taken => return (false, outside)

variable {idle idle' : List DefinitionKey} {scope : Scope}

theorem test_settles (condition : Raw) :
    (test idle scope condition).Settles (holds idle scope condition) := by
  unfold test holds
  refine (Drafting.Settles.lift _).bind fun t _ => ?_
  refine (Drafting.Settles.lift _).bind fun outcome _ => ?_
  cases outcome with
  | some outcome => exact .pure outcome
  | none => exact (Drafting.Settles.warn _ _).bind fun _ _ => .pure false

/-- A rule takes part as the branch for it says. -/
theorem admits_eq (idle : List DefinitionKey) (scope : Scope) (chain : Chain) (rule : Rule) :
    chain.admits idle scope rule =
      match chain.branch rule.condition with
      | (.take, next) => return (true, next)
      | (.skip, next) | (.orphan _, next) => return (false, next)
      | (.test condition, _) => do
        let outcome ← holds idle scope condition
        return (outcome, record outcome) := by
  unfold admits
  rcases rule.condition with _ | (_ | _ | _) <;> cases chain <;> rfl

theorem takes_settles (idle : List DefinitionKey) (scope : Scope) (chain : Chain) (rule : Rule) :
    (chain.takes idle scope rule).Settles (chain.admits idle scope rule) := by
  rw [admits_eq]
  unfold takes
  rcases chain.branch rule.condition with ⟨branch, next⟩
  cases branch with
  | take | skip => exact .pure _
  | orphan warning => exact (Drafting.Settles.warn _ _).bind fun _ _ => .pure _
  | test condition => exact (test_settles condition).bind fun outcome _ => .pure _

theorem admits_congr {e : Document} (hs : e.HasScope scope) (h : e.IdleAlike idle idle')
    (chain : Chain) (rule : Rule) :
    chain.admits idle scope rule = chain.admits idle' scope rule := by
  unfold admits holds
  simp only [hs.evaluate_congr h]

end Chain

/-! ## Forests -/

mutual

/-- What is written for a rule that takes part in the output. -/
def Rule.forest (idle : List DefinitionKey) (scope : Scope) : Rule → Except Fault (List Css.Node)
  | ⟨selectors, _, kind, _, ⟨imports, definitions, own, children⟩, _⟩ =>
    let block : Block := ⟨imports, definitions, own, children⟩
    let inner := scope.nest block
    match kind with
    | .mixin _ => return []
    | .directive t => return [.directive t]
    | .style => do
      let declarations ← inner.expand idle mixinLimit block
      let nested ← rulesForest idle inner .outside children
      let line :=
        if !declarations.isEmpty && !selectors.isEmpty then [.rule selectors declarations] else []
      return line ++ nested
    | .atRule prelude => do
      let declarations ← inner.expand idle mixinLimit block
      if selectors.isEmpty && children.isEmpty then
        if !declarations.isEmpty then return [.rule [prelude] declarations] else return []
      else
        let nested ← rulesForest idle inner .outside children
        return [.block prelude (Css.Node.own selectors declarations ++ nested)]

/-- What is written for the rules of a block, in its scope, after a chain. -/
def rulesForest (idle : List DefinitionKey) (scope : Scope) (chain : Chain) :
    List Rule → Except Fault (List Css.Node)
  | [] => return []
  | rule :: rest => do
    let (taken, chain) ← chain.admits idle scope rule
    let first ← if taken then rule.forest idle scope else pure []
    let others ← rulesForest idle scope chain rest
    return first ++ others

end

mutual

/-- What is written for a document: all that it imports, and then its own rules. -/
def Document.forest : Document → Except Fault (List Css.Node)
  | ⟨path, ⟨imports, definitions, own, children⟩⟩ => do
    let document : Document := ⟨path, ⟨imports, definitions, own, children⟩⟩
    let imported ← importsForest imports
    let rules ← rulesForest document.keys (.ofBlock document.block) .outside children
    return imported ++ rules

def Import.forest : Import → Except Fault (List Css.Node)
  | .sheet document => document.forest
  | .css t => return [.raw t]

def importsForest : List Import → Except Fault (List Css.Node)
  | [] => return []
  | i :: rest => do
    let first ← i.forest
    let others ← importsForest rest
    return first ++ others

end

/-! ## The forest is what is printed -/

open Drafting (Prints)

variable {e : Document} {idle idle' : List DefinitionKey}

mutual

theorem Rule.draft_prints {layer : Layer} {outer : Scope} (h : e.IdleAlike idle idle') :
    ∀ rule : Rule, e.HasScope (layer :: outer) → rule ∈ layer.block.children →
      (rule.draft idle (layer :: outer)).Prints (rule.forest idle' (layer :: outer))
  | ⟨selectors, own, kind, condition, ⟨imports, definitions, declarations, children⟩, span⟩,
      hscope, hmem => by
      have hinner : e.HasScope
          (⟨⟨imports, definitions, declarations, children⟩, []⟩ :: layer :: outer) :=
        hscope.nest hmem
      have hsettles := Scope.declarations_settles idle mixinLimit
        (⟨⟨imports, definitions, declarations, children⟩, []⟩ :: layer :: outer)
        ⟨imports, definitions, declarations, children⟩
      rw [hinner.expand_congr h] at hsettles
      have hchildren := draftRules_prints h .outside children hinner (List.Subset.refl _)
      rw [Rule.draft.eq_def, Rule.forest.eq_def]
      cases kind with
      | mixin _ => exact .nothing
      | directive t => exact .write fun w => w.directive_eq t
      | style =>
          refine .after hsettles fun own _ => ?_
          cases !own.isEmpty && !selectors.isEmpty with
          | true => exact (Prints.write fun w => w.styleRule_eq selectors own).bind hchildren
          | false => exact Prints.bind .nothing hchildren
      | atRule prelude =>
          refine .after hsettles fun own _ => ?_
          cases selectors.isEmpty && children.isEmpty with
          | true =>
              cases !own.isEmpty with
              | true =>
                  show (Drafting.write (·.inlineAtRule prelude own)).Prints
                    (.ok [.rule [prelude] own])
                  exact .write fun w => w.inlineAtRule_eq prelude own
              | false => exact .nothing
          | false => exact hchildren.atRule

theorem draftRules_prints {layer : Layer} {outer : Scope} (h : e.IdleAlike idle idle') :
    ∀ (chain : Chain) (rules : List Rule), e.HasScope (layer :: outer) →
      rules ⊆ layer.block.children →
      (draftRules idle (layer :: outer) chain rules).Prints
        (rulesForest idle' (layer :: outer) chain rules)
  | _, [], _, _ => .nothing
  | chain, rule :: rest, hscope, hsubset => by
      rw [draftRules, rulesForest]
      obtain ⟨hrule, hrest⟩ := List.cons_subset.mp hsubset
      have htakes := chain.takes_settles idle (layer :: outer) rule
      rw [Chain.admits_congr hscope h] at htakes
      refine .after htakes fun (taken, chain) _ => ?_
      have hothers := draftRules_prints h chain rest hscope hrest
      cases taken with
      | true => exact (rule.draft_prints h hscope hrule).bind hothers
      | false => exact Prints.bind .nothing hothers

end

mutual

theorem Document.draft_prints :
    ∀ e : Document, (∀ key ∈ e.keys, key ∈ idle) → (e.draft idle).Prints e.forest
  | ⟨path, ⟨imports, definitions, declarations, children⟩⟩, h => by
      rw [Document.draft.eq_def, Document.forest.eq_def]
      have himports := draftImports_prints imports fun key hkey => h key <|
        (Block.importKeys_sublist _).subset hkey
      refine himports.bind (draftRules_prints (e := ⟨path, _⟩) ?_ .outside children .root
        (List.Subset.refl _))
      exact fun key hkey => ⟨fun _ => hkey, fun _ => h key hkey⟩

theorem Import.draft_prints :
    ∀ i : Import, (∀ key ∈ i.keys, key ∈ idle) → (i.draft idle).Prints i.forest
  | .sheet e, h => e.draft_prints h
  | .css t, _ => by
      show (Drafting.write (·.raw t)).Prints (.ok [.raw t])
      exact .write fun w => w.raw_eq t

theorem draftImports_prints :
    ∀ imports : List Import, (∀ key ∈ importKeys imports, key ∈ idle) →
      (draftImports idle imports).Prints (importsForest imports)
  | [], _ => .nothing
  | i :: rest, h => by
      rw [draftImports, importsForest]
      rw [importKeys] at h
      exact (i.draft_prints fun key hkey => h key (List.mem_append_left _ hkey)).bind
        (draftImports_prints rest fun key hkey => h key (List.mem_append_right _ hkey))

end

/-! ## Declarations -/

namespace Css.Node

mutual

/-- The declarations in a node, in order. -/
def declarations : Node → List Declaration
  | raw _ | directive _ => []
  | rule _ declarations | bare declarations => declarations
  | block _ body => allDeclarations body

def allDeclarations : List Node → List Declaration
  | [] => []
  | node :: rest => declarations node ++ allDeclarations rest

end

@[simp] theorem allDeclarations_append (nodes nodes' : List Node) :
    allDeclarations (nodes ++ nodes') = allDeclarations nodes ++ allDeclarations nodes' := by
  induction nodes with
  | nil => rfl
  | cons node rest ih => simp [allDeclarations, ih]

theorem allDeclarations_own (selectors : List Text) (declarations : List Declaration) :
    allDeclarations (own selectors declarations) = declarations := by
  cases declarations with
  | nil => rfl
  | cons => cases selectors <;> simp [own, allDeclarations, Node.declarations]

end Css.Node

/-! ## Declarations in the text -/

namespace Text

/-- The parts stand in the text, one behind the other and in this order. -/
def HasInOrder (t : Text) : (parts : List Text) → Prop
  | [] => True
  | part :: parts => ∃ before after : Text, t = before ++ part ++ after ∧ after.HasInOrder parts

variable {t u : Text} {parts parts' : List Text}

theorem HasInOrder.behind (u : Text) (h : t.HasInOrder parts) : (u ++ t).HasInOrder parts := by
  cases parts with
  | nil => trivial
  | cons part parts =>
      obtain ⟨before, after, rfl, hparts⟩ := h
      exact ⟨u ++ before, after, by simp, hparts⟩

theorem HasInOrder.append (h : t.HasInOrder parts) (h' : u.HasInOrder parts') :
    (t ++ u).HasInOrder (parts ++ parts') := by
  induction parts generalizing t with
  | nil => exact h'.behind t
  | cons part parts ih =>
      obtain ⟨before, after, rfl, hparts⟩ := h
      exact ⟨before, after ++ u, by simp, ih hparts⟩

theorem HasInOrder.before (u : Text) (h : t.HasInOrder parts) : (t ++ u).HasInOrder parts := by
  have happend : (t ++ u).HasInOrder (parts ++ []) := h.append trivial
  rwa [List.append_nil] at happend

theorem HasInOrder.line (indentation : Nat) (h : t.HasInOrder parts) :
    (Css.Node.line indentation t).HasInOrder parts :=
  (h.behind _).before _

end Text

namespace Css.Node

theorem declarationsText_hasInOrder (declarations : List Declaration) :
    (declarationsText declarations).HasInOrder (declarations.map declarationText) := by
  induction declarations with
  | nil => trivial
  | cons d rest ih =>
      cases rest with
      | nil => exact ⟨[], [], by simp [declarationsText], trivial⟩
      | cons d' rest =>
          exact ⟨[], ' ' :: declarationsText (d' :: rest), by simp [declarationsText],
            ih.behind [' ']⟩

mutual

theorem print_hasInOrder : ∀ (indentation : Nat) (node : Node),
    (node.print indentation).HasInOrder (node.declarations.map declarationText)
  | _, raw _ | _, directive _ => trivial
  | _, rule _ declarations =>
      (((declarationsText_hasInOrder declarations).behind _).before _).line _
  | _, bare declarations => (declarationsText_hasInOrder declarations).line _
  | indentation, block prelude body => by
      have hbody := printAll_hasInOrder (indentation + 2) body
      rw [print, declarations]
      split
      · rename_i hinside
        rwa [hinside] at hbody
      · exact (hbody.behind _).before _

/-- A forest has its declarations in its text. -/
theorem printAll_hasInOrder : ∀ (indentation : Nat) (nodes : List Node),
    (printAll indentation nodes).HasInOrder ((allDeclarations nodes).map declarationText)
  | _, [] => trivial
  | indentation, node :: rest => by
      rw [printAll, allDeclarations, List.map_append]
      exact (print_hasInOrder indentation node).append (printAll_hasInOrder indentation rest)

end

/-- What leaves no text has no declarations. -/
theorem declarations_of_print_eq_nil {indentation : Nat} {node : Node}
    (h : node.print indentation = []) : node.declarations = [] := by
  have hparts := print_hasInOrder indentation node
  rw [h] at hparts
  cases hdeclarations : node.declarations with
  | nil => rfl
  | cons d rest =>
      rw [hdeclarations] at hparts
      obtain ⟨before, after, htext, -⟩ := hparts
      simp [declarationText] at htext

end Css.Node

/-! ## Expansions -/

mutual

/-- The expansions of a rule that takes part and of the rules nested in it, in the order
they stand in. A style rule has no place for declarations if it has no selectors. -/
def Rule.expansions (idle : List DefinitionKey) (scope : Scope) :
    Rule → Except Fault (List (List Css.Declaration))
  | ⟨selectors, _, kind, _, ⟨imports, definitions, own, children⟩, _⟩ =>
    let block : Block := ⟨imports, definitions, own, children⟩
    let inner := scope.nest block
    match kind with
    | .mixin _ | .directive _ => return []
    | .style => do
      let declarations ← inner.expand idle mixinLimit block
      let nested ← rulesExpansions idle inner .outside children
      return (if selectors.isEmpty then [] else [declarations]) ++ nested
    | .atRule _ => do
      let declarations ← inner.expand idle mixinLimit block
      let nested ← rulesExpansions idle inner .outside children
      return [declarations] ++ nested

def rulesExpansions (idle : List DefinitionKey) (scope : Scope) (chain : Chain) :
    List Rule → Except Fault (List (List Css.Declaration))
  | [] => return []
  | rule :: rest => do
    let (taken, chain) ← chain.admits idle scope rule
    let first ← if taken then rule.expansions idle scope else pure []
    let others ← rulesExpansions idle scope chain rest
    return first ++ others

end

mutual

/-- The expansions of all rules of a document that take part, those of what it imports
first. -/
def Document.expansions : Document → Except Fault (List (List Css.Declaration))
  | ⟨path, ⟨imports, definitions, own, children⟩⟩ => do
    let document : Document := ⟨path, ⟨imports, definitions, own, children⟩⟩
    let imported ← importsExpansions imports
    let rules ← rulesExpansions document.keys (.ofBlock document.block) .outside children
    return imported ++ rules

def Import.expansions : Import → Except Fault (List (List Css.Declaration))
  | .sheet document => document.expansions
  | .css _ => return []

def importsExpansions : List Import → Except Fault (List (List Css.Declaration))
  | [] => return []
  | i :: rest => do
    let first ← i.expansions
    let others ← importsExpansions rest
    return first ++ others

end

/-- The declarations of the forest are those of the expansions, one after the other. -/
def Comprises (forest : Except Fault (List Css.Node))
    (expansions : Except Fault (List (List Css.Declaration))) : Prop :=
  forest.map Css.Node.allDeclarations = expansions.map List.flatten

namespace Comprises

variable {α : Type} {forest forest' : Except Fault (List Css.Node)}
  {expansions expansions' : Except Fault (List (List Css.Declaration))}

theorem nothing : Comprises (.ok []) (.ok []) := rfl

theorem after {e : Except Fault α} {f : α → Except Fault (List Css.Node)}
    {g : α → Except Fault (List (List Css.Declaration))} (h : ∀ a, Comprises (f a) (g a)) :
    Comprises (e >>= f) (e >>= g) := by
  cases e with
  | error fault => rfl
  | ok a => exact h a

theorem outcomes (h : Comprises forest expansions) :
    (∃ fault, forest = .error fault ∧ expansions = .error fault) ∨
      ∃ nodes lists, forest = .ok nodes ∧ expansions = .ok lists ∧
        Css.Node.allDeclarations nodes = lists.flatten := by
  cases forest with
  | error fault =>
      cases expansions with
      | error fault' => exact .inl ⟨fault, rfl, congrArg Except.error (Except.error.inj h).symm⟩
      | ok => cases h
  | ok nodes =>
      cases expansions with
      | error => cases h
      | ok lists => exact .inr ⟨nodes, lists, rfl, rfl, Except.ok.inj h⟩

theorem map {f : List Css.Node → List Css.Node}
    {g : List (List Css.Declaration) → List (List Css.Declaration)}
    (h : Comprises forest expansions)
    (hfg : ∀ nodes lists, Css.Node.allDeclarations nodes = lists.flatten →
      Css.Node.allDeclarations (f nodes) = (g lists).flatten) :
    Comprises (do return f (← forest)) (do return g (← expansions)) := by
  obtain ⟨fault, rfl, rfl⟩ | ⟨nodes, lists, rfl, rfl, hnodes⟩ := h.outcomes
  · rfl
  · exact congrArg Except.ok (hfg nodes lists hnodes)

theorem append (h : Comprises forest expansions) (h' : Comprises forest' expansions') :
    Comprises (do return (← forest) ++ (← forest'))
      (do return (← expansions) ++ (← expansions')) := by
  obtain ⟨fault, rfl, rfl⟩ | ⟨nodes, lists, rfl, rfl, hnodes⟩ := h.outcomes
  · rfl
  · refine h'.map fun nodes' lists' hnodes' => ?_
    rw [Css.Node.allDeclarations_append, List.flatten_append, hnodes, hnodes']

end Comprises

mutual

theorem Rule.forest_comprises (scope : Scope) :
    ∀ rule : Rule, Comprises (rule.forest idle scope) (rule.expansions idle scope)
  | ⟨selectors, own, kind, condition, ⟨imports, definitions, declarations, children⟩, span⟩ => by
      rw [Rule.forest.eq_def, Rule.expansions.eq_def]
      have hchildren := rulesForest_comprises
        (scope.nest ⟨imports, definitions, declarations, children⟩) .outside children
      cases kind with
      | mixin _ | directive _ => rfl
      | style =>
          refine .after fun own => hchildren.map fun nodes lists hnested => ?_
          cases own <;> cases selectors <;>
            simp [Css.Node.allDeclarations, Css.Node.declarations, hnested]
      | atRule prelude =>
          refine .after fun own => ?_
          cases hempty : selectors.isEmpty && children.isEmpty with
          | true =>
              obtain ⟨-, hempty⟩ := Bool.and_eq_true_iff.mp hempty
              obtain rfl := List.isEmpty_iff.mp hempty
              cases own <;> rfl
          | false =>
              refine hchildren.map fun nodes lists hnested => ?_
              simp [Css.Node.allDeclarations, Css.Node.declarations,
                Css.Node.allDeclarations_own, hnested]

theorem rulesForest_comprises (scope : Scope) :
    ∀ (chain : Chain) (rules : List Rule),
      Comprises (rulesForest idle scope chain rules) (rulesExpansions idle scope chain rules)
  | _, [] => rfl
  | chain, rule :: rest => by
      rw [rulesForest, rulesExpansions]
      refine .after fun (taken, chain) => ?_
      have hothers := rulesForest_comprises scope chain rest
      cases taken with
      | true => exact (rule.forest_comprises scope).append hothers
      | false => exact Comprises.nothing.append hothers

end

mutual

theorem Document.forest_comprises : ∀ e : Document, Comprises e.forest e.expansions
  | ⟨path, ⟨imports, definitions, declarations, children⟩⟩ => by
      rw [Document.forest.eq_def, Document.expansions.eq_def]
      exact (importsForest_comprises imports).append (rulesForest_comprises _ .outside children)

theorem Import.forest_comprises : ∀ i : Import, Comprises i.forest i.expansions
  | .sheet e => e.forest_comprises
  | .css _ => rfl

theorem importsForest_comprises :
    ∀ imports : List Import, Comprises (importsForest imports) (importsExpansions imports)
  | [] => rfl
  | i :: rest => by
      rw [importsForest, importsExpansions]
      exact i.forest_comprises.append (importsForest_comprises rest)

end

/-! ## The CSS of a document -/

theorem Document.css_printed (d : Document) : d.css.1 = d.forest.map (Css.Node.printAll 0) :=
  (d.draft_prints fun _ hkey => hkey).text

theorem Document.css_hasInOrder (d : Document) {css : Text}
    {expansions : List (List Css.Declaration)} (hcss : d.css.1 = .ok css)
    (hexpansions : d.expansions = .ok expansions) :
    css.HasInOrder (expansions.flatten.map Css.Node.declarationText) := by
  rw [d.css_printed] at hcss
  obtain ⟨fault, hforest, -⟩ | ⟨nodes, lists, hforest, hlists, hnodes⟩ :=
    d.forest_comprises.outcomes
  · rw [hforest] at hcss
    cases hcss
  · rw [hforest] at hcss
    cases hcss
    cases hlists.symm.trans hexpansions
    rw [← hnodes]
    exact Css.Node.printAll_hasInOrder 0 nodes

/-- What writing a document comes to. -/
structure Document.WritesForest (d : Document) : Prop where
  /-- The CSS is the text of the forest, and where there is none, the fault is the same. -/
  css : d.css.1 = d.forest.map (Css.Node.printAll 0)
  /-- The forest has what each rule that takes part expands to, once and in order. -/
  declarations : d.forest.map Css.Node.allDeclarations = d.expansions.map List.flatten
  /-- Of these none is in a block that is left out for being empty. -/
  dropped : ∀ indentation prelude body,
    Css.Node.print indentation (.block prelude body) = [] → Css.Node.allDeclarations body = []
  /-- And each of them is spelled out in the CSS, in this order. -/
  spelled : ∀ css expansions, d.css.1 = .ok css → d.expansions = .ok expansions →
    css.HasInOrder (expansions.flatten.map Css.Node.declarationText)

theorem Document.writesForest (d : Document) : d.WritesForest where
  css := d.css_printed
  declarations := d.forest_comprises
  dropped _ _ _ h := Css.Node.declarations_of_print_eq_nil h
  spelled _ _ := d.css_hasInOrder

/-- What is imported comes first. Of the two blocks in the rule the first is left out, since
all that is in it is another block in which nothing is written. -/
theorem Document.writesForest_imported :
    let p : Rule := ⟨["p"], ["p"], .style, none,
      ⟨[], [], [.property ⟨"color", ⟨"red", ⟨1, 3, 6⟩⟩⟩], []⟩, ⟨1, 0, 1⟩⟩
    let m : Rule := ⟨[".m"], [".m"], .mixin [], none,
      ⟨[], [], [.property ⟨"top", ⟨"1px + 1", ⟨0, 5, 12⟩⟩⟩], []⟩, ⟨0, 2, 4⟩⟩
    let supports : Rule := ⟨["a"], [], .atRule "@supports (b: c)", none, .empty, ⟨0, 34, 50⟩⟩
    let print : Rule :=
      ⟨["a"], [], .atRule "@media print", none, ⟨[], [], [], [supports]⟩, ⟨0, 20, 32⟩⟩
    let screen : Rule := ⟨["a"], [], .atRule "@media screen", none,
      ⟨[], [], [.property ⟨"margin", ⟨"0", ⟨0, 70, 71⟩⟩⟩], []⟩, ⟨0, 52, 65⟩⟩
    let a : Rule := ⟨["a"], ["a"], .style, none,
      ⟨[], [], [.property ⟨"left", ⟨"3px", ⟨0, 17, 20⟩⟩⟩, .call ⟨".m", [], ⟨0, 21, 23⟩⟩],
        [print, screen]⟩, ⟨0, 14, 15⟩⟩
    let d : Document :=
      ⟨⟨"d"⟩, ⟨[.sheet ⟨⟨"e"⟩, ⟨[], [], [], [p]⟩⟩, .css "/* i */"], [], [], [m, a]⟩⟩
    d.WritesForest ∧ d.css.1 = .ok
      "p \x7b color: red; \x7d
/* i */
a \x7b left: 3px; top: 2px; \x7d
@media screen \x7b
  a \x7b margin: 0; \x7d
\x7d
" := by
  intro p m supports print screen a d
  have hwrites := d.writesForest
  refine ⟨hwrites, hwrites.css.trans ?_⟩
  decide +kernel

end Cascade
