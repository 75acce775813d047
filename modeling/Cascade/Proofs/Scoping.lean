import Cascade.Proofs.Frames
import Cascade.Proofs.Outside

/-!
# What a rule's variables can change

Another table of variables for a rule changes what is written within the rule and nothing
else, but for the blocks of the at-rules around it, which are not written if nothing is
written in them (`Css.SameOutside`).

What is neither in the rule nor around it is written alike (`Rule.lines_eq`,
`Document.lines_eq`). On the way to the rule, all that is beside it is of this kind, and what
is around it adds to the frame (`Rule.lines_framed`, `Document.lines_framed`).
-/

namespace Cascade

open Css (Line Frame)

theorem Scope.retable_nest (r : Retabling) (b : Address) (s : Scope) (block : Block) :
    (s.nest block).retable r b = (s.retable r b.tail).nest (block.retable r b) := by
  rw [nest, retable, Layer.retable, r.bindings_nil, nest]

section

variable {e : Document} {a b p : Address} {s scope : Scope} {i : Nat} {rule : Rule}
  {rules : List Rule}

theorem Document.ScopeAt.child (h : e.ScopeAt a b s) (hget : s.body.children[i]? = some rule) :
    e.ScopeAt a (.child i :: b) (s.nest rule.block) := by
  cases s with
  | nil => cases hget
  | cons layer outer => exact .body h hget (List.nil_sublist _)

namespace Document.Outside

/-- A rule of a block outside, if it is neither the rule that is replaced nor around it. -/
theorem child (h : e.Outside a p b s) (hget : s.body.children[i]? = some rule)
    (hnext : ¬.child i :: b <:+ p) : e.Outside a p (.child i :: b) (s.nest rule.block) :=
  ⟨h.stands.child hget, Address.not_suffix_cons hnext h.apart⟩

theorem expand_nest_eq (table : Table) (hp : p.OfRule) (hcalls : e.CallsApart a p) {block : Block}
    (h : e.Outside a p b (scope.nest block)) :
    (scope.nest block).expand e.keys mixinLimit block =
      Scope.expand (e.retable (.replacing p table) a).keys mixinLimit
        ((scope.retable (.replacing p table) b.tail).nest (block.retable (.replacing p table) b))
        (block.retable (.replacing p table) b) := by
  rw [← Scope.retable_nest]
  exact h.expand_eq table hp hcalls mixinLimit

end Document.Outside

theorem getElem?_of_drop {α : Type} {l rest : List α} {i : Nat} {x : α}
    (h : l.drop i = x :: rest) : l[i]? = some x := by
  rw [← Nat.add_zero i, ← List.getElem?_drop, h, List.getElem?_cons_zero]

theorem drop_succ_of_drop {α : Type} {l rest : List α} {i : Nat} {x : α}
    (h : l.drop i = x :: rest) : l.drop (i + 1) = rest := by
  rw [← List.tail_drop, h, List.tail_cons]

/-! ## Rules outside -/

variable (table : Table)

mutual

/-- A rule that is neither in the rule that is replaced nor around it writes what it wrote. -/
theorem Rule.lines_eq (hp : p.OfRule) (hcalls : e.CallsApart a p) : ∀ (rule : Rule) {b : Address}
    {scope : Scope} (indentation : Nat), e.Outside a p b (scope.nest rule.block) → ¬b <:+ p →
      rule.lines e.keys scope b indentation =
        (rule.retable (.replacing p table) b).lines (e.retable (.replacing p table) a).keys
          (scope.retable (.replacing p table) b.tail) b indentation
  | ⟨selectors, own, kind, condition, ⟨imports, definitions, declarations, children⟩, span⟩, b,
      scope, indentation, h, hb => by
      have hexpand := h.expand_nest_eq table hp hcalls
      have hchildren (indentation : Nat) := rulesLines_eq hp hcalls h
        children 0 indentation .outside rfl fun j _ hj => hb ((List.suffix_cons ..).trans hj)
      rw [Scope.retable_nest] at hchildren
      rw [Rule.retable, Rule.lines.eq_def, Rule.lines.eq_def, Block.retable]
      rw [Block.retable] at hexpand hchildren
      simp only [hexpand, hchildren, isEmpty_retableRules]

theorem rulesLines_eq (hp : p.OfRule) (hcalls : e.CallsApart a p) {b : Address} {s : Scope}
    (h : e.Outside a p b s) : ∀ (rules : List Rule) (i indentation : Nat) (chain : Chain),
    s.body.children.drop i = rules → (∀ j, i ≤ j → ¬.child j :: b <:+ p) →
      rulesLines e.keys s b i indentation chain rules =
        rulesLines (e.retable (.replacing p table) a).keys (s.retable (.replacing p table) b) b i
          indentation chain (retableRules (.replacing p table) b i rules)
  | [], _, _, _, _, _ => rfl
  | rule :: rest, i, indentation, chain, hrules, hnext => by
      rw [retableRules, rulesLines, rulesLines, ← h.admits_eq table hp]
      have hrule := h.child (getElem?_of_drop hrules) (hnext i (Nat.le_refl i))
      have hfirst := rule.lines_eq hp hcalls indentation hrule (hnext i (Nat.le_refl i))
      rw [List.tail_cons] at hfirst
      have hothers (chain : Chain) := rulesLines_eq hp hcalls h rest (i + 1) indentation chain
        (drop_succ_of_drop hrules) fun j hj => hnext j (Nat.le_of_succ_le hj)
      simp only [hfirst, hothers]

end

/-! ## The way to the rule -/

theorem Rule.framed_within {d d' : Document} {scope' : Scope} {indentation : Nat}
    (rule rule' : Rule) :
    Framed p (rule.lines d.keys scope p indentation) (rule'.lines d'.keys scope' p indentation) :=
  .hole (fun ls hls l hl => ((rule.lines_spells d.keys scope p indentation).each ls hls l hl).1)
    fun ls hls l hl => ((rule'.lines_spells d'.keys scope' p indentation).each ls hls l hl).1

mutual

/-- A rule around the one that is replaced writes what it wrote, around what that one writes. -/
theorem Rule.lines_framed (hp : p.OfRule) (hcalls : e.CallsApart a p) : ∀ (rule : Rule)
    {b : Address} {scope : Scope} (indentation : Nat), e.Outside a p b (scope.nest rule.block) →
      b <:+ p → Framed p (rule.lines e.keys scope b indentation)
        ((rule.retable (.replacing p table) b).lines (e.retable (.replacing p table) a).keys
          (scope.retable (.replacing p table) b.tail) b indentation)
  | ⟨selectors, own, kind, condition, ⟨imports, definitions, declarations, children⟩, span⟩, b,
      scope, indentation, h, hb => by
      have hexpand := h.expand_nest_eq table hp hcalls
      have hchildren (indentation : Nat) := rulesLines_framed hp hcalls h children 0 indentation
        .outside rfl
      have hnode (indentation : Nat) (nodes : List Css.Node) : ∀ ls,
          (pure (nodes.map (Line.ofNode b indentation)) : Except Fault (List Line)) = .ok ls →
            ∀ l ∈ ls, l.Apart p := by
        rintro _ ⟨⟩ l hl
        obtain ⟨n, -, rfl⟩ := List.mem_map.mp hl
        exact Line.apart_ofNode h.apart indentation n
      rw [Scope.retable_nest] at hchildren
      rw [Rule.retable, Rule.lines.eq_def, Rule.lines.eq_def, Block.retable]
      rw [Block.retable] at hexpand hchildren
      simp only [← hexpand, isEmpty_retableRules]
      cases kind with
      | mixin _ => exact .same (hnode indentation [])
      | directive t => exact .same (hnode indentation [.directive t])
      | style =>
          refine .after fun own _ => ?_
          cases !own.isEmpty && !selectors.isEmpty with
          | true =>
              exact .before rfl (hnode indentation [.rule selectors own]) (hchildren indentation)
          | false => exact .before rfl (hnode indentation []) (hchildren indentation)
      | atRule prelude =>
          refine .after fun own _ => ?_
          cases selectors.isEmpty && children.isEmpty with
          | true =>
              cases !own.isEmpty with
              | true => exact .same (hnode indentation [.rule [prelude] own])
              | false => exact .same (hnode indentation [])
          | false =>
              have hinside := Framed.before rfl
                (hnode (indentation + 2) (Css.Node.own selectors own))
                (hchildren (indentation + 2))
              have hne : b ≠ p := fun heq => h.apart (heq ▸ List.suffix_rfl)
              have hblock := hinside.block indentation prelude hb hne
              simp only [bind_assoc, pure_bind] at hblock
              exact hblock

theorem rulesLines_framed (hp : p.OfRule) (hcalls : e.CallsApart a p) {b : Address} {s : Scope}
    (h : e.Outside a p b s) : ∀ (rules : List Rule) (i indentation : Nat) (chain : Chain),
    s.body.children.drop i = rules →
      Framed p (rulesLines e.keys s b i indentation chain rules)
        (rulesLines (e.retable (.replacing p table) a).keys (s.retable (.replacing p table) b) b i
          indentation chain (retableRules (.replacing p table) b i rules))
  | [], _, _, _, _ => .same fun _ => Framed.apart_of_nil
  | rule :: rest, i, indentation, chain, hrules => by
      rw [retableRules, rulesLines, rulesLines, ← h.admits_eq table hp]
      refine .after fun (taken, chain) _ => ?_
      have hrest := drop_succ_of_drop hrules
      cases taken with
      | false =>
          exact Framed.before rfl (fun _ => Framed.apart_of_nil)
            (rulesLines_framed hp hcalls h rest (i + 1) indentation chain hrest)
      | true =>
          by_cases hon : .child i :: b <:+ p
          · -- Of the rules after it none is around the one that is replaced.
            have hnext := Address.not_suffix_after (fun _ _ => Descent.child.inj) hon
            have hspells := rulesLines_spells e.keys s b (i + 1) indentation chain rest
            have hothers := rulesLines_eq table hp hcalls h rest (i + 1) indentation chain hrest
              hnext
            refine .behind hothers
              (fun ls hls l hl => (hspells.each ls hls l hl).1.apart hnext h.apart) ?_
            by_cases heq : .child i :: b = p
            · rw [heq]
              exact rule.framed_within _
            · have houtside : e.Outside a p (.child i :: b) (s.nest rule.block) := by
                refine ⟨h.stands.child (getElem?_of_drop hrules), fun hsuffix => heq ?_⟩
                exact hon.eq_of_length_le hsuffix.length_le
              exact rule.lines_framed hp hcalls indentation houtside hon
          · have hrule := h.child (getElem?_of_drop hrules) hon
            have hspells := rule.lines_spells e.keys s (.child i :: b) indentation
            refine .before (rule.lines_eq table hp hcalls indentation hrule hon)
              (fun ls hls l hl => (hspells.each ls hls l hl).1.apart hon hrule.apart) ?_
            exact rulesLines_framed hp hcalls h rest (i + 1) indentation chain hrest

end

/-! ## Documents -/

theorem Document.CallsApart.imported {e' : Document} (h : e.CallsApart a p)
    (hget : e.block.imports[i]? = some (.sheet e')) : e'.CallsApart (.imported i :: a) p :=
  fun b s c hs => h b s c (hs.within (.imported .root hget))

theorem Document.CallsApart.import {import' : Import} (h : e.CallsApart a p) {imports : List Import}
    (himports : e.block.imports.drop i = import' :: imports) :
    ∀ e', import' = .sheet e' → e'.CallsApart (.imported i :: a) p :=
  fun _ heq => h.imported (heq ▸ getElem?_of_drop himports)

mutual

/-- A file that neither is imported in the rule nor has the rule in it writes what it wrote. -/
theorem Document.lines_eq (hp : p.OfRule) : ∀ (e : Document) {a : Address}, e.CallsApart a p →
    ¬p <:+ a → ¬a <:+ p → e.lines a = (e.retable (.replacing p table) a).lines a
  | ⟨path, ⟨imports, definitions, declarations, children⟩⟩, a, hcalls, ha, hnext => by
      have hroot : Document.Outside ⟨path, ⟨imports, definitions, declarations, children⟩⟩ a p a
        (.ofBlock ⟨imports, definitions, declarations, children⟩) := ⟨.root, ha⟩
      have hnone {step : Descent} : ¬step :: a <:+ p := fun h =>
        hnext ((List.suffix_cons ..).trans h)
      have himports := importsLines_eq hp hcalls ha imports 0 rfl fun j _ => hnone
      have hrules := rulesLines_eq table hp hcalls hroot children 0 0 .outside rfl
        fun j _ => hnone
      rw [Scope.retable_ofBlock] at hrules
      rw [Document.retable, Document.lines.eq_def, Document.lines.eq_def, Block.retable]
      rw [Document.retable, Block.retable] at hrules
      simp only [hrules, himports]

theorem Import.lines_eq (hp : p.OfRule) : ∀ (i : Import) {a : Address},
    (∀ e, i = Import.sheet e → e.CallsApart a p) → ¬p <:+ a → ¬a <:+ p →
      i.lines a = (i.retable (.replacing p table) a).lines a
  | .sheet e, _, hcalls, ha, hnext => e.lines_eq hp (hcalls e rfl) ha hnext
  | .css _, _, _, _, _ => rfl

theorem importsLines_eq (hp : p.OfRule) {e : Document} {a : Address} (hcalls : e.CallsApart a p)
    (ha : ¬p <:+ a) : ∀ (imports : List Import) (i : Nat), e.block.imports.drop i = imports →
      (∀ j, i ≤ j → ¬.imported j :: a <:+ p) →
        importsLines a i imports =
          importsLines a i (retableImports (.replacing p table) a i imports)
  | [], _, _, _ => rfl
  | import' :: rest, i, himports, hnext => by
      have hfirst := import'.lines_eq hp (hcalls.import himports)
        (hp.not_suffix_imported ha) (hnext i (Nat.le_refl i))
      have hothers := importsLines_eq hp hcalls ha rest (i + 1) (drop_succ_of_drop himports)
        fun j hj => hnext j (Nat.le_of_succ_le hj)
      rw [retableImports, importsLines, importsLines, hfirst, hothers]

end

mutual

/-- A file is written in a frame around the rule, also if the rule is in a file that it
imports. -/
theorem Document.lines_framed (hp : p.OfRule) : ∀ (e : Document) {a : Address},
    e.CallsApart a p → ¬p <:+ a →
      Framed p (e.lines a) ((e.retable (.replacing p table) a).lines a)
  | ⟨path, ⟨imports, definitions, declarations, children⟩⟩, a, hcalls, ha => by
      have hroot : Document.Outside ⟨path, ⟨imports, definitions, declarations, children⟩⟩ a p a
        (.ofBlock ⟨imports, definitions, declarations, children⟩) := ⟨.root, ha⟩
      have hrules := rulesLines_framed table hp hcalls hroot children 0 0 .outside rfl
      have hrules_eq := rulesLines_eq table hp hcalls hroot children 0 0 .outside rfl
      rw [Scope.retable_ofBlock] at hrules hrules_eq
      rw [Document.retable, Document.lines.eq_def, Document.lines.eq_def, Block.retable]
      rw [Document.retable, Block.retable] at hrules hrules_eq
      by_cases hon : ∃ i, .imported i :: a <:+ p
      · obtain ⟨i, hon⟩ := hon
        have hnext (j : Nat) (_ : 0 ≤ j) : ¬.child j :: a <:+ p := fun h => by
          cases Address.step_unique hon h
        refine .behind (hrules_eq hnext) (fun ls hls l hl => ?_)
          (importsLines_framed hp hcalls ha imports 0 rfl)
        exact ((rulesLines_spells _ _ a 0 0 .outside children).each ls hls l hl).1.apart hnext ha
      · have hnext (j : Nat) (_ : 0 ≤ j) : ¬.imported j :: a <:+ p := fun h => hon ⟨j, h⟩
        refine .before (importsLines_eq table hp hcalls ha imports 0 rfl hnext)
          (fun ls hls l hl => ?_) hrules
        exact ((importsLines_spells a 0 imports).each ls hls l hl).apart hnext ha

theorem Import.lines_framed (hp : p.OfRule) : ∀ (i : Import) {a : Address},
    (∀ e, i = Import.sheet e → e.CallsApart a p) → ¬p <:+ a →
      Framed p (i.lines a) ((i.retable (.replacing p table) a).lines a)
  | .sheet e, _, hcalls, ha => e.lines_framed hp (hcalls e rfl) ha
  | .css _, _, _, ha => .same fun ls hls l hl => by
      cases hls
      rw [List.mem_singleton.mp hl]
      exact Line.apart_ofNode ha _ _

theorem importsLines_framed (hp : p.OfRule) {e : Document} {a : Address}
    (hcalls : e.CallsApart a p) (ha : ¬p <:+ a) : ∀ (imports : List Import) (i : Nat),
      e.block.imports.drop i = imports →
        Framed p (importsLines a i imports)
          (importsLines a i (retableImports (.replacing p table) a i imports))
  | [], _, _ => .same fun _ => Framed.apart_of_nil
  | import' :: rest, i, himports => by
      rw [retableImports, importsLines, importsLines]
      have hrest := drop_succ_of_drop himports
      have hout := hp.not_suffix_imported (i := i) ha
      by_cases hon : .imported i :: a <:+ p
      · have hnext := Address.not_suffix_after (fun _ _ => Descent.imported.inj) hon
        refine .behind (importsLines_eq table hp hcalls ha rest (i + 1) hrest hnext)
          (fun ls hls l hl => ?_) (import'.lines_framed hp (hcalls.import himports) hout)
        exact ((importsLines_spells a (i + 1) rest).each ls hls l hl).apart hnext ha
      · refine .before (import'.lines_eq table hp (hcalls.import himports) hout hon)
          (fun ls hls l hl => ?_) (importsLines_framed hp hcalls ha rest (i + 1) hrest)
        exact ((import'.lines_spells (.imported i :: a)).each ls hls l hl).apart hon hout

end

/-! ## What another table can change -/

/-- A document in whose blocks nothing is called. -/
theorem Document.callsApart_of_blocks (blocks : List Block) (hroot : e.block ∈ blocks)
    (h : ∀ block ∈ blocks, (∀ e', Import.sheet e' ∈ block.imports → e'.block ∈ blocks) ∧
      (∀ rule ∈ block.children, rule.block ∈ blocks) ∧
      ∀ c, Declaration.call c ∉ block.declarations) : e.CallsApart a p := by
  have hall {b : Address} {s : Scope} (hs : e.ScopeAt a b s) : s.body ∈ blocks := by
    induction hs with
    | root => exact hroot
    | imported _ hget ih => exact (h _ ih).1 _ (List.mem_of_getElem? hget)
    | body _ hget _ ih => exact (h _ ih).2.1 _ (List.mem_of_getElem? hget)
  exact fun b s c hs hmem _ => ((h s.body (hall hs)).2.2 c hmem).elim

end

/-- What is written outside a rule, for two tables of its variables. -/
structure Css.SameOutside (p : Address) (lines lines' : List Line) : Prop where
  /-- Only what is in the hole of the frame differs. A block of the frame is left out if
  nothing is written in it. -/
  frame : SameFrame p lines lines'
  /-- All lines outside are the same, but for the blocks around the rule. -/
  apart : lines.filter (·.Apart p) = lines'.filter (·.Apart p)
  /-- The blocks are the same too, if both write something for the rule, or neither does. -/
  outside : ((∃ l ∈ lines, l.Within p) ↔ ∃ l ∈ lines', l.Within p) →
    lines.filter (¬·.Within p) = lines'.filter (¬·.Within p)

/-- If no call outside a rule expands it, other variables for it change nothing outside. -/
theorem Document.variablesConfined {d : Document} {p : Address} (hp : p.OfRule)
    (hcalls : d.CallsApart [] p) (table : Table) {css css' : Text} (hcss : d.css.1 = .ok css)
    (hcss' : (d.retable (.replacing p table) []).css.1 = .ok css') :
    ∃ lines lines', d.lines [] = .ok lines ∧ css = Line.textOf lines ∧
      (d.retable (.replacing p table) []).lines [] = .ok lines' ∧ css' = Line.textOf lines' ∧
      Css.SameOutside p lines lines' := by
  have hlines {d : Document} {css : Text} (h : d.css.1 = .ok css) :
      ∃ lines, d.lines [] = .ok lines ∧ css = Line.textOf lines := by
    rw [d.css_lines] at h
    cases hd : d.lines [] with
    | error => simp [hd, Except.map] at h
    | ok lines => exact ⟨lines, rfl, by simpa [hd, Except.map] using h.symm⟩
  obtain ⟨lines, hd, rfl⟩ := hlines hcss
  obtain ⟨lines', hd', rfl⟩ := hlines hcss'
  have hroot : ¬p <:+ [] := by
    obtain ⟨i, q, rfl⟩ := hp
    exact fun h => List.cons_ne_nil _ _ (List.suffix_nil.mp h)
  have hframe := d.lines_framed table hp hcalls hroot lines lines' hd hd'
  exact ⟨lines, lines', hd, rfl, hd', rfl, hframe, hframe.apart, hframe.outside⟩

/-- The variable of a rule in `@media`, left out: the value that uses it changes, the rule
beside it and the block around it do not. -/
theorem Document.variablesConfined_media :
    ∃ (d : Document) (p : Address) (lines lines' : List Line), p.OfRule ∧ d.CallsApart [] p ∧
      d.css.1 = .ok "@media x \x7b\n  a \x7b b: 1; \x7d\n  c \x7b d: e; \x7d\n\x7d\n" ∧
      (d.retable (.replacing p []) []).css.1 =
        .ok "@media x \x7b\n  a \x7b b: @v; \x7d\n  c \x7b d: e; \x7d\n\x7d\n" ∧
      d.lines [] = .ok lines ∧ (d.retable (.replacing p []) []).lines [] = .ok lines' ∧
      Css.SameOutside p lines lines' := by
  let p : Address := [.child 0, .child 0]
  let a : Rule := ⟨["a"], ["a"], .style, none, ⟨[], [("v", ⟨"1", ⟨0, 2, 3⟩⟩)],
    [.property ⟨"b", ⟨"@v", ⟨0, 4, 5⟩⟩⟩], []⟩, ⟨0, 1, 6⟩⟩
  let c : Rule := ⟨["c"], ["c"], .style, none,
    ⟨[], [], [.property ⟨"d", ⟨"e", ⟨0, 8, 9⟩⟩⟩], []⟩, ⟨0, 7, 9⟩⟩
  let media : Rule := ⟨[], [], .atRule "@media x", none, ⟨[], [], [], [a, c]⟩, ⟨0, 0, 9⟩⟩
  let d : Document := ⟨⟨"d"⟩, ⟨[], [], [], [media]⟩⟩
  have hp : p.OfRule := ⟨_, _, rfl⟩
  have hcalls : d.CallsApart [] p := by
    refine callsApart_of_blocks [d.block, media.block, a.block, c.block] (by simp) ?_
    simp [d, media, a, c]
  have hcss : d.css.1 = .ok "@media x \x7b\n  a \x7b b: 1; \x7d\n  c \x7b d: e; \x7d\n\x7d\n" := by
    decide +kernel
  have hcss' : (d.retable (.replacing p []) []).css.1 =
      .ok "@media x \x7b\n  a \x7b b: @v; \x7d\n  c \x7b d: e; \x7d\n\x7d\n" := by decide +kernel
  obtain ⟨lines, lines', hlines, -, hlines', -, hsame⟩ :=
    variablesConfined hp hcalls [] hcss hcss'
  exact ⟨d, p, lines, lines', hp, hcalls, hcss, hcss', hlines, hlines', hsame⟩

/-- The block around a rule that writes something for one table, and nothing for another. -/
theorem Document.not_blocks_confined :
    ¬∀ (d : Document) (p : Address) (table : Table) (lines lines' : List Line), p.OfRule →
      d.CallsApart [] p → d.lines [] = .ok lines →
      (d.retable (.replacing p table) []).lines [] = .ok lines' →
        lines.filter (¬·.Within p) = lines'.filter (¬·.Within p) := by
  intro hall
  let p : Address := [.child 0, .child 0]
  let b : Rule := ⟨["a b"], ["b"], .style, some (.test ⟨"@v = 1", ⟨0, 4, 5⟩⟩),
    ⟨[], [], [.property ⟨"c", ⟨"d", ⟨0, 6, 7⟩⟩⟩], []⟩, ⟨0, 3, 8⟩⟩
  let a : Rule := ⟨["a"], ["a"], .style, none,
    ⟨[], [("v", ⟨"1", ⟨0, 2, 3⟩⟩)], [], [b]⟩, ⟨0, 1, 9⟩⟩
  let media : Rule := ⟨[], [], .atRule "@media x", none, ⟨[], [], [], [a]⟩, ⟨0, 0, 9⟩⟩
  let d : Document := ⟨⟨"d"⟩, ⟨[], [], [], [media]⟩⟩
  let lines : List Line := [⟨[.child 0], true, "@media x \x7b\n"⟩,
    ⟨[.child 0, .child 0, .child 0], false, "  a b \x7b c: d; \x7d\n"⟩,
    ⟨[.child 0], true, "\x7d\n"⟩]
  have hcalls : d.CallsApart [] p := by
    refine callsApart_of_blocks [d.block, media.block, a.block, b.block] (by simp) ?_
    simp [d, media, a, b]
  have hlines : d.lines [] = .ok lines := by decide +kernel
  have hlines' : (d.retable (.replacing p [("v", ⟨"2", ⟨0, 2, 3⟩⟩)]) []).lines [] = .ok [] := by
    decide +kernel
  have hsame := hall d p _ lines [] ⟨_, _, rfl⟩ hcalls hlines hlines'
  revert hsame
  decide

end Cascade
