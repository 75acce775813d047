import Cascade.Proofs.Assembly
import Cascade.Proofs.Outlines
import Cascade.Proofs.PlainText
import Cascade.Proofs.Reading
import Cascade.Proofs.Slices
import Cascade.StyleSheet

/-!
# Plain style sheets stay as they are

A plain style sheet is compiled to itself (`StyleSheet.compile_plain`). The proof follows
the text from front to back, as the reader does: where a slice faces an item, the outline
has that item next and goes on behind it, the item is read into a rule, and the rule is
written as the text of the item. What an item is followed by never matters, so the items
of a block and those of the source are one induction over the form of the text.
-/

namespace Cascade

/-! ## Slices that face a text -/

namespace Slice

variable {s : Slice} {t : Text}

theorem dropGap_text (s : Slice) : s.dropGap.text = s.text.dropWhile isGap := by
  have hgap := List.takeWhile_append_dropWhile (p := isGap) (l := s.text)
  exact (congrArg (List.drop _) hgap).symm.trans List.drop_left

/-- The text is what follows in the source, but for white space in front. -/
def Faces (s : Slice) (t : Text) : Prop := s.text.dropWhile isGap = t.dropWhile isGap

theorem Faces.of_text (h : s.text = t) : s.Faces t := congrArg (List.dropWhile isGap) h

theorem Faces.of_gap {gap : Text} (h : s.Faces (gap ++ t)) (hgap : ∀ c ∈ gap, isGap c = true) :
    s.Faces t := by
  rw [Faces, List.dropWhile_append_of_pos hgap] at h
  exact h

theorem Faces.skip {c : Char} (h : s.Faces (c :: t)) (hc : isGap c = true) : s.Faces t :=
  (h : s.Faces ([c] ++ t)).of_gap (List.forall_mem_singleton.mpr hc)

theorem Faces.cons {c : Char} (h : s.Faces (c :: t)) (hc : isGap c = false) :
    s.dropGap.text = c :: t := by
  rw [dropGap_text, h, List.dropWhile_cons_of_neg (by simp [hc])]

end Slice

namespace Statement

variable {nested : Bool} {s : Slice} {t rest : Text}

open Plain (IsSmooth IsOrdinary)

theorem untilTop_ends {c : Char} (hs : s.text = t ++ c :: rest) (ht : IsSmooth t)
    (hc : ends c = true) :
    (s.untilTop ends).1.text = t ∧ (s.untilTop ends).2.text = c :: rest :=
  Slice.untilTop_of_outer hs (fun c hc => (ht c (Text.outer_subset hc)).2) ht.calm.run hc

theorem cut_eq_cutPlain {c : Char} (hs : s.text = t ++ c :: rest) (ht : IsOrdinary t)
    (hc : ends c = true) : cut nested s = cutPlain nested s := by
  obtain ⟨himport, hdefinition⟩ := ht c rest hc
  rw [← hs] at himport hdefinition
  simp only [cut, himport, hdefinition, Bool.false_eq_true, if_false]

theorem cut_opening (hs : s.text = t ++ '\x7b' :: rest) (ht : IsSmooth t)
    (hordinary : IsOrdinary t) :
    ∃ prelude after, cut nested s = .opening prelude after ∧ prelude.text = t ∧
      after.text = rest := by
  obtain ⟨hwhole, hafter⟩ := untilTop_ends hs ht rfl
  refine ⟨_, _, (cut_eq_cutPlain hs hordinary rfl).trans (cutPlain_of_brace hafter), hwhole, ?_⟩
  exact congrArg (List.drop 1) hafter

theorem cut_directive (hs : s.text = ('@' :: t) ++ ';' :: rest) (ht : IsSmooth ('@' :: t))
    (hordinary : IsOrdinary ('@' :: t)) :
    ∃ whole after, cut nested s = .statement (.directive whole) after ∧ whole.text = '@' :: t ∧
      after.text = rest := by
  obtain ⟨hwhole, hafter⟩ := untilTop_ends hs ht rfl
  refine ⟨_, afterEnd (s.untilTop ends).2, ?_, hwhole, ?_⟩
  · rw [cut_eq_cutPlain hs hordinary rfl]
    simp [cutPlain, hwhole, hafter]
  · rw [afterEnd, hafter]
    exact congrArg (List.drop 1) hafter

theorem cut_property {c : Char} (hs : s.text = (c :: t) ++ ';' :: rest) (ht : IsSmooth (c :: t))
    (hordinary : IsOrdinary (c :: t)) (hat : c ≠ '@') (hdot : c ≠ '.') :
    ∃ whole after, cut true s = .statement (.property whole) after ∧ whole.text = c :: t ∧
      after.text = rest := by
  obtain ⟨hwhole, hafter⟩ := untilTop_ends hs ht rfl
  refine ⟨_, afterEnd (s.untilTop ends).2, ?_, hwhole, ?_⟩
  · rw [cut_eq_cutPlain hs hordinary rfl]
    simp [cutPlain, hwhole, hafter, hat, hdot]
  · rw [afterEnd, hafter]
    exact congrArg (List.drop 1) hafter

end Statement

/-! ## Outlines, one statement at a time -/

namespace Outline.Scans

variable {opened : Option Slice} {input rest : Slice} {outline : Outline}

theorem of_close {prelude : Slice} (h : Scans (some prelude) input outline rest) {t : Text}
    (ht : input.Faces ('\x7d' :: t)) : outline = .closed ∧ rest.text = t := by
  have htext := ht.cons rfl
  cases h with
  | unclosed hs | skip hs | broken hs hc | statement hs hc | block hs hc =>
      rw [htext] at hs
      cases hs
      try cases hc
  | close hs => exact ⟨rfl, congrArg (List.drop 1) htext⟩

theorem of_end (h : Scans none input outline rest) (ht : input.Faces []) : outline = .closed := by
  have htext : input.dropGap.text = [] := (Slice.dropGap_text input).trans ht
  cases h with
  | ended => rfl
  | skip hs | unmatched hs | broken hs | statement hs | block hs =>
      rw [htext] at hs
      cases hs

end Outline.Scans

/-! ## Readings that yield -/

/-- Whatever has been left behind so far, the reading succeeds with this. -/
def Reading.Yields {α : Type} (m : Reading α) (a : α) : Prop :=
  ∀ st, ∃ st', m.run.run st = (.ok a, st')

namespace Reading.Yields

variable {α β : Type} {m : Reading α} {a : α}

theorem pure (a : α) : Yields (Pure.pure a) a := fun st => ⟨st, rfl⟩

theorem note (span : Span) (n : Note) : Yields (Reading.note span n) () := fun _ => ⟨_, rfl⟩

theorem lift {e : Except Fault α} (h : e = .ok a) : Yields (liftM e) a := by
  subst h
  exact fun st => ⟨st, rfl⟩

theorem bind {f : α → Reading β} {b : β} (h : m.Yields a) (h' : (f a).Yields b) :
    (m >>= f).Yields b := by
  intro st
  obtain ⟨st₁, hm⟩ := h st
  obtain ⟨st₂, hf⟩ := h' st₁
  exact ⟨st₂, (run_bind_ok hm).trans hf⟩

end Reading.Yields

namespace Desk

open Plain (IsPrelude IsWord IsValue)

variable {d : Desk} {parents : List Text} {block : Block}

theorem addStatement_directive (whole : Slice) :
    (d.addStatement block (.directive whole)).Yields
      (block.addChild (.directive whole.collapsed (whole.span d.source))) :=
  .bind (.note _ _) (.pure _)

theorem addStatement_property {whole : Slice} {p : Property}
    (h : Property.read d.source whole = .ok p) :
    (d.addStatement block (.property whole)).Yields (block.addDeclaration (.property p)) :=
  .bind (.lift h) (.pure _)

theorem heading_atRule {prelude : Slice} {t : Text} (h : IsPrelude ('@' :: t))
    (hprelude : prelude.collapsed = '@' :: t) :
    (d.heading parents prelude).Yields
      ⟨parents, [], .atRule ('@' :: t), none, .empty, prelude.span d.source⟩ := by
  unfold heading
  simp only [hprelude, h.split]
  exact .bind (.lift (h.signature _)) (.bind (.note _ _) (.pure _))

theorem heading_style {prelude : Slice} {t : Text} (h : IsPrelude t) (hat : t.head? ≠ some '@')
    (hprelude : prelude.collapsed = t) :
    (d.heading parents prelude).Yields
      ⟨Selector.compose parents (Selector.ofList t), Selector.ofList t, .style, none, .empty,
        prelude.span d.source⟩ := by
  unfold heading
  simp only [hprelude, h.split]
  refine .bind (.lift (h.signature _)) ?_
  simp only [hat, if_false]
  exact .bind (.note _ _) (.pure _)

theorem readInto_statement {st : Statement} {rest : Outline} {block' b : Block}
    (h : (d.addStatement block st).Yields block') (h' : (d.readInto parents block' rest).Yields b) :
    (d.readInto parents block (.statement st rest)).Yields b := by
  rw [readInto]
  exact h.bind h'

theorem readInto_block {prelude : Slice} {body rest : Outline} {rule : Rule} {contents b : Block}
    (h : (d.heading parents prelude).Yields rule)
    (hbody : (d.readInto rule.selectors .empty body).Yields contents)
    (hrest : (d.readInto parents (block.addChild { rule with block := contents }) rest).Yields b) :
    (d.readInto parents block (.block prelude body rest)).Yields b := by
  rw [readInto]
  exact h.bind (hbody.bind hrest)

end Desk

theorem Slice.cutAt?_eq {s : Slice} {c : Char} {before after : Text}
    (hs : s.text = before ++ c :: after) (hc : c ∉ before) :
    ∃ first rest, s.cutAt? c = some (first, rest) ∧ first.text = before ∧ rest.text = after := by
  have htake : s.text.takeWhile (· ≠ c) = before := by
    rw [hs, List.takeWhile_append_of_pos fun d hd => by simp [ne_of_mem_of_not_mem hd hc],
      List.takeWhile_cons_of_neg (by simp), List.append_nil]
  have hlt : before.length < s.length := by simp [length, hs]
  refine ⟨s.take before.length, s.drop (before.length + 1), ?_, ?_, ?_⟩
  · rw [cutAt?, htake]
    exact if_pos hlt
  · rw [take, hs]
    exact List.take_left
  · rw [drop, hs, ← List.drop_drop, List.drop_left]
    rfl

namespace Plain

theorem IsWord.name {w : Text} (h : IsWord [] w) : w.collapse = w ∧ ':' ∉ w := by
  refine ⟨(Text.IsSpaced.word (h.solid fun _ => List.not_mem_nil.elim)).collapse, fun hcolon => ?_⟩
  exact absurd (h.chars ':' hcolon) (by decide)

end Plain

theorem Property.read_plain {whole : Slice} {name value : Text} (source : Nat)
    (hname : Plain.IsWord [] name) (hvalue : Plain.IsValue value)
    (hwhole : whole.text = name ++ ':' :: ' ' :: value) :
    ∃ span, Property.read source whole = .ok ⟨name, ⟨value, span⟩⟩ := by
  obtain ⟨hcollapse, hcolon⟩ := hname.name
  obtain ⟨first, rest, hcut, hfirst, hrest⟩ := Slice.cutAt?_eq hwhole hcolon
  have hne : name.isEmpty = false := by simpa using hname.ne_nil
  refine ⟨rest.span source, ?_⟩
  rw [read, hcut]
  simp only [Slice.collapsed, Slice.trimmed, hfirst, hrest, hcollapse, hne, hvalue.trim_cons_space,
    Bool.false_eq_true, if_false]

/-! ## Items, one at a time -/

theorem isGap_eq_false_of_not_blank {c : Char} (h : isBlank c = false) : isGap c = false :=
  Bool.eq_false_iff.mpr fun hgap => by simp [isBlank_of_isGap hgap] at h

namespace Plain

variable {opened : Option Slice} {input rest : Slice} {outline : Outline} {t u : Text}

theorem IsSmooth.endsDefinition {c : Char} (h : IsSmooth (c :: t)) :
    Statement.endsDefinition c = false := by
  have hends := (h c (List.mem_cons_self ..)).2
  rw [Statement.ends, Bool.or_eq_false_iff] at hends
  exact hends.2

/-- A prelude faces the slice: the outline goes on with its block. -/
theorem IsPrelude.scans (h : IsPrelude t) (hordinary : IsOrdinary (t ++ [' ']))
    (hscan : Outline.Scans opened input outline rest)
    (hinput : input.Faces (t ++ ' ' :: '\x7b' :: u)) :
    ∃ prelude after body inside outline', outline = .block prelude body outline' ∧
      prelude.collapsed = t ∧ after.text = u ∧ Outline.Scans (some prelude) after body inside ∧
      Outline.Scans opened inside outline' rest := by
  obtain ⟨c, tail, rfl, hc⟩ := h.spaced.cons_eq
  have htext := hinput.cons (isGap_eq_false_of_not_blank hc)
  have hsmooth : IsSmooth ((c :: tail) ++ [' ']) :=
    h.smooth.append (List.forall_mem_singleton.mpr ⟨rfl, rfl⟩)
  have htext' : input.dropGap.text = ((c :: tail) ++ [' ']) ++ '\x7b' :: u := by simp [htext]
  obtain ⟨prelude, after, hcut, hprelude, hafter⟩ :=
    Statement.cut_opening htext' hsmooth hordinary
  obtain ⟨body, inside, outline', houtline, hbody, hrest⟩ :=
    hscan.of_opening htext h.smooth.endsDefinition hcut
  refine ⟨prelude, after, body, inside, outline', houtline, ?_, hafter, hbody, hrest⟩
  rw [Slice.collapsed, hprelude, Text.collapse_concat_space, h.spaced.collapse]

/-- An at-rule without a block faces the slice. -/
theorem IsHeading.scans (h : IsHeading t) (hscan : Outline.Scans opened input outline rest)
    (hinput : input.Faces (t ++ ';' :: u)) :
    ∃ whole after outline', outline = .statement (.directive whole) outline' ∧
      whole.collapsed = t ∧ after.text = u ∧ Outline.Scans opened after outline' rest := by
  have hordinary : IsOrdinary t := List.append_nil t ▸ h.ordinary (.inl rfl)
  have hsmooth := h.isPrelude.smooth
  obtain ⟨tail, rfl, -⟩ := h.chars
  have htext := hinput.cons rfl
  obtain ⟨whole, after, hcut, hwhole, hafter⟩ :=
    Statement.cut_directive htext hsmooth hordinary
  obtain ⟨outline', houtline, hrest⟩ := hscan.of_statement htext rfl hcut
  refine ⟨whole, after, outline', houtline, ?_, hafter, hrest⟩
  rw [Slice.collapsed, hwhole, h.spaced.collapse]

/-- A declaration faces the slice. -/
theorem scans_property {prelude : Slice} {name value : Text} (hname : IsWord [] name)
    (hvalue : IsValue value) (hscan : Outline.Scans (some prelude) input outline rest)
    (hinput : input.Faces (name ++ ':' :: ' ' :: value ++ ';' :: u)) :
    ∃ whole after outline', outline = .statement (.property whole) outline' ∧
      whole.text = name ++ ':' :: ' ' :: value ∧ after.text = u ∧
      Outline.Scans (some prelude) after outline' rest := by
  have hmild := hname.mild fun _ => List.not_mem_nil.elim
  have hsmooth : IsSmooth (name ++ ':' :: ' ' :: value) :=
    .append (.of_mild fun c hc => .inl (hmild c hc)) <|
      List.forall_mem_cons.mpr ⟨⟨rfl, rfl⟩,
        List.forall_mem_cons.mpr ⟨⟨rfl, rfl⟩, IsSmooth.of_mild hvalue.mild⟩⟩
  obtain ⟨c, tail, rfl⟩ := List.exists_cons_of_ne_nil hname.ne_nil
  have hc := hmild c (List.mem_cons_self ..)
  have hdot : c ≠ '.' := by
    rintro rfl
    exact absurd (hname.chars '.' (List.mem_cons_self ..)) (by decide)
  have htext := hinput.cons (isGap_eq_false_of_not_blank hc.1)
  obtain ⟨whole, after, hcut, hwhole, hafter⟩ :=
    Statement.cut_property htext hsmooth (hc.ordinary _) (hc.ne (by decide)) hdot
  obtain ⟨outline', houtline, hrest⟩ := hscan.of_statement htext hsmooth.endsDefinition hcut
  exact ⟨whole, after, outline', houtline, hwhole, hafter, hrest⟩

end Plain

/-- The property as it is written if its value comes to itself. -/
def Property.asWritten (p : Property) : Css.Declaration := ⟨p.name, p.value.text⟩

/-- What is read from one outline into one block is read from the other into the other. -/
def Desk.GoesOn (d : Desk) (parents : List Text) (block : Block) (outline : Outline)
    (block' : Block) (outline' : Outline) : Prop :=
  ∀ b, (d.readInto parents block' outline').Yields b → (d.readInto parents block outline).Yields b

namespace Plain

open Css.Node (declarationText declarationsText)

variable {opened : Option Slice} {input rest : Slice} {outline : Outline} {t u : Text}

theorem declarationsText_cons (x : Css.Declaration) (declarations : List Css.Declaration)
    (u : Text) : ∃ gap, (∀ c ∈ gap, isGap c = true) ∧
      declarationsText (x :: declarations) ++ u =
        x.name ++ ':' :: ' ' :: x.value ++
          ';' :: (gap ++ (declarationsText declarations ++ u)) := by
  cases declarations with
  | nil =>
      refine ⟨[], fun _ => List.not_mem_nil.elim, ?_⟩
      simp [declarationsText, declarationText]
  | cons x' declarations =>
      refine ⟨[' '], List.forall_mem_singleton.mpr rfl, ?_⟩
      simp [declarationsText, declarationText]

/-- A line of declarations is spelled as a forest spells it. -/
theorem IsDeclarations.exists_text (h : IsDeclarations t) :
    ∃ declarations : List Css.Declaration, declarations ≠ [] ∧
      (∀ x ∈ declarations, IsWord [] x.name ∧ IsValue x.value) ∧
      t = declarationsText declarations := by
  obtain ⟨declarations, hne, hdeclarations, rfl⟩ := h
  exact ⟨declarations, hne, hdeclarations, Css.Writer.declarationsText_eq declarations⟩

/-- A line of declarations faces the slice: they are read into the block one by one. -/
theorem scans_declarations (d : Desk) {prelude : Slice} :
    ∀ {declarations : List Css.Declaration} {input : Slice} {outline : Outline},
      (∀ x ∈ declarations, IsWord [] x.name ∧ IsValue x.value) →
      Outline.Scans (some prelude) input outline rest →
      input.Faces (declarationsText declarations ++ u) →
      ∃ input' outline', ∃ properties : List Property,
        Outline.Scans (some prelude) input' outline' rest ∧ input'.Faces u ∧
        properties.map Property.asWritten = declarations ∧
        ∀ parents (block : Block), d.GoesOn parents block outline
          { block with declarations := block.declarations ++ properties.map .property } outline'
  | [], input, outline, _, hscan, hinput => by
      refine ⟨input, outline, [], hscan, hinput, rfl, fun parents ⟨_, _, _, _⟩ b hb => ?_⟩
      rw [List.map_nil, List.append_nil] at hb
      exact hb
  | x :: declarations, input, outline, h, hscan, hinput => by
      obtain ⟨⟨hname, hvalue⟩, hdeclarations⟩ := List.forall_mem_cons.mp h
      obtain ⟨gap, hgap, htext⟩ := declarationsText_cons x declarations u
      rw [htext] at hinput
      obtain ⟨whole, after, outline₁, rfl, hwhole, hafter, hscan⟩ :=
        scans_property hname hvalue hscan hinput
      obtain ⟨input', outline', properties, hscan', hinput', hproperties, hgoes⟩ :=
        scans_declarations d hdeclarations hscan ((Slice.Faces.of_text hafter).of_gap hgap)
      obtain ⟨span, hread⟩ := Property.read_plain d.source hname hvalue hwhole
      refine ⟨input', outline', ⟨x.name, ⟨x.value, span⟩⟩ :: properties, hscan', hinput',
        by rw [List.map_cons, hproperties]; rfl, fun parents block b hb => ?_⟩
      refine Desk.readInto_statement (Desk.addStatement_property hread) (hgoes _ _ b ?_)
      simpa [Block.addDeclaration] using hb

end Plain

/-! ## What is written for the items -/

/-- In any scope the rules are written as the text, so far in. -/
def Plain.IsWritten (n : Nat) (rules : List Rule) (t : Text) : Prop :=
  ∀ idle scope, ∃ nodes, rulesForest idle scope .outside rules = .ok nodes ∧
    Css.Node.printAll n nodes = t

namespace Plain

open Css.Node (declarationsText)

theorem IsWritten.nil (n : Nat) : IsWritten n [] [] := fun _ _ => ⟨[], rfl, rfl⟩

theorem IsWritten.cons {n : Nat} {rule : Rule} {rules : List Rule} {t u : Text}
    (hcondition : rule.condition = none)
    (h : ∀ idle scope, ∃ node, rule.forest idle scope = .ok [node] ∧ node.print n = t)
    (h' : IsWritten n rules u) : IsWritten n (rule :: rules) (t ++ u) := by
  intro idle scope
  obtain ⟨node, hnode, rfl⟩ := h idle scope
  obtain ⟨nodes, hnodes, rfl⟩ := h' idle scope
  refine ⟨node :: nodes, ?_, rfl⟩
  have hadmits : Chain.outside.admits idle scope rule = .ok (true, .outside) := by
    rw [Chain.admits_eq, hcondition]
    rfl
  rw [rulesForest, hadmits]
  show (do
    let first ← rule.forest idle scope
    let others ← rulesForest idle scope .outside rules
    return first ++ others : Except Fault _) = _
  rw [hnode, hnodes]
  rfl

/-- Properties with plain values are what their block expands to. -/
theorem expand_properties {properties : List Property}
    (h : ∀ x ∈ properties.map Property.asWritten, IsValue x.value) (children : List Rule)
    (idle : List DefinitionKey) (depth : Nat) (s : Scope) :
    s.expand idle depth ⟨[], [], properties.map .property, children⟩ =
      .ok (properties.map Property.asWritten) := by
  have hmapM : (properties.map Declaration.property).mapM (s.expansion idle depth) =
      .ok (properties.map fun p => [p.asWritten]) := by
    induction properties with
    | nil => rfl
    | cons p rest ih =>
        obtain ⟨hp, hrest⟩ := List.forall_mem_cons.mp h
        have hvalue : s.evaluate idle p.value = .ok p.value.text := hp.evaluate idle s p.value.span
        rw [List.map_cons, List.mapM_cons, ih hrest, Scope.expansion, hvalue]
        rfl
  rw [Scope.expand_eq, hmapM]
  exact congrArg Except.ok List.map_eq_flatMap.symm

/-- In any scope the rule takes part, and it is written as the text, so far in. -/
structure IsWrittenAs (n : Nat) (rule : Rule) (t : Text) : Prop where
  condition : rule.condition = none
  forest : ∀ idle scope, ∃ node, rule.forest idle scope = .ok [node] ∧ node.print n = t

section Rules

variable {n : Nat} {properties : List Property} {span : Span}

theorem isWrittenAs_directive (t : Text) :
    IsWrittenAs n (.directive t span) (Css.Node.line n (t ++ [';'])) :=
  ⟨rfl, fun _ _ => ⟨.directive t, rfl, rfl⟩⟩

theorem isWrittenAs_style {selectors own : List Text} (hselectors : selectors ≠ [])
    (hproperties : properties ≠ []) (h : ∀ x ∈ properties.map Property.asWritten, IsValue x.value) :
    IsWrittenAs n ⟨selectors, own, .style, none, ⟨[], [], properties.map .property, []⟩, span⟩
      (Css.Node.line n (Css.Node.ruleText selectors (properties.map Property.asWritten))) := by
  refine ⟨rfl, fun idle scope => ⟨.rule selectors (properties.map Property.asWritten), ?_, rfl⟩⟩
  rw [Rule.forest, expand_properties h]
  simp [rulesForest, hselectors, hproperties, Pure.pure, Except.pure, Bind.bind, Except.bind]

theorem isWrittenAs_inline {t : Text} (hproperties : properties ≠ [])
    (h : ∀ x ∈ properties.map Property.asWritten, IsValue x.value) :
    IsWrittenAs n ⟨[], [], .atRule t, none, ⟨[], [], properties.map .property, []⟩, span⟩
      (Css.Node.line n (t ++ " \x7b " ++
        Css.Node.declarationsText (properties.map Property.asWritten) ++ " \x7d")) := by
  refine ⟨rfl, fun idle scope => ⟨.rule [t] (properties.map Property.asWritten), ?_, ?_⟩⟩
  · rw [Rule.forest, expand_properties h]
    simp [hproperties, Pure.pure, Except.pure, Bind.bind, Except.bind]
  · rw [Css.Node.print, Css.Node.ruleText, List.intercalate_singleton]

theorem isWrittenAs_block {t inside : Text} {rules : List Rule}
    (h : ∀ x ∈ properties.map Property.asWritten, IsValue x.value)
    (hrules : IsWritten (n + 2) rules inside) (hne : inside ≠ []) :
    IsWrittenAs n ⟨[], [], .atRule t, none, ⟨[], [], properties.map .property, rules⟩, span⟩
      (Css.Node.line n (t ++ " \x7b") ++
        Css.Node.printAll (n + 2) (Css.Node.own [] (properties.map Property.asWritten)) ++ inside ++
        Css.Node.line n "\x7d") := by
  refine ⟨rfl, fun idle scope => ?_⟩
  obtain ⟨nodes, hnodes, hinside⟩ := hrules idle
    (scope.nest ⟨[], [], properties.map .property, rules⟩)
  have hrules : rules ≠ [] := by
    rintro rfl
    cases hnodes
    exact hne hinside.symm
  refine ⟨.block t (Css.Node.own [] (properties.map Property.asWritten) ++ nodes), ?_, ?_⟩
  · rw [Rule.forest, expand_properties h]
    simp [hrules, hnodes, Pure.pure, Except.pure, Bind.bind, Except.bind]
  · rw [Css.Node.print, Css.Node.printAll_append, hinside]
    split
    · rename_i hnil
      exact (hne (List.append_eq_nil_iff.mp hnil).2).elim
    · rw [← List.append_assoc]
      rfl

end Rules

end Plain

/-! ## Reading the items -/

/-- Behind the rules the reading goes on with what faces the tail. -/
def Desk.Passes (d : Desk) (opened : Option Slice) (outline : Outline) (rest : Slice)
    (rules : List Rule) (tail : Text) : Prop :=
  ∃ input' outline', Outline.Scans opened input' outline' rest ∧ input'.Faces tail ∧
    ∀ block : Block, d.GoesOn [] block outline
      { block with children := block.children ++ rules } outline'

namespace Plain

open Css.Node (line declarationsText)

/-- Wherever the text faces a slice, a rule is read from it that is written as the text. -/
def ReadsItem (d : Desk) (n : Nat) (t : Text) : Prop :=
  ∀ ⦃opened : Option Slice⦄ ⦃input : Slice⦄ ⦃outline : Outline⦄ ⦃rest : Slice⦄ ⦃tail : Text⦄,
    Outline.Scans opened input outline rest → input.Faces (t ++ tail) →
    ∃ rule, IsWrittenAs n rule t ∧ d.Passes opened outline rest [rule] tail

/-- Wherever the text faces a slice, rules are read from it that are written as the text. -/
def ReadsItems (d : Desk) (n : Nat) (t : Text) : Prop :=
  ∀ ⦃opened : Option Slice⦄ ⦃input : Slice⦄ ⦃outline : Outline⦄ ⦃rest : Slice⦄ ⦃tail : Text⦄,
    Outline.Scans opened input outline rest → input.Faces (t ++ tail) →
    ∃ rules, IsWritten n rules t ∧ d.Passes opened outline rest rules tail

variable {d : Desk} {n : Nat} {t u : Text}

theorem ReadsItems.nil (d : Desk) (n : Nat) : ReadsItems d n [] := by
  intro opened input outline rest tail hscan hinput
  refine ⟨[], .nil n, input, outline, hscan, hinput, fun ⟨_, _, _, _⟩ b hb => ?_⟩
  rw [List.append_nil] at hb
  exact hb

theorem ReadsItems.cons (h : ReadsItem d n t) (h' : ReadsItems d n u) :
    ReadsItems d n (t ++ u) := by
  intro opened input outline rest tail hscan hinput
  rw [List.append_assoc] at hinput
  obtain ⟨rule, hrule, input₁, outline₁, hscan₁, hinput₁, hgoes⟩ := h hscan hinput
  obtain ⟨rules, hrules, input₂, outline₂, hscan₂, hinput₂, hgoes'⟩ := h' hscan₁ hinput₁
  refine ⟨rule :: rules, .cons hrule.condition hrule.forest hrules, input₂, outline₂, hscan₂,
    hinput₂, fun block b hb => hgoes block b (hgoes' _ b ?_)⟩
  simpa using hb

theorem isGap_of_mem_replicate {c : Char} (h : c ∈ List.replicate n ' ') : isGap c = true := by
  rw [List.eq_of_mem_replicate h]
  rfl

/-- A line faces the slice with its text. -/
theorem faces_line {s : Slice} {tail : Text} (h : s.Faces (line n t ++ tail)) :
    s.Faces (t ++ '\n' :: tail) := by
  have hline : line n t ++ tail = List.replicate n ' ' ++ (t ++ '\n' :: tail) := by simp [line]
  rw [hline] at h
  exact h.of_gap fun c => isGap_of_mem_replicate

theorem IsHeading.readsItem (h : IsHeading t) : ReadsItem d n (line n (t ++ ";")) := by
  intro opened input outline rest tail hscan hinput
  have hfaces : input.Faces (t ++ ';' :: '\n' :: tail) := by simpa using faces_line hinput
  obtain ⟨whole, after, outline', rfl, hwhole, hafter, hrest⟩ := h.scans hscan hfaces
  refine ⟨.directive t (whole.span d.source), isWrittenAs_directive t, after, outline', hrest,
    (Slice.Faces.of_text hafter).skip rfl, fun block b hb => ?_⟩
  refine Desk.readInto_statement (Desk.addStatement_directive whole) ?_
  rw [hwhole]
  exact hb

/-- A rule on one line faces the slice. -/
theorem scans_ruleText {opened : Option Slice} {input : Slice} {outline : Outline} {rest : Slice}
    {tail : Text} (d : Desk) {declarations : List Css.Declaration} (ht : IsPrelude t)
    (hordinary : IsOrdinary (t ++ [' ']))
    (h : ∀ x ∈ declarations, IsWord [] x.name ∧ IsValue x.value)
    (hscan : Outline.Scans opened input outline rest)
    (hinput : input.Faces
      (line n (t ++ " \x7b " ++ declarationsText declarations ++ " \x7d") ++ tail)) :
    ∃ prelude body outline' inside, ∃ properties : List Property,
      outline = .block prelude body outline' ∧ prelude.collapsed = t ∧
      Outline.Scans opened inside outline' rest ∧ inside.Faces tail ∧
      properties.map Property.asWritten = declarations ∧
      ∀ parents, (d.readInto parents .empty body).Yields
        ⟨[], [], properties.map .property, []⟩ := by
  have hfaces : input.Faces (t ++ ' ' :: '\x7b' ::
      ' ' :: (declarationsText declarations ++ ' ' :: '\x7d' :: '\n' :: tail)) := by
    simpa using faces_line hinput
  obtain ⟨prelude, after, body, inside, outline', rfl, hprelude, hafter, hbody, hrest⟩ :=
    ht.scans hordinary hscan hfaces
  obtain ⟨input', body', properties, hbody', hinput', hproperties, hgoes⟩ :=
    scans_declarations d h hbody ((Slice.Faces.of_text hafter).skip rfl)
  obtain ⟨rfl, hinside⟩ := hbody'.of_close (hinput'.skip rfl)
  exact ⟨prelude, body, outline', inside, properties, rfl, hprelude, hrest,
    (Slice.Faces.of_text hinside).skip rfl, hproperties,
    fun parents => hgoes parents .empty _ (.pure _)⟩

theorem IsSelectors.readsItem {declarations : Text} (ht : IsSelectors t)
    (h : IsDeclarations declarations) :
    ReadsItem d n (line n (t ++ " \x7b " ++ declarations ++ " \x7d")) := by
  intro opened input outline rest tail hscan hinput
  obtain ⟨declarations, hne, hdeclarations, rfl⟩ := h.exists_text
  obtain ⟨c, others, hcons, hc⟩ := ht.cons
  have hordinary : IsOrdinary (t ++ [' ']) := hcons ▸ hc.ordinary _
  have hat : t.head? ≠ some '@' := by
    rw [hcons]
    exact fun heq => hc.ne (by decide) (Option.some.inj heq)
  obtain ⟨prelude, body, outline', inside, properties, rfl, hprelude, hrest, htail, rfl, hbody⟩ :=
    scans_ruleText d ht.isPrelude hordinary hdeclarations hscan hinput
  have hheading : (d.heading [] prelude).Yields _ :=
    Desk.heading_style ht.isPrelude hat hprelude
  obtain ⟨selectors, hselectors, hall, rfl⟩ := ht
  rw [ofList_join hselectors hall] at hheading
  refine ⟨⟨selectors, selectors, .style, none, ⟨[], [], properties.map .property, []⟩,
    prelude.span d.source⟩, ?_, inside, outline', hrest, htail, fun block b hb => ?_⟩
  · exact isWrittenAs_style hselectors (by simpa using hne) fun x hx => (hdeclarations x hx).2
  · exact Desk.readInto_block hheading (hbody _) hb

theorem IsHeading.heading {parents : List Text} {prelude : Slice} (h : IsHeading t)
    (hprelude : prelude.collapsed = t) :
    (d.heading parents prelude).Yields
      ⟨parents, [], .atRule t, none, .empty, prelude.span d.source⟩ := by
  have hplain := h.isPrelude
  obtain ⟨tail, rfl, -⟩ := h.chars
  exact Desk.heading_atRule hplain hprelude

theorem IsHeading.readsItem_inline {declarations : Text} (ht : IsHeading t)
    (h : IsDeclarations declarations) :
    ReadsItem d n (line n (t ++ " \x7b " ++ declarations ++ " \x7d")) := by
  intro opened input outline rest tail hscan hinput
  obtain ⟨declarations, hne, hdeclarations, rfl⟩ := h.exists_text
  obtain ⟨prelude, body, outline', inside, properties, rfl, hprelude, hrest, htail, rfl, hbody⟩ :=
    scans_ruleText d ht.isPrelude (ht.ordinary (.inr rfl)) hdeclarations hscan hinput
  refine ⟨⟨[], [], .atRule t, none, ⟨[], [], properties.map .property, []⟩,
    prelude.span d.source⟩, ?_, inside, outline', hrest, htail, fun block b hb => ?_⟩
  · exact isWrittenAs_inline (by simpa using hne) fun x hx => (hdeclarations x hx).2
  · exact Desk.readInto_block (ht.heading hprelude) (hbody _) hb

/-- The declarations of a block itself, on a line of their own if there are any. -/
theorem own_faces {own : Text}
    (h : own = [] ∨ ∃ declarations, IsDeclarations declarations ∧ own = line n declarations) :
    ∃ declarations : List Css.Declaration,
      (∀ x ∈ declarations, IsWord [] x.name ∧ IsValue x.value) ∧
      Css.Node.printAll n (Css.Node.own [] declarations) = own ∧
      ∀ {s : Slice} {tail : Text}, s.Faces (own ++ tail) →
        ∃ gap, (∀ c ∈ gap, isGap c = true) ∧
          s.Faces (declarationsText declarations ++ (gap ++ tail)) := by
  rcases h with rfl | ⟨_, hline, rfl⟩
  · exact ⟨[], fun _ => List.not_mem_nil.elim, rfl,
      fun hs => ⟨[], fun _ => List.not_mem_nil.elim, hs⟩⟩
  · obtain ⟨declarations, hne, hdeclarations, rfl⟩ := hline.exists_text
    refine ⟨declarations, hdeclarations, ?_, fun hs => ?_⟩
    · simp [Css.Node.own, hne, Css.Node.print]
    · exact ⟨['\n'], List.forall_mem_singleton.mpr rfl, faces_line hs⟩

theorem IsHeading.readsItem_block {own inside : Text} (ht : IsHeading t)
    (hown : own = [] ∨ ∃ declarations, IsDeclarations declarations ∧
      own = line (n + 2) declarations)
    (hne : inside ≠ []) (hinside : ReadsItems d (n + 2) inside) :
    ReadsItem d n (line n (t ++ " \x7b") ++ own ++ inside ++ line n "\x7d") := by
  intro opened input outline rest tail hscan hinput
  obtain ⟨declarations, hdeclarations, rfl, hfaces⟩ := own_faces hown
  rw [List.append_assoc, List.append_assoc, List.append_assoc] at hinput
  have hinput' := faces_line hinput
  rw [List.append_assoc] at hinput'
  obtain ⟨prelude, after, body, closing, outline', rfl, hprelude, hafter, hbody, hrest⟩ :=
    ht.isPrelude.scans (ht.ordinary (.inr rfl)) hscan hinput'
  obtain ⟨gap, hgap, hafter'⟩ := hfaces ((Slice.Faces.of_text hafter).skip rfl)
  obtain ⟨input₁, outline₁, properties, hscan₁, hinput₁, rfl, hgoes₁⟩ :=
    scans_declarations d hdeclarations hbody hafter'
  obtain ⟨rules, hrules, input₂, outline₂, hscan₂, hinput₂, hgoes₂⟩ :=
    hinside hscan₁ (hinput₁.of_gap hgap)
  obtain ⟨rfl, hclosing⟩ := hscan₂.of_close (faces_line hinput₂)
  refine ⟨⟨[], [], .atRule t, none, ⟨[], [], properties.map .property, rules⟩,
    prelude.span d.source⟩, ?_, closing, outline', hrest,
    (Slice.Faces.of_text hclosing).skip rfl, fun block b hb => ?_⟩
  · exact isWrittenAs_block (fun x hx => (hdeclarations x hx).2) hrules hne
  · exact Desk.readInto_block (ht.heading hprelude)
      (hgoes₁ [] .empty _ (hgoes₂ _ _ (.pure _))) hb

/-- Plain items are read as rules that are written as they are. -/
theorem IsItems.reads (h : IsItems n t) (d : Desk) : ReadsItems d n t := by
  induction h with
  | nil => exact .nil d _
  | rule ht hdeclarations _ ih => exact .cons (ht.readsItem hdeclarations) ih
  | directive ht _ ih => exact .cons ht.readsItem ih
  | inline ht hdeclarations _ ih => exact .cons (ht.readsItem_inline hdeclarations) ih
  | block ht hown hne _ _ ih ih' => exact .cons (ht.readsItem_block hown hne ih) ih'

end Plain

/-! ## Whole style sheets -/

/-- A plain source is read into rules that are written as the source. -/
theorem Desk.readInto_plain {t : Text} (h : Plain.IsItems 0 t) (d : Desk) :
    ∃ rules, Plain.IsWritten 0 rules t ∧
      (d.readInto [] .empty (.ofText t)).Yields ⟨[], [], [], rules⟩ := by
  have hfaces : (Slice.ofText t).Faces (t ++ []) := by
    rw [List.append_nil]
    exact .of_text h.calm.visible
  obtain ⟨rules, hrules, input, outline, hscan, hinput, hgoes⟩ :=
    h.reads d (Outline.scan_scans none (.ofText t)) hfaces
  obtain rfl := hscan.of_end hinput
  exact ⟨rules, hrules, hgoes .empty _ (.pure _)⟩

theorem Document.read_plain {t : Text} (h : Plain.IsItems 0 t) (options : Options)
    (idle : List Path.Key) (path : Path) (st : ReadingState) :
    ∃ rules st', (Document.read options idle path t).run.run st =
      (.ok ⟨path, ⟨[], [], [], rules⟩⟩, st') ∧ Plain.IsWritten 0 rules t := by
  -- The desk does not matter: nothing is imported, so it has no other file to read.
  have hdesk (d : Desk) : ∃ rules, Plain.IsWritten 0 rules t ∧
      Reading.Yields (do return ⟨path, ← d.readInto [] .empty (.ofText t)⟩)
        (⟨path, ⟨[], [], [], rules⟩⟩ : Document) := by
    obtain ⟨rules, hrules, hread⟩ := d.readInto_plain h
    exact ⟨rules, hrules, hread.bind (.pure _)⟩
  have hsource : (Reading.addSource ⟨path.text, t⟩).run.run st = (.ok st.sources.size, _) := rfl
  rw [Document.read, Reading.run_bind_ok hsource]
  obtain ⟨rules, hrules, hyields⟩ := hdesk _
  obtain ⟨st', hread⟩ := hyields _
  exact ⟨rules, st', hread, hrules⟩

/-- Rules alone are written as they are one after the other. -/
theorem Document.css_of_isWritten {t : Text} {rules : List Rule} (h : Plain.IsWritten 0 rules t)
    (path : Path) : (Document.css ⟨path, ⟨[], [], [], rules⟩⟩).1 = .ok t := by
  obtain ⟨nodes, hnodes, rfl⟩ := h (Document.keys ⟨path, ⟨[], [], [], rules⟩⟩)
    (.ofBlock ⟨[], [], [], rules⟩)
  rw [Document.css_printed, Document.forest, importsForest]
  simp only [hnodes]
  rfl

namespace StyleSheet

/-- A plain style sheet is compiled to itself, with any options and from any path. -/
theorem compile_plain {t : Text} (h : Plain.IsItems 0 t) (options : Options) (path : Path) :
    (compile options path t).result = .ok t := by
  obtain ⟨rules, st, hread, hrules⟩ := Document.read_plain h options
    (options.fileSystem.keys.filter (· ≠ options.fileSystem.key path)) path ⟨#[], #[], #[]⟩
  have hresult : (read options path t).result = .ok ⟨st.sources, ⟨path, ⟨[], [], [], rules⟩⟩⟩ := by
    have hstate : readState options path t = (.ok ⟨path, ⟨[], [], [], rules⟩⟩, st) := hread
    rw [read, hstate]
  rw [compile, hresult]
  simp only [output_result, Document.css_of_isWritten hrules path]
  rfl

theorem compile_plain_nested :
    let t : Text := "a > b, .c \x7b d: 007 #FFF, -1.50; \x7d\n" ++
      "@media print \x7b\n  top: 1%;\n  @g;\n  @h \x7b i: j; \x7d\n\x7d\n"
    Plain.IsItems 0 t ∧ (compile {} standardInput t).result = .ok t := by
  intro t
  have word (w : Text) (h : Plain.IsWord Plain.valueMarks w ∧ w ≠ ['-']) : Plain.IsValue w :=
    .word h.1 h.2
  have one {p v : Text} (hp : Plain.IsWord [] p) (hv : Plain.IsValue v) :
      Plain.IsDeclarations (p ++ ": ".toList ++ v ++ ";".toList) :=
    ⟨[⟨p, v⟩], by simp, List.forall_mem_singleton.mpr ⟨hp, hv⟩, by simp⟩
  have hselectors : Plain.IsSelectors "a > b, .c" := by
    refine ⟨["a > b", ".c"], by decide, List.forall_mem_cons.mpr ⟨?_, ?_⟩, by decide⟩
    · exact ⟨["a", ">", "b"], by decide, by decide, by decide⟩
    · exact List.forall_mem_singleton.mpr ⟨[".c"], by decide, by decide, by decide⟩
  have hvalue : Plain.IsValue "007 #FFF, -1.50" :=
    (word "007" (by decide)).space ((word "#FFF" (by decide)).comma (word "-1.50" (by decide)))
  have hmedia : Plain.IsHeading "@media print" :=
    ⟨"media", ["print"], by decide, Text.forall_mem_of_all (by decide), by decide, by decide,
      List.forall_mem_singleton.mpr ⟨by decide, Text.forall_mem_of_all (by decide)⟩, by decide⟩
  have hg : Plain.IsHeading "@g" :=
    ⟨"g", [], by decide, Text.forall_mem_of_all (by decide), by decide, by decide, nofun, rfl⟩
  have hh : Plain.IsHeading "@h" :=
    ⟨"h", [], by decide, Text.forall_mem_of_all (by decide), by decide, by decide, nofun, rfl⟩
  have hd : Plain.IsDeclarations "d: 007 #FFF, -1.50;" := one (p := "d") (by decide) hvalue
  have htop : Plain.IsDeclarations "top: 1%;" :=
    one (p := "top") (by decide) (word "1%" (by decide))
  have hi : Plain.IsDeclarations "i: j;" := one (p := "i") (by decide) (word "j" (by decide))
  have hinside : Plain.IsItems 2 "  @g;\n  @h \x7b i: j; \x7d\n" :=
    .directive hg (.inline hh hi .nil)
  have h : Plain.IsItems 0 t :=
    .rule hselectors hd (.block hmedia (.inr ⟨_, htop, rfl⟩) (by decide) hinside .nil)
  exact ⟨h, compile_plain h {} standardInput⟩

end StyleSheet

end Cascade
