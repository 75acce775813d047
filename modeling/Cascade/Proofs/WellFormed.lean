import Cascade.FileSystem.Memory
import Cascade.Proofs.Keys
import Cascade.Proofs.Words
import Mathlib.Data.List.TakeWhile

/-!
# Documents that have been read are well formed

What is written is checked once, when it is read, and never again: that the selectors of
a rule are its own within those around it, that names are names, that no selector is
empty. `Document.WellFormed` says all of it, for the rules of a document at any depth and
for every document it imports, and what has been read has it
(`StyleSheet.wellFormed_of_read`).

It is followed through the reading: what is added to a block of rules that are well
formed is well formed (`Desk.addStatement_wellFormed`, `Desk.heading_wellFormed`), and the
names of variables are those of the outline (`Outline.named_ofText`).
-/

namespace Cascade

/-! ## Well-formed documents -/

/-- A run of name characters. -/
def Text.IsIdentifier (t : Text) : Prop := t ≠ [] ∧ ∀ c ∈ t, isNameChar c = true

instance (t : Text) : Decidable t.IsIdentifier :=
  have := List.decidableBAll (fun c => isNameChar c = true) t
  inferInstanceAs (Decidable (_ ∧ _))

theorem Text.IsIdentifier.plain {name : Text} (h : name.IsIdentifier) {c : Char}
    (hc : isNameChar c = false) : c ∉ name := by
  intro hmem
  rw [h.2 c hmem] at hc
  cases hc

/-- The name of a mixin: a dot before a name. -/
def Text.IsMixinName (t : Text) : Prop := ∃ name : Text, t = '.' :: name ∧ name.IsIdentifier

structure Property.WellFormed (p : Property) : Prop where
  ne_nil : p.name ≠ []
  noColon : ':' ∉ p.name
  tidy : p.name.IsTidy

def Declaration.WellFormed : Declaration → Prop
  | .property p => p.WellFormed
  | .call c => c.name.IsMixinName

/-- The parameters of a mixin have different names. -/
structure Parameters.WellFormed (parameters : List Parameter) : Prop where
  distinct : (parameters.map Parameter.name).Nodup
  names : ∀ p ∈ parameters, p.name.IsIdentifier

/-- A rule stands in a block, or in a rule of it, at any depth. What is imported does not
count. The second list of selectors is that around the rule. -/
inductive Block.Nests : (around : List Text) → Block → List Text → Rule → Prop
  | child {around : List Text} {block : Block} {rule : Rule} :
      rule ∈ block.children → Nests around block around rule
  | deeper {around around' : List Text} {block : Block} {outer rule : Rule} :
      outer ∈ block.children → Nests outer.selectors outer.block around' rule →
      Nests around block around' rule

/-- If the style rules that no selectors are around do not name a parent with `&`, no rule
does once its selectors are combined with those around it. -/
def Document.ResolvesParents (d : Document) : Prop :=
  (∀ rule, Block.Nests [] d.block [] rule → rule.kind = .style →
    ∀ selector ∈ rule.ownSelectors, '&' ∉ selector) →
  ∀ around rule, Block.Nests [] d.block around rule → ∀ selector ∈ rule.selectors, '&' ∉ selector

mutual

/-- The well-formed rules inside the selectors `around`. -/
inductive Rule.WellFormed : (around : List Text) → Rule → Prop
  /-- A rule with no selectors of its own has those around it. -/
  | style {around own : List Text} {condition : Option Condition} {block : Block} {span : Span} :
      (∀ selector ∈ own, selector ≠ []) →
      (∀ selector ∈ Selector.compose around own, selector ≠ []) →
      (own = [] → Selector.compose around own = around) →
      Block.WellFormed (Selector.compose around own) block →
      Rule.WellFormed around ⟨Selector.compose around own, own, .style, condition, block, span⟩
  | atRule {around : List Text} {prelude : Text} {condition : Option Condition} {block : Block}
      {span : Span} :
      Block.WellFormed around block →
      Rule.WellFormed around ⟨around, [], .atRule prelude, condition, block, span⟩
  | mixin {around : List Text} {name : Text} {parameters : List Parameter}
      {condition : Option Condition} {block : Block} {span : Span} :
      name.IsMixinName → Parameters.WellFormed parameters →
      Block.WellFormed [name] block →
      Rule.WellFormed around ⟨[name], [name], .mixin parameters, condition, block, span⟩
  | directive {around : List Text} {text : Text} {span : Span} :
      Rule.WellFormed around ⟨[], [], .directive text, none, .empty, span⟩

/-- The well-formed blocks inside the selectors `around`. -/
inductive Block.WellFormed : (around : List Text) → Block → Prop
  | mk {around : List Text} {block : Block} :
      (∀ definition ∈ block.definitions, definition.1.IsIdentifier) →
      (∀ declaration ∈ block.declarations, declaration.WellFormed) →
      (∀ rule ∈ block.children, Rule.WellFormed around rule) →
      (∀ document, .sheet document ∈ block.imports → Document.WellFormed document) →
      Block.WellFormed around block

inductive Document.WellFormed : Document → Prop
  | mk {document : Document} :
      Block.WellFormed [] document.block → document.ResolvesParents →
      Document.WellFormed document

end

/-! ## Selectors -/

namespace Selector

theorem ne_nil_of_mem_ofList {t selector : Text} (h : selector ∈ ofList t) : selector ≠ [] := by
  obtain ⟨-, hne⟩ := List.mem_filter.mp h
  simpa using hne

theorem nest_ne_nil {parent child : Text} (hparent : parent ≠ []) (hchild : child ≠ []) :
    nest parent child ≠ [] := by
  unfold nest
  split
  · rename_i hmem
    intro hnil
    have := List.flatMap_eq_nil_iff.mp hnil '&' hmem
    exact hparent (by simpa using this)
  · split <;> simp [hparent]

theorem not_mem_nest {parent child : Text} (hparent : '&' ∉ parent) : '&' ∉ nest parent child := by
  unfold nest
  split
  · intro hmem
    obtain ⟨c, -, hc⟩ := List.mem_flatMap.mp hmem
    split at hc
    · exact hparent hc
    · rename_i hne
      exact hne (List.mem_singleton.mp hc).symm
  · rename_i hchild
    split <;> simp [hparent, hchild]

variable {parents own : List Text}

theorem mem_compose {selector : Text} (h : selector ∈ compose parents own) :
    selector ∈ own ∧ parents = [] ∨ selector ∈ parents ∧ own = [] ∨
      ∃ parent ∈ parents, ∃ child ∈ own, nest parent child = selector := by
  unfold compose at h
  split at h
  · rename_i hparents
    exact .inl ⟨h, List.isEmpty_iff.mp hparents⟩
  · split at h
    · rename_i hown
      exact .inr (.inl ⟨h, List.isEmpty_iff.mp hown⟩)
    · obtain ⟨parent, hparent, h⟩ := List.mem_flatMap.mp h
      exact .inr (.inr ⟨parent, hparent, List.mem_map.mp h⟩)

theorem compose_ne_nil (hparents : ∀ parent ∈ parents, parent ≠ [])
    (hown : ∀ child ∈ own, child ≠ []) : ∀ selector ∈ compose parents own, selector ≠ [] := by
  intro selector h
  obtain ⟨h, -⟩ | ⟨h, -⟩ | ⟨parent, hparent, child, hchild, rfl⟩ := mem_compose h
  · exact hown selector h
  · exact hparents selector h
  · exact nest_ne_nil (hparents parent hparent) (hown child hchild)

/-- Within selectors without `&`, none is left. -/
theorem not_mem_compose (hparents : ∀ parent ∈ parents, '&' ∉ parent)
    (hown : parents = [] → ∀ child ∈ own, '&' ∉ child) :
    ∀ selector ∈ compose parents own, '&' ∉ selector := by
  intro selector h
  obtain ⟨h, hnil⟩ | ⟨h, -⟩ | ⟨parent, hparent, child, -, rfl⟩ := mem_compose h
  · exact hown hnil selector h
  · exact hparents selector h
  · exact not_mem_nest (hparents parent hparent)

end Selector

theorem Text.IsMixinName.not_mem {name : Text} (h : name.IsMixinName) : '&' ∉ name := by
  obtain ⟨rest, rfl, -, hrest⟩ := h
  intro hmem
  rcases List.mem_cons.mp hmem with heq | hmem
  · cases heq
  · exact absurd (hrest '&' hmem) (by decide)

theorem Text.IsMixinName.ne_nil {name : Text} (h : name.IsMixinName) : name ≠ [] := by
  obtain ⟨rest, rfl, -⟩ := h
  exact List.cons_ne_nil _ _

/-- The selectors of a rule have no `&` if those around it have none, and its own neither if
there are none around it. -/
theorem Rule.WellFormed.resolves {around : List Text} {rule : Rule} (h : rule.WellFormed around)
    (haround : ∀ selector ∈ around, '&' ∉ selector)
    (hown : around = [] → rule.kind = .style → ∀ selector ∈ rule.ownSelectors, '&' ∉ selector) :
    ∀ selector ∈ rule.selectors, '&' ∉ selector := by
  cases h with
  | style => exact Selector.not_mem_compose haround fun hnil => hown hnil rfl
  | atRule => exact haround
  | mixin hname =>
      intro selector hselector
      rw [List.mem_singleton.mp hselector]
      exact hname.not_mem
  | directive => exact fun _ => List.not_mem_nil.elim

theorem Rule.WellFormed.block {around : List Text} {rule : Rule} (h : rule.WellFormed around) :
    rule.block.WellFormed rule.selectors := by
  cases h with
  | style _ _ _ hblock | atRule hblock | mixin _ _ hblock => exact hblock
  | directive => exact .mk nofun nofun nofun nofun

theorem Block.WellFormed.resolves {around around' : List Text} {block : Block} {rule : Rule}
    (hnests : Nests around block around' rule) (h : block.WellFormed around)
    (haround : ∀ selector ∈ around, '&' ∉ selector)
    (hown : ∀ rule, Nests around block [] rule → rule.kind = .style →
      ∀ selector ∈ rule.ownSelectors, '&' ∉ selector) :
    ∀ selector ∈ rule.selectors, '&' ∉ selector := by
  induction hnests with
  | child hmem =>
      obtain ⟨-, -, hchildren, -⟩ := h
      exact (hchildren _ hmem).resolves haround fun hnil => hown _ (hnil ▸ .child hmem)
  | deeper hmem hnests ih =>
      obtain ⟨-, -, hchildren, -⟩ := h
      have houter := hchildren _ hmem
      refine ih houter.block ?_ fun rule hrule => hown rule (.deeper hmem hrule)
      exact houter.resolves haround fun hnil => hown _ (hnil ▸ .child hmem)

theorem Block.WellFormed.document {d : Document} (h : d.block.WellFormed []) : d.WellFormed :=
  .mk h fun hown _ _ hnests => h.resolves hnests (fun _ => List.not_mem_nil.elim) hown

/-! ## Names -/

theorem Text.isIdentifier_takeWhile {t : Text} (h : (t.takeWhile isNameChar).isEmpty = false) :
    Text.IsIdentifier (t.takeWhile isNameChar) :=
  ⟨List.isEmpty_eq_false_iff.mp h, fun _ hc => List.mem_takeWhile_imp hc⟩

namespace Signature

theorem isIdentifier_of_readParameters {mixin inside : Text} {span : Span}
    {parameters : List Parameter} (h : readParameters mixin span inside = .ok parameters) :
    ∀ p ∈ parameters, p.name.IsIdentifier := by
  refine readParameters_induction
    (motive := fun _ parameters => ∀ p ∈ parameters, p.name.IsIdentifier)
    (List.forall_mem_nil _) (fun hbefore hread => ?_) h
  obtain ⟨_, -, -, hname, -, -⟩ := of_readParameter hread
  exact List.forall_mem_append.mpr ⟨hbefore, List.forall_mem_singleton.mpr hname⟩

theorem read?_wellFormed {selector : Text} {span : Span} {s : Signature}
    (h : read? selector span = .ok (some s)) :
    s.name.IsMixinName ∧ Parameters.WellFormed s.parameters := by
  obtain ⟨_, _, -, hname, hne, -, hparameters⟩ := of_read? h
  exact ⟨⟨_, hname, Text.isIdentifier_takeWhile hne⟩, (distinct_of_read? h).names,
    isIdentifier_of_readParameters hparameters⟩

end Signature

theorem Slice.colon_not_mem_of_cutAt? {whole name value : Slice}
    (h : whole.cutAt? ':' = some (name, value)) : ':' ∉ name.text := by
  unfold cutAt? at h
  simp only at h
  split at h
  · cases h
    show ':' ∉ whole.text.take (whole.text.takeWhile (· ≠ ':')).length
    rw [← List.prefix_iff_eq_take.mp (List.takeWhile_prefix _)]
    intro hmem
    simpa using List.mem_takeWhile_imp hmem
  · cases h

theorem Property.read_wellFormed {source : Nat} {whole : Slice} {p : Property}
    (h : read source whole = .ok p) : p.WellFormed := by
  obtain ⟨name, value, hcut, hne, rfl⟩ := parts_of_read h
  refine ⟨hne, fun hmem => ?_, Text.collapse_tidy name.text⟩
  rcases Text.mem_collapse hmem with heq | hmem
  · cases heq
  · exact Slice.colon_not_mem_of_cutAt? hcut hmem

theorem MixinCall.isMixinName_of_read {source : Nat} {whole : Slice} {c : MixinCall}
    (h : read source whole = .ok c) : c.name.IsMixinName := by
  obtain ⟨name, _, _, hname, hne, -, -, rfl⟩ := parts_of_read h
  exact ⟨name, rfl, hne, fun c hc => List.mem_takeWhile_imp (hname ▸ hc)⟩

/-! ## Variables -/

namespace Statement

def Named : Statement → Prop
  | definition name _ _ => name.IsIdentifier
  | importing _ | directive _ | call _ | property _ => True

theorem isIdentifier_of_beginsDefinition? {t name : Text} {colon : Nat}
    (h : beginsDefinition? t = some (name, colon)) : name.IsIdentifier := by
  unfold beginsDefinition? at h
  split at h
  · simp only at h
    split at h
    · split at h
      · cases h
      · rename_i hname
        cases h
        exact Text.isIdentifier_takeWhile (Bool.eq_false_iff.mpr hname)
    · cases h
  · cases h

theorem named_of_cut {nested : Bool} {s rest : Slice} {st : Statement}
    (h : cut nested s = .statement st rest) : st.Named := by
  cases cutsTo_of_cut h with
  | importing => trivial
  | definition _ hbegins => exact isIdentifier_of_beginsDefinition? hbegins
  | plain _ _ _ hst => cases hst <;> trivial

end Statement

namespace Outline

/-- The variables that are defined have names. -/
def Named : Outline → Prop
  | closed | broken _ _ => True
  | statement st rest => st.Named ∧ rest.Named
  | block _ body rest => body.Named ∧ rest.Named

theorem Scans.named {opened : Option Slice} {input rest : Slice} {outline : Outline}
    (h : Scans opened input outline rest) : outline.Named := by
  induction h with
  | ended | unclosed | close | unmatched | broken => trivial
  | skip _ _ ih => exact ih
  | statement _ _ hcut _ ih => exact ⟨Statement.named_of_cut hcut, ih⟩
  | block _ _ _ _ _ ihbody ih => exact ⟨ihbody, ih⟩

theorem named_ofText (t : Text) : (ofText t).Named := (scan_scans none (.ofText t)).named

end Outline

/-! ## Blocks -/

namespace Block.WellFormed

variable {around : List Text} {block : Block}

theorem empty : Block.WellFormed around .empty := .mk nofun nofun nofun nofun

theorem addChild (h : block.WellFormed around) {rule : Rule} (hrule : rule.WellFormed around) :
    (block.addChild rule).WellFormed around := by
  obtain ⟨hdefinitions, hdeclarations, hchildren, himports⟩ := h
  refine .mk hdefinitions hdeclarations (fun r hr => ?_) himports
  rcases List.mem_append.mp hr with hr | hr
  · exact hchildren r hr
  · exact List.mem_singleton.mp hr ▸ hrule

theorem addDeclaration (h : block.WellFormed around) {d : Declaration} (hd : d.WellFormed) :
    (block.addDeclaration d).WellFormed around := by
  obtain ⟨hdefinitions, hdeclarations, hchildren, himports⟩ := h
  refine .mk hdefinitions (fun e he => ?_) hchildren himports
  rcases List.mem_append.mp he with he | he
  · exact hdeclarations e he
  · exact List.mem_singleton.mp he ▸ hd

theorem mem_define {name : Text} {value : Raw} {definition : Text × Raw} :
    ∀ {definitions : List (Text × Raw)}, definition ∈ define name value definitions →
      definition = (name, value) ∨ definition ∈ definitions
  | [], h => .inl (List.mem_singleton.mp h)
  | (n, v) :: rest, h => by
      rw [define] at h
      split at h
      · rename_i heq
        rcases List.mem_cons.mp h with rfl | h
        · exact .inl (by rw [heq])
        · exact .inr (List.mem_cons_of_mem _ h)
      · rcases List.mem_cons.mp h with rfl | h
        · exact .inr (List.mem_cons_self ..)
        · exact (mem_define h).imp_right (List.mem_cons_of_mem _)

theorem addVariable (h : block.WellFormed around) {name : Text} (value : Raw)
    (hname : name.IsIdentifier) : (block.addVariable name value).WellFormed around := by
  obtain ⟨hdefinitions, hdeclarations, hchildren, himports⟩ := h
  refine .mk (fun definition hdefinition => ?_) hdeclarations hchildren himports
  rcases mem_define hdefinition with rfl | hdefinition
  · exact hname
  · exact hdefinitions definition hdefinition

theorem addImport (h : block.WellFormed around) {i : Import}
    (hi : ∀ document, i = .sheet document → document.WellFormed) :
    (block.addImport i).WellFormed around := by
  obtain ⟨hdefinitions, hdeclarations, hchildren, himports⟩ := h
  refine .mk hdefinitions hdeclarations hchildren fun document hdocument => ?_
  rcases List.mem_append.mp hdocument with hdocument | hdocument
  · exact himports document hdocument
  · exact hi document (List.mem_singleton.mp hdocument).symm

end Block.WellFormed

/-! ## Reading -/

namespace Desk

variable {d : Desk} {st st' : ReadingState}

/-- Whatever other files are read is well formed. -/
def ReadsWellFormed (d : Desk) : Prop :=
  ∀ key read, d.reader? key = some read → ∀ path text {st e st'},
    (read path text).run.run st = (.ok e, st') → e.WellFormed

theorem Loads.wellFormed (hreads : d.ReadsWellFormed) {file : Path} {span : Span} {i : Import}
    (h : d.Loads file span st i st') : ∀ document, i = .sheet document → document.WellFormed := by
  cases h with
  | css => exact fun _ => nofun
  | sheet hread _ _ hdocument =>
      rintro document ⟨⟩
      exact hreads _ _ hread _ _ hdocument

variable {parents : List Text} {block block' : Block}

/-- A statement leaves a block well formed. -/
theorem Takes.wellFormed (hreads : d.ReadsWellFormed) {s : Statement} (hs : s.Named)
    (hblock : block.WellFormed parents) (h : d.Takes block st s block' st') :
    block'.WellFormed parents := by
  cases h with
  | passing | directive => exact hblock.addChild .directive
  | importing _ _ hloads => exact hblock.addImport (hloads.wellFormed hreads)
  | definition => exact hblock.addVariable _ hs
  | call hread => exact hblock.addDeclaration (MixinCall.isMixinName_of_read hread)
  | property hread => exact hblock.addDeclaration (Property.read_wellFormed hread)

/-- The rule that is read from a prelude is well formed with any contents that are well
formed inside its selectors, and these are not empty. -/
theorem Heads.wellFormed {prelude : Slice} {rule : Rule}
    (hparents : ∀ parent ∈ parents, parent ≠ []) (h : d.Heads parents prelude st rule st') :
    (∀ selector ∈ rule.selectors, selector ≠ []) ∧
      ∀ contents : Block, contents.WellFormed rule.selectors →
        Rule.WellFormed parents { rule with block := contents } := by
  cases h with
  | mixin _ hread =>
      obtain ⟨hname, hparameters⟩ := Signature.read?_wellFormed hread
      exact ⟨List.forall_mem_singleton.mpr hname.ne_nil,
        fun contents hcontents => .mixin hname hparameters hcontents⟩
  | atRule => exact ⟨hparents, fun contents hcontents => .atRule hcontents⟩
  | @style selector =>
      have hown : ∀ own ∈ Selector.ofList selector, own ≠ [] :=
        fun _ => Selector.ne_nil_of_mem_ofList
      have hcomposed := Selector.compose_ne_nil hparents hown
      have hsame : Selector.ofList selector = [] →
          Selector.compose parents (Selector.ofList selector) = parents := fun hnil => by
        rw [hnil, Selector.compose_nil_right]
      exact ⟨hcomposed, fun contents hcontents => .style hown hcomposed hsame hcontents⟩

theorem readInto_wellFormed (hreads : d.ReadsWellFormed) :
    ∀ {outline : Outline} {parents : List Text} {block block' : Block} {st st' : ReadingState},
      outline.Named → (∀ parent ∈ parents, parent ≠ []) → block.WellFormed parents →
      (d.readInto parents block outline).run.run st = (.ok block', st') →
      block'.WellFormed parents
  | .closed, _, _, _, _, _, _, _, hblock, h => by
      cases h
      exact hblock
  | .broken _ _, _, _, _, _, _, _, _, _, h => by cases h
  | .statement s rest, _, _, _, _, _, hnamed, hparents, hblock, h => by
      obtain ⟨_, _, hs, h⟩ := Reading.bind_ok h
      have hafter := (takes_of_addStatement hs).wellFormed hreads hnamed.1 hblock
      exact readInto_wellFormed hreads hnamed.2 hparents hafter h
  | .block prelude body rest, _, _, _, _, _, hnamed, hparents, hblock, h => by
      obtain ⟨rule, _, hheading, h⟩ := Reading.bind_ok h
      obtain ⟨contents, _, hbody, h⟩ := Reading.bind_ok h
      obtain ⟨hselectors, hrule⟩ := (heads_of_heading hheading).wellFormed hparents
      have hcontents := readInto_wellFormed hreads hnamed.1 hselectors .empty hbody
      exact readInto_wellFormed hreads hnamed.2 hparents (hblock.addChild (hrule _ hcontents)) h

end Desk

theorem Document.read_wellFormed {options : Options} (idle : List Path.Key) {path : Path}
    {text : Text} {e : Document} {st st' : ReadingState}
    (h : (Document.read options idle path text).run.run st = (.ok e, st')) : e.WellFormed := by
  obtain ⟨d, block, hdesk, rfl, hblock⟩ := desk_of_read h
  have hreads : d.ReadsWellFormed := by
    intro key read hread path text st e st' h
    obtain ⟨rest, hlt, rfl⟩ := hdesk.reader key read hread
    exact Document.read_wellFormed rest h
  exact Block.WellFormed.document (Desk.readInto_wellFormed hreads (Outline.named_ofText text)
    (List.forall_mem_nil _) .empty hblock)
termination_by idle.length

/-- Every style sheet that is read is well formed: its own rules at every depth, and those of
every document it imports. -/
theorem StyleSheet.wellFormed_of_read {options : Options} {path : Path} {text : Text}
    {s : StyleSheet} (h : (StyleSheet.read options path text).result = .ok s) :
    s.document.WellFormed := by
  unfold StyleSheet.read at h
  cases hread : (readState options path text).1 with
  | error fault =>
      simp only [hread] at h
      cases h
  | ok document =>
      simp only [hread] at h
      cases h
      have hrun : (Document.readEntry options path text).run.run ⟨#[], #[], #[]⟩ =
          (.ok document, (readState options path text).2) := by
        rw [← hread]
        rfl
      exact Document.read_wellFormed _ hrun

/-- A mixin with parameters, rules inside an at-rule, and an import. -/
theorem StyleSheet.wellFormed_of_read_nested :
    let files : MemoryFiles := ⟨[(⟨"b.less"⟩, .text "@c: 1; p \x7b & q \x7b r: @c \x7d \x7d")], []⟩
    let options : Options := { fileSystem := files.fileSystem }
    let text : Text := "@import 'b'; .m(@a; @b: 1) \x7b q: @a \x7d " ++
      "a, b \x7b @media x \x7b &:c \x7b .m(1) \x7d \x7d \x7d"
    ∃ s, (StyleSheet.read options ⟨"a.less"⟩ text).result = .ok s ∧
      s.document.block.imports.length = 1 ∧ s.document.block.children.length = 2 ∧
        s.document.WellFormed := by
  intro files options text
  have hparts : (StyleSheet.read options ⟨"a.less"⟩ text).result.toOption.any (fun s =>
      s.document.block.imports.length = 1 ∧ s.document.block.children.length = 2) = true := by
    decide +kernel
  cases hread : (StyleSheet.read options ⟨"a.less"⟩ text).result with
  | error failure =>
      rw [hread] at hparts
      cases hparts
  | ok s =>
      rw [hread] at hparts
      obtain ⟨himports, hchildren⟩ := of_decide_eq_true hparts
      exact ⟨s, rfl, himports, hchildren, StyleSheet.wellFormed_of_read hread⟩

end Cascade
