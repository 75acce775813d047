import Cascade.Proofs.Reading
import Cascade.Proofs.Turns

/-!
# Parts of an outline

An outline has parts: what is left of it after each statement, and the outlines of the
blocks in it. Wherever the loop over statements gets to, it is about to read a part of the
outline (`Cursor.Turns.guided`). And each part is read into a block of the document
(`Desk.readInto_part`), so what is said of a prelude or a statement at the beginning of a
part is said of all of them, at any depth.
-/

namespace Cascade

/-! ## Parts -/

namespace Outline

/-- The outline is what is left of the other, or of the outline of a block in it, after
some statements. -/
inductive Part (o : Outline) : Outline → Prop
  | refl : Part o o
  | statement {s : Statement} {rest : Outline} : Part o rest → Part o (.statement s rest)
  | body {prelude : Slice} {body rest : Outline} : Part o body → Part o (.block prelude body rest)
  | rest {prelude : Slice} {body rest : Outline} : Part o rest → Part o (.block prelude body rest)

theorem Part.trans {o o' whole : Outline} (h : o.Part o') (h' : o'.Part whole) :
    o.Part whole := by
  induction h' with
  | refl => exact h
  | statement _ ih => exact .statement ih
  | body _ ih => exact .body ih
  | rest _ ih => exact .rest ih

/-- What is to be read in these blocks is a part of the outline, and so it is where each of
the blocks has been left. -/
inductive Guides (whole : Outline) : List Slice → Slice → Prop
  | mk {blocks : List Slice} {input rest : Slice} {o : Outline} :
      Scans blocks.head? input o rest → o.Part whole →
      (∀ prelude outer, blocks = prelude :: outer → Guides whole outer rest) →
      Guides whole blocks input

end Outline

namespace Cursor

open Outline (Scans Part Guides)

variable {whole : Outline} {c c' : Cursor}

/-- After a turn, what is to be read is a part of the outline again. -/
theorem guides_of_turn (h : Guides whole c.blocks c.input) (hturn : c.turn = .on c') :
    Guides whole c'.blocks c'.input := by
  obtain ⟨blocks, input⟩ := c
  obtain ⟨hscans, hpart, houter⟩ := h
  generalize hopened : blocks.head? = opened at hscans
  cases hscans with
  | ended hs | unclosed hs | unmatched hs =>
      cases blocks <;> cases hopened
      simp [turn, hs] at hturn
  | skip hs hscans =>
      simp only [turn, hs, Turn.on.injEq] at hturn
      subst hturn hopened
      exact ⟨hscans, hpart, houter⟩
  | close hs =>
      cases blocks with
      | nil => cases hopened
      | cons prelude outer =>
          simp only [turn, hs, Turn.on.injEq] at hturn
          subst hturn
          exact houter prelude outer rfl
  | broken hs hch hcut =>
      subst hopened
      rw [turn_of_cut hs hch, hcut] at hturn
      cases hturn
  | statement hs hch hcut hscans =>
      subst hopened
      rw [turn_of_cut hs hch, hcut] at hturn
      cases hturn
      exact ⟨hscans, (Part.refl.statement).trans hpart, houter⟩
  | block hs hch hcut hbody hscans =>
      subst hopened
      rw [turn_of_cut hs hch, hcut] at hturn
      cases hturn
      refine ⟨hbody, (Part.refl.body).trans hpart, fun _ _ heq => ?_⟩
      cases heq
      exact ⟨hscans, (Part.refl.rest).trans hpart, houter⟩

/-- Wherever the loop over a source gets to, the outline says what is to be read. -/
theorem Turns.guided {n : Nat} {text : Text} (h : Turns n ⟨[], .ofText text⟩ c) :
    Guides (.ofText text) c.blocks c.input := by
  have hstart : Guides (.ofText text) [] (.ofText text) :=
    ⟨Outline.scan_scans none (.ofText text), .refl, nofun⟩
  generalize hfirst : Cursor.mk [] (.ofText text) = first at h
  replace hstart : Guides (.ofText text) first.blocks first.input := hfirst ▸ hstart
  clear hfirst
  induction h with
  | here => exact hstart
  | turn hturn _ ih => exact ih (guides_of_turn hstart hturn)

/-- Where the loop opens a block, the outline has the block. -/
theorem part_of_opening (h : Guides whole c.blocks c.input) {ch : Char} {t : Text}
    (hs : c.input.dropGap.text = ch :: t) (hch : Statement.endsDefinition ch = false)
    {prelude after : Slice}
    (hcut : Statement.cut c.blocks.head?.isSome c.input.dropGap = .opening prelude after) :
    ∃ body rest, Part (.block prelude body rest) whole := by
  obtain ⟨hscans, hpart, -⟩ := h
  obtain ⟨body, _, rest, rfl, -, -⟩ := hscans.of_opening hs hch hcut
  exact ⟨body, rest, hpart⟩

/-- Where the loop cuts a statement off, the outline has the statement. -/
theorem part_of_statement (h : Guides whole c.blocks c.input) {ch : Char} {t : Text}
    (hs : c.input.dropGap.text = ch :: t) (hch : Statement.endsDefinition ch = false)
    {st : Statement} {after : Slice}
    (hcut : Statement.cut c.blocks.head?.isSome c.input.dropGap = .statement st after) :
    ∃ rest, Part (.statement st rest) whole := by
  obtain ⟨hscans, hpart, -⟩ := h
  obtain ⟨rest, rfl, -⟩ := hscans.of_statement hs hch hcut
  exact ⟨rest, hpart⟩

end Cursor

/-! ## What parts are read into -/

namespace Block

/-- The other block is the block itself, or that of a rule in it, at any depth. What is
imported does not count. -/
inductive Holds : Block → Block → Prop
  | refl (b : Block) : Holds b b
  | child {b b' : Block} {rule : Rule} : rule ∈ b.children → Holds rule.block b' → Holds b b'

/-- The other block has all that the block has but the values of its variables. -/
structure Grows (b b' : Block) : Prop where
  imports : b.imports ⊆ b'.imports
  declarations : b.declarations ⊆ b'.declarations
  children : b.children ⊆ b'.children

namespace Grows

variable {b b' b'' : Block}

theorem refl (b : Block) : b.Grows b :=
  ⟨List.Subset.refl _, List.Subset.refl _, List.Subset.refl _⟩

theorem trans (h : b.Grows b') (h' : b'.Grows b'') : b.Grows b'' :=
  ⟨List.Subset.trans h.imports h'.imports, List.Subset.trans h.declarations h'.declarations,
    List.Subset.trans h.children h'.children⟩

theorem addImport (b : Block) (i : Import) : b.Grows (b.addImport i) :=
  ⟨List.subset_append_left .., List.Subset.refl _, List.Subset.refl _⟩

theorem addDeclaration (b : Block) (d : Declaration) : b.Grows (b.addDeclaration d) :=
  ⟨List.Subset.refl _, List.subset_append_left .., List.Subset.refl _⟩

theorem addChild (b : Block) (r : Rule) : b.Grows (b.addChild r) :=
  ⟨List.Subset.refl _, List.Subset.refl _, List.subset_append_left ..⟩

end Grows

end Block

/-- How a condition comes off the end of a prelude, and what is left of it then. -/
inductive Condition.Splits (span : Span) : (prelude selector : Text) → Option Condition → Prop
  | unconditional {prelude : Text} : Splits span prelude prelude none
  | alone : Splits span "@else" [] (some .otherwise)
  | otherwise {selector : Text} :
      Splits span (selector ++ " @else".toList) selector (some .otherwise)
  | test {prelude before inside selector : Text} :
      Text.lastGroup? prelude = some (before, inside) →
      before.trimEnd = selector ++ "@if".toList →
      selector.isEmpty ∨ selector.getLast? = some ' ' →
      Splits span prelude selector.trimEnd (some (.test ⟨inside.trim, span⟩))
  | orTest {prelude before inside selector : Text} :
      Text.lastGroup? prelude = some (before, inside) →
      before.trimEnd = selector ++ "@elseif".toList →
      selector.isEmpty ∨ selector.getLast? = some ' ' →
      Splits span prelude selector.trimEnd (some (.orTest ⟨inside.trim, span⟩))

namespace Condition

theorem of_beforeKeyword? {keyword head selector : Text}
    (h : beforeKeyword? keyword head = some selector) :
    ∃ before, head = before ++ keyword ∧ (before.isEmpty ∨ before.getLast? = some ' ') ∧
      selector = before.trimEnd := by
  unfold beforeKeyword? at h
  split at h
  · rename_i before hbefore
    split at h
    · rename_i halone
      cases h
      exact ⟨before, Text.before?_eq_some_iff.mp hbefore, halone, rfl⟩
    · cases h
  · cases h

theorem split_splits (prelude : Text) (span : Span) :
    Splits span prelude (split prelude span).1 (split prelude span).2 := by
  unfold split
  split
  · rename_i halone
    subst halone
    exact .alone
  · split
    · rename_i selector hbefore
      rw [Text.before?_eq_some_iff.mp hbefore]
      exact .otherwise
    · split
      · exact .unconditional
      · rename_i before inside hgroup
        split
        · rename_i hkeyword
          obtain ⟨_, hhead, halone, rfl⟩ := of_beforeKeyword? hkeyword
          exact .orTest hgroup hhead halone
        · rename_i hkeyword
          obtain ⟨_, hhead, halone, rfl⟩ := of_beforeKeyword? hkeyword
          exact .test hgroup hhead halone
        · exact .unconditional

end Condition

/-- What a prelude makes of a rule once the condition is off: its kind, and the selectors
that are its own. -/
inductive RuleKind.ReadFrom (span : Span) (selector : Text) : RuleKind → List Text → Prop
  | mixin {signature : Signature} : Signature.read? selector span = .ok (some signature) →
      ReadFrom span selector (.mixin signature.parameters) [signature.name]
  | atRule : Signature.read? selector span = .ok none → selector.head? = some '@' →
      ReadFrom span selector (.atRule selector) []
  | style : Signature.read? selector span = .ok none → selector.head? ≠ some '@' →
      ReadFrom span selector .style (Selector.ofList selector)

/-- The rule is what the prelude says, whatever is in its block. -/
structure Rule.HeadedBy (source : Nat) (prelude : Slice) (rule : Rule) : Prop where
  span : rule.span = prelude.span source
  condition : rule.condition = (Condition.split prelude.collapsed (prelude.span source)).2
  /-- The rest of the prelude says what the rule is. -/
  kind : rule.kind.ReadFrom (prelude.span source)
    (Condition.split prelude.collapsed (prelude.span source)).1 rule.ownSelectors

namespace Desk

variable {d : Desk} {st st' : ReadingState} {block block' : Block}

theorem Heads.headedBy {parents : List Text} {prelude : Slice} {rule : Rule}
    (h : d.Heads parents prelude st rule st') : rule.HeadedBy d.source prelude := by
  cases h with
  | mixin hsplit hread =>
      refine ⟨rfl, ?_, ?_⟩ <;> rw [hsplit]
      exact .mixin hread
  | atRule hsplit hread hat =>
      refine ⟨rfl, ?_, ?_⟩ <;> rw [hsplit]
      exact .atRule hread hat
  | style hsplit hread hat =>
      refine ⟨rfl, ?_, ?_⟩ <;> rw [hsplit]
      exact .style hread hat

theorem Takes.grows {s : Statement} (h : d.Takes block st s block' st') : block.Grows block' := by
  cases h with
  | passing | directive => exact .addChild _ _
  | importing => exact .addImport _ _
  | definition => exact ⟨List.Subset.refl _, List.Subset.refl _, List.Subset.refl _⟩
  | call | property => exact .addDeclaration _ _

/-- What is in a block stays there while the rest of it is read. -/
theorem readInto_grows : ∀ {outline : Outline} {parents : List Text} {block block' : Block}
    {st st' : ReadingState},
    (d.readInto parents block outline).run.run st = (.ok block', st') → block.Grows block'
  | .closed, _, _, _, _, _, h => by
      cases h
      exact .refl _
  | .broken _ _, _, _, _, _, _, h => by cases h
  | .statement _ rest, _, _, _, _, _, h => by
      obtain ⟨_, _, hs, h⟩ := Reading.bind_ok h
      exact (takes_of_addStatement hs).grows.trans (readInto_grows h)
  | .block _ _ rest, _, _, _, _, _, h => by
      obtain ⟨_, _, -, h⟩ := Reading.bind_ok h
      obtain ⟨_, _, -, h⟩ := Reading.bind_ok h
      exact (Block.Grows.addChild _ _).trans (readInto_grows h)

/-- Each part of an outline is read at some time, into a block of what is read. -/
theorem readInto_part {o whole : Outline} (hpart : o.Part whole) {parents : List Text}
    {block block' : Block} {st st' : ReadingState}
    (h : (d.readInto parents block whole).run.run st = (.ok block', st')) :
    ∃ parents₁ block₁ st₁ block₂ st₂,
      (d.readInto parents₁ block₁ o).run.run st₁ = (.ok block₂, st₂) ∧ block'.Holds block₂ := by
  induction hpart generalizing parents block block' st st' with
  | refl => exact ⟨_, _, _, _, _, h, .refl _⟩
  | statement _ ih =>
      obtain ⟨_, _, -, h⟩ := Reading.bind_ok h
      exact ih h
  | body _ ih =>
      obtain ⟨rule, _, -, h⟩ := Reading.bind_ok h
      obtain ⟨contents, _, hbody, h⟩ := Reading.bind_ok h
      obtain ⟨parents₁, block₁, st₁, block₂, st₂, hread, hholds⟩ := ih hbody
      have hmem : ({ rule with block := contents } : Rule) ∈ block'.children :=
        (readInto_grows h).children (List.mem_append_right _ (List.mem_singleton_self _))
      exact ⟨parents₁, block₁, st₁, block₂, st₂, hread, .child hmem hholds⟩
  | rest _ ih =>
      obtain ⟨_, _, -, h⟩ := Reading.bind_ok h
      obtain ⟨_, _, -, h⟩ := Reading.bind_ok h
      exact ih h

/-- Each prelude of an outline has a rule in what is read. -/
theorem rule_of_part {prelude : Slice} {body rest whole : Outline}
    (hpart : Outline.Part (.block prelude body rest) whole) {parents : List Text}
    (h : (d.readInto parents block whole).run.run st = (.ok block', st')) :
    ∃ b rule, block'.Holds b ∧ rule ∈ b.children ∧ rule.HeadedBy d.source prelude := by
  obtain ⟨_, _, _, b, _, h, hholds⟩ := readInto_part hpart h
  obtain ⟨rule, _, hheading, h⟩ := Reading.bind_ok h
  obtain ⟨contents, _, -, h⟩ := Reading.bind_ok h
  obtain ⟨hspan, hcondition, hkind⟩ := (heads_of_heading hheading).headedBy
  refine ⟨b, { rule with block := contents }, hholds, ?_, hspan, hcondition, hkind⟩
  exact (readInto_grows h).children (List.mem_append_right _ (List.mem_singleton_self _))

/-- Each call of an outline is a declaration in what is read. -/
theorem call_of_part {call : Slice} {rest whole : Outline}
    (hpart : Outline.Part (.statement (.call call) rest) whole) {parents : List Text}
    (h : (d.readInto parents block whole).run.run st = (.ok block', st')) :
    ∃ b c, block'.Holds b ∧ .call c ∈ b.declarations ∧ MixinCall.read d.source call = .ok c := by
  obtain ⟨_, _, _, b, _, h, hholds⟩ := readInto_part hpart h
  obtain ⟨_, _, hstatement, h⟩ := Reading.bind_ok h
  cases takes_of_addStatement hstatement with
  | @call _ c hread =>
      refine ⟨b, c, hholds, ?_, hread⟩
      exact (readInto_grows h).declarations (List.mem_append_right _ (List.mem_singleton_self _))

end Desk

end Cascade
