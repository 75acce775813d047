import Cascade.Proofs.Parts
import Cascade.Proofs.PlainSheets
import Cascade.Proofs.WellFormed

/-!
# At-rules with a block

What begins with `@` and a name, and has a `{` before anything else that could end it, is
a rule with a block; unless it begins as an import does or as a definition, which is
decided by the name and by what comes next, long before the `{`.
`Cursor.IsAtRule.read_iff` says that these two are the only ones that are lost: whatever
else stands in the prelude, the loop goes into the block, and the prelude makes an at-rule
or a rule with a condition of it, without fail.
-/

namespace Cascade

/-- The name says that the rule is an import. -/
def Text.IsImport (name : Text) : Prop := name.map Char.toLower = "import".toList

/-- A colon comes next, and makes a definition of what stands before it. -/
def Text.BeginsValue (t : Text) : Prop := (t.dropWhile isGap).head? = some ':'

/-! ## How the statement is cut -/

namespace Statement

variable {name tail : Text}

theorem beginsImport_of_isImport (h : name.IsImport)
    (htail : ∀ c ∈ tail.head?, isNameChar c = false) :
    beginsImport ('@' :: (name ++ tail)) = true := by
  have hafter : ∀ {lead head : Text}, head.map Char.toLower = lead.map Char.toLower →
      Text.afterIgnoringCase? lead (head ++ tail) = some tail := by
    intro lead
    induction lead with
    | nil =>
        intro head hhead
        obtain rfl := List.map_eq_nil_iff.mp hhead
        rfl
    | cons a lead ih =>
        intro head hhead
        cases head with
        | nil => cases hhead
        | cons c head =>
            obtain ⟨hc, hhead⟩ := List.cons.inj hhead
            rw [List.cons_append, Text.afterIgnoringCase?, if_pos hc.symm, ih hhead]
  have himport : ('@' :: name).map Char.toLower = "@import".toList.map Char.toLower := by
    rw [List.map_cons, h]
    decide
  rw [beginsImport, ← List.cons_append, hafter himport]
  cases tail with
  | nil => rfl
  | cons c tail => simp [htail c rfl]

/-- What begins with `@` and a name is a definition if a colon comes next. -/
theorem isSome_beginsDefinition? (hname : name.IsIdentifier)
    (htail : ∀ c ∈ tail.head?, isNameChar c = false) :
    (beginsDefinition? ('@' :: (name ++ tail))).isSome = true ↔ tail.BeginsValue := by
  have htake := Plain.takeWhile_name hname.2 htail
  have hdrop : (name ++ tail).drop name.length = tail := List.drop_left
  have hgap : tail.drop (tail.takeWhile isGap).length = tail.dropWhile isGap := by
    have happend := List.takeWhile_append_dropWhile (p := isGap) (l := tail)
    exact (congrArg (List.drop _) happend.symm).trans List.drop_left
  simp only [beginsDefinition?, Text.BeginsValue, htake, ← List.drop_drop, hdrop, hgap]
  cases tail.dropWhile isGap with
  | nil => simp
  | cons c rest =>
      by_cases hc : c = ':'
      · simp [hc, hname.1]
      · simp [hc]

end Statement

/-! ## What the prelude makes of it -/

/-- The rule has a prelude that begins with `@`: it is an at-rule, or there is a condition
on it. -/
def Rule.IsAt (rule : Rule) : Prop :=
  (∃ prelude, rule.kind = .atRule prelude) ∨ rule.condition.isSome = true

namespace Text

variable {t : Text}

theorem head?_eq_of_prefix {u : Text} {c : Char} (h : u <+: t) (ht : t.head? = some c) :
    u = [] ∨ u.head? = some c := by
  obtain ⟨rest, rfl⟩ := h
  cases u with
  | nil => exact .inl rfl
  | cons d u => exact .inr ht

theorem prefix_trimEnd (t : Text) : trimEnd t <+: t := by
  rw [trimEnd, ← List.reverse_suffix, List.reverse_reverse]
  exact List.dropWhile_suffix _

end Text

namespace Condition

/-- Without its condition a prelude begins as it did, if anything is left of it. -/
theorem Splits.prefix {span : Span} {prelude selector : Text} {condition : Option Condition}
    (h : Splits span prelude selector condition) : selector <+: prelude := by
  have hgroup {before inside keyword selector : Text}
      (h : Text.lastGroup? prelude = some (before, inside))
      (hbefore : before.trimEnd = selector ++ keyword) : selector.trimEnd <+: prelude := by
    have hspec := Text.lastGroup?_spec prelude
    rw [h] at hspec
    obtain ⟨rfl, -⟩ := hspec
    refine (Text.prefix_trimEnd selector).trans ?_
    refine List.IsPrefix.trans ?_ (List.prefix_append before _)
    exact (hbefore ▸ List.prefix_append selector keyword).trans (Text.prefix_trimEnd before)
  cases h with
  | unconditional => exact List.prefix_rfl
  | alone => exact List.nil_prefix
  | otherwise => exact List.prefix_append _ _
  | test h hbefore | orTest h hbefore => exact hgroup h hbefore

theorem Splits.eq_of_none {span : Span} {prelude selector : Text}
    (h : Splits span prelude selector none) : selector = prelude := by
  cases h
  rfl

end Condition

theorem Signature.read?_of_head? {selector : Text} {span : Span}
    (h : selector = [] ∨ selector.head? = some '@') : read? selector span = .ok none := by
  have hafter : Text.after? "." selector = none := by
    cases selector with
    | nil => rfl
    | cons c selector =>
        have hc : c = '@' := by simpa using h
        exact if_neg (by rw [hc]; decide)
  rw [read?, hafter]

/-- What is read from a prelude that begins with `@`. -/
theorem Rule.HeadedBy.isAt {source : Nat} {prelude : Slice} {rule : Rule}
    (h : rule.HeadedBy source prelude) (hat : prelude.collapsed.head? = some '@') :
    rule.IsAt := by
  obtain ⟨selectors, own, kind, condition, block, span⟩ := rule
  obtain ⟨-, hcondition, hkind⟩ := h
  simp only at hcondition hkind
  have hsplits := Condition.split_splits prelude.collapsed (prelude.span source)
  have hselector := Text.head?_eq_of_prefix hsplits.prefix hat
  rw [← hcondition] at hsplits
  generalize (Condition.split prelude.collapsed (prelude.span source)).1 = selector
    at hkind hsplits hselector
  cases hkind with
  | mixin hread =>
      rw [Signature.read?_of_head? hselector] at hread
      cases hread
  | atRule => exact .inl ⟨_, rfl⟩
  | style hread hne =>
      obtain rfl := hselector.resolve_right hne
      cases condition with
      | some => exact .inr rfl
      | none =>
          rw [← hsplits.eq_of_none] at hat
          cases hat

theorem Reading.Yields.exists_bind {α β : Type} {m : Reading α} {a : α} {f : α → Reading β}
    (h : m.Yields a) (h' : ∃ b, (f a).Yields b) : ∃ b, (m >>= f).Yields b :=
  h'.imp fun _ => h.bind

namespace Desk

variable (d : Desk) (parents : List Text) {prelude : Slice}

/-- A prelude that begins with `@` never fails, whatever follows. -/
theorem heading_at (hat : prelude.collapsed.head? = some '@') :
    ∃ rule, (d.heading parents prelude).Yields rule ∧ rule.HeadedBy d.source prelude ∧
      rule.IsAt := by
  obtain ⟨rule, hyields⟩ : ∃ rule, (d.heading parents prelude).Yields rule := by
    have hsplits := Condition.split_splits prelude.collapsed (prelude.span d.source)
    have hselector := Text.head?_eq_of_prefix hsplits.prefix hat
    rw [heading]
    simp only
    generalize Condition.split prelude.collapsed (prelude.span d.source) = parts at hselector
    refine Reading.Yields.exists_bind (.lift (Signature.read?_of_head? hselector)) ?_
    simp only
    split <;> exact ⟨_, .bind (.note _ _) (.pure _)⟩
  obtain ⟨st, hrun⟩ := hyields ⟨#[], #[], #[]⟩
  have hheaded := (heads_of_heading hrun).headedBy
  exact ⟨rule, hyields, hheaded, hheaded.isAt hat⟩

end Desk

/-! ## Where the loop meets one -/

namespace Cursor

variable {text name tail : Text} {n : Nat} {c : Cursor}

/-- What the loop would cut off here up to the next end of a statement. -/
def prelude (c : Cursor) : Slice := (c.input.dropGap.untilTop Statement.ends).1

/-- The loop stands before `@` and a name, with what follows the name, and the next that
could end the statement is a `{`. -/
structure IsAtRule (c : Cursor) (name tail : Text) : Prop where
  begins : c.input.dropGap.text = '@' :: (name ++ tail)
  name : name.IsIdentifier
  name_ends : ∀ ch ∈ tail.head?, isNameChar ch = false
  brace : ∃ rest, (c.input.dropGap.untilTop Statement.ends).2.text = '{' :: rest

/-- The prelude before the cursor is read as that of a rule with a block: the loop goes
into the block, the prelude is that of an at-rule or has a condition and never fails, and
each document that is read from the source has the rule. -/
structure ReadsRule (text : Text) (c : Cursor) : Prop where
  opens : ∃ after, c.turn = .on ⟨c.prelude :: c.blocks, after⟩
  heads : ∀ (d : Desk) (parents : List Text), ∃ rule, (d.heading parents c.prelude).Yields rule ∧
    rule.HeadedBy d.source c.prelude ∧ rule.IsAt
  held : ∀ {options : Options} {idle : List Path.Key} {path : Path} {e : Document}
    {st st' : ReadingState}, (Document.read options idle path text).run.run st = (.ok e, st') →
    ∃ b rule, e.block.Holds b ∧ rule ∈ b.children ∧
      rule.HeadedBy st.sources.size c.prelude ∧ rule.IsAt

namespace IsAtRule

/-- The prelude begins as the statement does. -/
theorem head?_prelude (h : c.IsAtRule name tail) : c.prelude.collapsed.head? = some '@' := by
  have htext : '@' :: name <+: c.prelude.text := by
    rw [prelude, Slice.untilTop_fst_text, h.begins, ← List.cons_append]
    refine Text.prefix_untilTop fun ch hch => ?_
    rcases List.mem_cons.mp hch with rfl | hch
    · rfl
    · exact (Plain.IsMild.of_isNameChar (h.name.2 ch hch)).ends
  obtain ⟨after, hafter⟩ := htext
  have hsolid : ∀ ch ∈ '@' :: name, isBlank ch = false := by
    intro ch hch
    rcases List.mem_cons.mp hch with rfl | hch
    · rfl
    · exact isBlank_of_isNameChar (h.name.2 ch hch)
  obtain ⟨rest, hrest⟩ := Text.prefix_collapse (List.cons_ne_nil _ _) hsolid after
  rw [Slice.collapsed, ← hafter, ← hrest]
  rfl

/-- The statement is cut at the `{` unless it begins as an import or as a definition. -/
theorem cut_eq (h : c.IsAtRule name tail) (himport : ¬name.IsImport) (hvalue : ¬tail.BeginsValue)
    (nested : Bool) : ∃ after,
      Statement.cut nested c.input.dropGap = .opening c.prelude after := by
  obtain ⟨rest, hbrace⟩ := h.brace
  have hbegins : Statement.beginsImport c.input.dropGap.text = false := by
    rw [h.begins]
    exact Plain.beginsImport_eq_false h.name.2 h.name_ends himport
  have hdefinition : Statement.beginsDefinition? c.input.dropGap.text = none := by
    rw [h.begins]
    refine Option.not_isSome_iff_eq_none.mp fun hsome => hvalue ?_
    exact (Statement.isSome_beginsDefinition? h.name h.name_ends).mp hsome
  rw [Statement.cut, hbegins, hdefinition]
  exact ⟨_, Statement.cutPlain_of_brace hbrace⟩

/-- Where the statement is cut at the `{` it does not begin as an import, nor as a
definition. -/
theorem of_cut (h : c.IsAtRule name tail) {nested : Bool} {prelude after : Slice}
    (hcut : Statement.cut nested c.input.dropGap = .opening prelude after) :
    ¬name.IsImport ∧ ¬tail.BeginsValue := by
  obtain ⟨hbegins, hdefinition, -⟩ := Statement.of_cut_opening hcut
  rw [h.begins] at hbegins hdefinition
  constructor
  · intro himport
    rw [Statement.beginsImport_of_isImport himport h.name_ends] at hbegins
    cases hbegins
  · intro hvalue
    have hsome := (Statement.isSome_beginsDefinition? h.name h.name_ends).mpr hvalue
    rw [hdefinition] at hsome
    cases hsome

theorem turn_eq (h : c.IsAtRule name tail) :
    c.turn = match Statement.cut c.blocks.head?.isSome c.input.dropGap with
      | .broken cause blamed => .broken cause blamed
      | .statement _ rest => .on ⟨c.blocks, rest⟩
      | .opening prelude rest => .on ⟨prelude :: c.blocks, rest⟩ :=
  turn_of_cut h.begins rfl

/-- Wherever the loop over a source gets to: what begins with `@` and a name and goes on to
a `{` is a rule with a block, unless it begins as an import or as a definition. -/
theorem read_iff (h : c.IsAtRule name tail) (hturns : Turns n ⟨[], .ofText text⟩ c) :
    c.ReadsRule text ↔ ¬name.IsImport ∧ ¬tail.BeginsValue := by
  constructor
  · rintro ⟨⟨after, hturn⟩, -, -⟩
    rw [h.turn_eq] at hturn
    split at hturn
    · cases hturn
    · have hblocks := congrArg Cursor.blocks (Turn.on.inj hturn)
      exact (List.cons_ne_self _ _ hblocks.symm).elim
    · rename_i hcut
      exact h.of_cut hcut
  · rintro ⟨himport, hvalue⟩
    obtain ⟨after, hcut⟩ := h.cut_eq himport hvalue c.blocks.head?.isSome
    refine ⟨⟨after, ?_⟩, fun d parents => d.heading_at parents h.head?_prelude, fun hread => ?_⟩
    · rw [h.turn_eq, hcut]
    · obtain ⟨body, rest, hpart⟩ := part_of_opening hturns.guided h.begins rfl hcut
      obtain ⟨d, _, hdesk, rfl, hinto⟩ := Document.desk_of_read hread
      obtain ⟨b, rule, hholds, hmem, hheaded⟩ := Desk.rule_of_part hpart hinto
      rw [hdesk.source] at hheaded
      exact ⟨b, rule, hholds, hmem, hheaded, hheaded.isAt h.head?_prelude⟩

end IsAtRule

/-- Inside a block, with a colon that comes later. -/
theorem IsAtRule.read_iff_nested :
    let text : Text := "@media print \x7b @page x:first \x7b \x7d \x7d"
    let c : Cursor := ⟨[⟨0, "@media print "⟩], ⟨14, " @page x:first \x7b \x7d \x7d"⟩⟩
    Turns 1 ⟨[], .ofText text⟩ c ∧ c.IsAtRule "page" " x:first \x7b \x7d \x7d" ∧
      c.ReadsRule text := by
  intro text c
  have hturns : Turns 1 ⟨[], .ofText text⟩ c := .turn (by decide +kernel) (.here c)
  have hbrace : (c.input.dropGap.untilTop Statement.ends).2.text = "\x7b \x7d \x7d".toList := by
    decide +kernel
  have h : c.IsAtRule "page" " x:first \x7b \x7d \x7d" :=
    ⟨by decide +kernel, ⟨by decide, Text.forall_mem_of_all (by decide)⟩,
      fun _ hspace => Option.some.inj hspace ▸ rfl, ⟨_, hbrace⟩⟩
  refine ⟨hturns, h, (read_iff h hturns).mpr ⟨?_, ?_⟩⟩
  · show ¬"page".toList.map Char.toLower = "import".toList
    decide
  · show ¬(List.dropWhile isGap " x:first \x7b \x7d \x7d".toList).head? = some ':'
    decide

/-- Where a colon comes first, the rule is lost and its block is a part of a value. -/
theorem not_readsRule_of_colon :
    let text : Text := "@page :first \x7b margin: 1cm; \x7d"
    let c : Cursor := ⟨[], .ofText text⟩
    c.IsAtRule "page" " :first \x7b margin: 1cm; \x7d" ∧ ¬c.ReadsRule text ∧
      (StyleSheet.compile {} StyleSheet.standardInput text).result = .error
        (.located .unmatchedBrace ⟨"stdin", ⟨0, 28⟩, ⟨0, 29⟩, text⟩ true) := by
  intro text c
  have hbrace : (c.input.dropGap.untilTop Statement.ends).2.text =
      "\x7b margin: 1cm; \x7d".toList := by
    decide +kernel
  have hturn : c.turn = .on ⟨[], ⟨27, " \x7d"⟩⟩ := by decide +kernel
  have hresult : (StyleSheet.compile {} StyleSheet.standardInput text).result = .error
      (.located .unmatchedBrace ⟨"stdin", ⟨0, 28⟩, ⟨0, 29⟩, text⟩ true) := by
    decide +kernel
  refine ⟨⟨by decide +kernel, ⟨by decide, Text.forall_mem_of_all (by decide)⟩,
    fun _ hspace => Option.some.inj hspace ▸ rfl, ⟨_, hbrace⟩⟩, fun h => ?_, hresult⟩
  obtain ⟨after, hopens⟩ := h.opens
  rw [hturn] at hopens
  cases hopens

end Cursor

end Cascade
