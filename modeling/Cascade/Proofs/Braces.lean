import Cascade.Proofs.Outlines
import Cascade.Proofs.Reading
import Cascade.StyleSheet
import Mathlib.Data.List.Infix
import Mathlib.Data.List.TakeWhile

/-!
# Balanced braces

What the braces of a source that can be read look like, counting those outside
comments, strings and parentheses. Every `}` closes a `{` before it. A `{` is closed
unless it stands in the value of a definition or in an import: these run to the next
`;` or `}`, and step over a `{` as over any other character. So a source is balanced
if and only if there is no such brace in it (`StyleSheet.balanced_iff_of_read`).
-/

namespace Cascade

namespace Text

/-- The braces of a text outside strings and parentheses, in order. -/
def braces : Nesting → Text → Text
  | _, [] => []
  | s, c :: rest =>
    if s.isTop && (c == '{' || c == '}') then c :: braces (s.step c) rest
    else braces (s.step c) rest

/-- No beginning of the text closes more than it opens. -/
def NeverBelow (bs : Text) : Prop := ∀ p, p <+: bs → p.count '}' ≤ p.count '{'

/-- Every brace outside strings and parentheses has its counterpart. -/
def Balanced (t : Text) : Prop :=
  (braces .top t).NeverBelow ∧ (braces .top t).count '{' = (braces .top t).count '}'

/-! ## Counting -/

theorem prefix_append_cases {α : Type} {p l r : List α} (h : p <+: l ++ r) :
    p <+: l ∨ ∃ q, p = l ++ q ∧ q <+: r := by
  obtain ⟨rest, h⟩ := h
  rcases List.append_eq_append_iff.mp h with ⟨q, rfl, -⟩ | ⟨q, rfl, rfl⟩
  · exact .inl (List.prefix_append _ _)
  · exact .inr ⟨q, rfl, List.prefix_append _ _⟩

namespace NeverBelow

variable {bs bs' : Text}

theorem nil : NeverBelow [] := by
  intro p hp
  obtain rfl := List.prefix_nil.mp hp
  exact Nat.le_refl _

theorem append (h : NeverBelow bs) (h' : NeverBelow bs') : NeverBelow (bs ++ bs') := by
  intro p hp
  rcases prefix_append_cases hp with hp | ⟨q, rfl, hq⟩
  · exact h p hp
  · have := h bs List.prefix_rfl
    have := h' q hq
    simp only [List.count_append]
    omega

theorem replicate (n : Nat) : NeverBelow (List.replicate n '{') := by
  intro p hp
  have hnone : p.count '}' = 0 := List.count_eq_zero.mpr fun hmem => by
    cases List.eq_of_mem_replicate (hp.subset hmem)
  rw [hnone]
  exact Nat.zero_le _

/-- A block in its braces. -/
theorem block (h : NeverBelow bs) : NeverBelow ('{' :: (bs ++ ['}'])) := by
  intro p hp
  cases p with
  | nil => exact Nat.le_refl _
  | cons c p =>
      obtain ⟨rfl, hrest⟩ := List.cons_prefix_cons.mp hp
      have hcount : p.count '}' ≤ p.count '{' + 1 := by
        rcases prefix_append_cases hrest with hp | ⟨q, rfl, hq⟩
        · have := h p hp
          omega
        · have := h bs List.prefix_rfl
          have : q.count '}' ≤ 1 := hq.sublist.count_le '}'
          simp only [List.count_append]
          omega
      simpa using hcount

end NeverBelow

/-! ## What is skipped on the way to an end -/

/-- A character that neither is a brace nor changes what follows. -/
def IsNeutral (c : Char) : Prop := Nesting.step .top c = .top ∧ c ≠ '{' ∧ c ≠ '}'

instance (c : Char) : Decidable (IsNeutral c) := inferInstanceAs (Decidable (_ ∧ _ ∧ _))

theorem braces_of_neutral {t : Text} (h : ∀ c ∈ t, IsNeutral c) (u : Text) :
    braces .top (t ++ u) = braces .top u := by
  induction t with
  | nil => rfl
  | cons c rest ih =>
      obtain ⟨hstep, hopen, hclose⟩ := h c (List.mem_cons_self ..)
      rw [List.cons_append, braces, hstep]
      simp [hopen, hclose, ih fun c hc => h c (List.mem_cons_of_mem _ hc)]

/-- A text falls apart before the first stop, which is at top level, and the part
before has none of the braces that stop. -/
theorem braces_untilTop (stop : Char → Bool) (s : Nesting) (t : Text) :
    braces s t = braces s (untilTop stop s t).1 ++ braces .top (untilTop stop s t).2 ∧
      ∀ c ∈ braces s (untilTop stop s t).1, stop c = false := by
  induction t generalizing s with
  | nil => exact ⟨rfl, fun _ => List.not_mem_nil.elim⟩
  | cons c rest ih =>
      obtain ⟨happend, hstop⟩ := ih (s.step c)
      rw [untilTop]
      by_cases hend : (s.isTop && stop c) = true
      · obtain rfl : s = .top := by
          simpa [Nesting.isTop] using (Bool.and_eq_true_iff.mp hend).1
        rw [if_pos hend]
        exact ⟨rfl, fun _ => List.not_mem_nil.elim⟩
      · rw [if_neg hend]
        simp only [braces]
        split
        · rename_i hbrace
          refine ⟨by rw [happend, List.cons_append], fun b hb => ?_⟩
          rcases List.mem_cons.mp hb with rfl | hb
          · have htop := (Bool.and_eq_true_iff.mp hbrace).1
            simpa [htop] using hend
          · exact hstop b hb
        · exact ⟨happend, hstop⟩

theorem mem_braces {c : Char} : ∀ {s : Nesting} {t : Text}, c ∈ braces s t → c = '{' ∨ c = '}'
  | _, [], h => by cases h
  | s, b :: rest, h => by
      rw [braces] at h
      split at h
      · rename_i hbrace
        rcases List.mem_cons.mp h with rfl | h
        · simpa using (Bool.and_eq_true_iff.mp hbrace).2
        · exact mem_braces h
      · exact mem_braces h

theorem isNeutral_of_isNameChar {c : Char} (h : isNameChar c = true) : IsNeutral c := by
  have hne (b : Char) (hb : isNameChar b = false) : c ≠ b := by
    rintro rfl
    rw [h] at hb
    cases hb
  refine ⟨?_, hne '{' (by decide), hne '}' (by decide)⟩
  simp [Nesting.step, Nesting.top, hne '"' (by decide), hne '\'' (by decide), hne '(' (by decide),
    hne ')' (by decide)]

theorem isNeutral_of_isGap {c : Char} (h : isGap c = true) : IsNeutral c := by
  simp only [isGap, Bool.or_eq_true, beq_iff_eq] at h
  rcases h with (rfl | rfl) | rfl <;> decide

end Text

namespace Slice

theorem untilTop_fst_text (stop : Char → Bool) (s : Slice) :
    (s.untilTop stop).1.text = (Text.untilTop stop .top s.text).1 := by
  show s.text.take (Text.untilTop stop .top s.text).1.length = _
  exact (congrArg (List.take _) (Text.untilTop_append stop .top s.text)).symm.trans List.take_left

theorem untilTop_snd_text (stop : Char → Bool) (s : Slice) :
    (s.untilTop stop).2.text = (Text.untilTop stop .top s.text).2 := by
  show s.text.drop (Text.untilTop stop .top s.text).1.length = _
  exact (congrArg (List.drop _) (Text.untilTop_append stop .top s.text)).symm.trans List.drop_left

/-- What is dropped shows in no braces if it is neutral. -/
theorem braces_drop {n : Nat} {s : Slice} (h : ∀ c ∈ s.text.take n, Text.IsNeutral c) :
    Text.braces .top s.text = Text.braces .top (s.drop n).text := by
  show _ = Text.braces .top (s.text.drop n)
  conv_lhs => rw [← List.take_append_drop n s.text]
  exact Text.braces_of_neutral h _

theorem braces_dropGap (s : Slice) :
    Text.braces .top s.text = Text.braces .top s.dropGap.text := by
  refine braces_drop fun c hc => Text.isNeutral_of_isGap ?_
  have hgap : s.text.take (s.text.takeWhile isGap).length = s.text.takeWhile isGap :=
    List.prefix_iff_eq_take.mp (List.takeWhile_prefix isGap) |>.symm
  rw [hgap] at hc
  exact List.mem_takeWhile_imp hc

theorem braces_drop_one {s : Slice} {c : Char} {t : Text} (hs : s.text = c :: t)
    (hc : Text.IsNeutral c) : Text.braces .top s.text = Text.braces .top (s.drop 1).text := by
  refine braces_drop fun b hb => ?_
  rw [hs] at hb
  exact List.mem_singleton.mp hb ▸ hc

/-- Up to the end of a definition there are only braces that open. -/
theorem braces_untilEnd (s : Slice) :
    Text.braces .top s.text =
      List.replicate
          ((Text.braces .top (s.untilTop Statement.endsDefinition).1.text).count '{') '{' ++
        Text.braces .top (s.untilTop Statement.endsDefinition).2.text := by
  obtain ⟨happend, hstop⟩ := Text.braces_untilTop Statement.endsDefinition .top s.text
  rw [← untilTop_fst_text, ← untilTop_snd_text] at happend
  rw [← untilTop_fst_text] at hstop
  have hopen : ∀ c ∈ Text.braces .top (s.untilTop Statement.endsDefinition).1.text, '{' = c := by
    intro c hc
    rcases Text.mem_braces hc with rfl | rfl
    · rfl
    · cases hstop _ hc
  rw [List.count_eq_length.mpr hopen, ← List.eq_replicate_of_mem fun c hc => (hopen c hc).symm]
  exact happend

/-- Up to the end of any other statement there are none. -/
theorem braces_untilAnyEnd (s : Slice) :
    Text.braces .top s.text = Text.braces .top (s.untilTop Statement.ends).2.text := by
  obtain ⟨happend, hstop⟩ := Text.braces_untilTop Statement.ends .top s.text
  have hnone : Text.braces .top (Text.untilTop Statement.ends .top s.text).1 = [] := by
    refine List.eq_nil_iff_forall_not_mem.mpr fun c hc => ?_
    rcases Text.mem_braces hc with rfl | rfl <;> cases hstop _ hc
  rw [happend, hnone, untilTop_snd_text]
  rfl

end Slice

/-! ## Statements -/

namespace Statement

/-- The number of `{` that a statement steps over. -/
def strays : Statement → Nat
  | importing whole => (Text.braces .top whole.text).count '{'
  | definition _ value _ => (Text.braces .top value.text).count '{'
  | directive _ | call _ | property _ => 0

variable {nested : Bool} {s rest : Slice}

theorem afterEnd_braces (rest : Slice) :
    Text.braces .top rest.text = Text.braces .top (afterEnd rest).text := by
  unfold afterEnd
  split
  · rename_i hrest
    exact Slice.braces_drop_one hrest (by decide)
  · rfl

theorem Ended.braces {after : Slice} (h : Ended nested after rest) :
    Text.braces .top after.text = Text.braces .top rest.text := by
  cases h with
  | semicolon ht => exact Slice.braces_drop_one ht (by decide)
  | brace => rfl

/-- A definition begins with `@`, a name, a gap and a colon. -/
theorem of_beginsDefinition? {t name : Text} {colon : Nat}
    (h : beginsDefinition? t = some (name, colon)) :
    ∃ gap rest, t = '@' :: (name ++ (gap ++ [':'])) ++ rest ∧
      colon = 1 + name.length + gap.length ∧
      (∀ c ∈ name, isNameChar c = true) ∧ ∀ c ∈ gap, isGap c = true := by
  unfold beginsDefinition? at h
  split at h
  · rename_i t
    simp only at h
    split at h
    · rename_i rest hcolon
      split at h
      · cases h
      · cases h
        have hname := List.prefix_iff_eq_append.mp (List.takeWhile_prefix (l := t) isNameChar)
        have hgap := List.prefix_iff_eq_append.mp
          (List.takeWhile_prefix (l := t.drop (t.takeWhile isNameChar).length) isGap)
        rw [List.drop_drop, hcolon] at hgap
        refine ⟨_, rest, ?_, rfl, fun c => List.mem_takeWhile_imp, fun c => List.mem_takeWhile_imp⟩
        rw [List.cons_append, List.append_assoc, List.append_assoc, List.singleton_append, hgap,
          hname]
    · cases h
  · cases h

/-- What stands before the value of a definition. -/
theorem isNeutral_of_beginsDefinition? {t name : Text} {colon : Nat}
    (h : beginsDefinition? t = some (name, colon)) :
    ∀ c ∈ t.take (colon + 1), Text.IsNeutral c := by
  obtain ⟨gap, rest, rfl, rfl, hname, hgap⟩ := of_beginsDefinition? h
  intro c hc
  rw [List.take_left' (by simp; omega)] at hc
  rcases List.mem_cons.mp hc with rfl | hc
  · decide
  · rcases List.mem_append.mp hc with hc | hc
    · exact Text.isNeutral_of_isNameChar (hname c hc)
    · rcases List.mem_append.mp hc with hc | hc
      · exact Text.isNeutral_of_isGap (hgap c hc)
      · obtain rfl := List.mem_singleton.mp hc
        decide

theorem cut_statement_braces {st : Statement} (h : cut nested s = .statement st rest) :
    Text.braces .top s.text = List.replicate st.strays '{' ++ Text.braces .top rest.text := by
  cases cutsTo_of_cut h with
  | importing _ hended =>
      rw [← hended.braces]
      exact s.braces_untilEnd
  | definition _ hbegins hended =>
      rw [← hended.braces, Slice.braces_drop (isNeutral_of_beginsDefinition? hbegins)]
      exact Slice.braces_untilEnd _
  | plain _ _ _ hst =>
      have hstrays : st.strays = 0 := by cases hst <;> rfl
      rw [hstrays, ← afterEnd_braces]
      exact s.braces_untilAnyEnd

theorem cut_opening_braces {prelude : Slice} (h : cut nested s = .opening prelude rest) :
    Text.braces .top s.text = '{' :: Text.braces .top rest.text := by
  obtain ⟨-, -, -, rfl, t, ht⟩ := of_cut_opening h
  rw [s.braces_untilAnyEnd]
  show _ = '{' :: Text.braces .top (List.drop 1 _)
  rw [ht]
  rfl

end Statement

namespace Outline

/-- The number of `{` that no `}` closes. -/
def strays : Outline → Nat
  | closed | broken _ _ => 0
  | statement st rest => st.strays + strays rest
  | block _ body rest => strays body + strays rest

/-- The braces of a block up to its end, or of a source. -/
theorem Scans.braces {opened : Option Slice} {input rest : Slice} {outline : Outline}
    (h : Scans opened input outline rest) (hunbroken : outline.Unbroken) :
    ∃ bs : Text, Text.braces .top input.text =
        bs ++ ((if opened.isSome then ['}'] else []) ++ Text.braces .top rest.text) ∧
      bs.NeverBelow ∧ bs.count '{' = bs.count '}' + outline.strays := by
  induction h with
  | unclosed | unmatched | broken => exact hunbroken.elim
  | @ended input ht =>
      exact ⟨[], input.braces_dropGap, .nil, rfl⟩
  | @close _ input t ht =>
      refine ⟨[], ?_, .nil, rfl⟩
      rw [input.braces_dropGap]
      show _ = '}' :: Text.braces .top (List.drop 1 _)
      rw [ht]
      rfl
  | @skip _ input _ _ _ ht _ ih =>
      obtain ⟨bs, hbs, hbelow, hcount⟩ := ih hunbroken
      exact ⟨bs, by rw [input.braces_dropGap, Slice.braces_drop_one ht (by decide), hbs], hbelow,
        hcount⟩
  | @statement _ input _ _ _ _ st _ _ _ hcut _ ih =>
      obtain ⟨bs, hbs, hbelow, hcount⟩ := ih hunbroken
      refine ⟨List.replicate st.strays '{' ++ bs, ?_,
        (Text.NeverBelow.replicate _).append hbelow, ?_⟩
      · rw [input.braces_dropGap, Statement.cut_statement_braces hcut, hbs, List.append_assoc]
      · have hopen : (List.replicate st.strays '{').count '}' = 0 := by
          simp [List.count_replicate]
        rw [List.count_append, List.count_append, hcount, hopen, List.count_replicate_self, strays]
        omega
  | @block _ input _ _ _ _ _ _ _ _ _ _ hcut _ _ ihbody ih =>
      obtain ⟨inside, hinside, hbelow, hcount⟩ := ihbody hunbroken.1
      obtain ⟨bs, hbs, hbelow', hcount'⟩ := ih hunbroken.2
      refine ⟨'{' :: (inside ++ ['}']) ++ bs, ?_, hbelow.block.append hbelow', ?_⟩
      · rw [input.braces_dropGap, Statement.cut_opening_braces hcut, hinside, hbs]
        simp
      · simp [hcount, hcount', strays]
        omega

/-- The scan of a source that does not break reaches the end of it. -/
theorem Scans.rest_eq_nil {opened : Option Slice} {input rest : Slice} {outline : Outline}
    (h : Scans opened input outline rest) (hopened : opened = none)
    (hunbroken : outline.Unbroken) : rest.text = [] := by
  induction h with
  | ended ht => exact ht
  | unclosed | unmatched | broken => exact hunbroken.elim
  | close => cases hopened
  | skip _ _ ih | statement _ _ _ _ ih => exact ih hopened hunbroken
  | block _ _ _ _ _ _ ih => exact ih hopened hunbroken.2

theorem braces_ofText {text : Text} (h : (ofText text).Unbroken) :
    (Text.braces .top (Glyph.visible text)).NeverBelow ∧
      (Text.braces .top (Glyph.visible text)).count '{' =
        (Text.braces .top (Glyph.visible text)).count '}' + (ofText text).strays := by
  have hscans := scan_scans none (.ofText text)
  obtain ⟨bs, hbs, hcounts⟩ := hscans.braces h
  have hnil := hscans.rest_eq_nil rfl h
  have hall : Text.braces .top (Glyph.visible text) = bs := by
    rw [hnil] at hbs
    exact hbs.trans (List.append_nil bs)
  rw [hall]
  exact hcounts

end Outline

namespace StyleSheet

/-- A source that can be read never closes a block that is not open, and leaves open
only what definitions and imports step over. -/
theorem balanced_iff_of_read {options : Options} {path : Path} {text : Text} {d : Document}
    (h : (readState options path text).1 = .ok d) :
    (Text.braces .top (Glyph.visible text)).NeverBelow ∧
      (Text.Balanced (Glyph.visible text) ↔ (Outline.ofText text).strays = 0) := by
  have hunbroken := Document.unbroken_of_read
    (show (Document.readEntry options path text).run.run ⟨#[], #[], #[]⟩ = _ from Prod.ext h rfl)
  obtain ⟨hbelow, hcount⟩ := Outline.braces_ofText hunbroken
  refine ⟨hbelow, fun hbalanced => ?_, fun hstrays => ⟨hbelow, ?_⟩⟩
  · have := hbalanced.2
    omega
  · omega

/-- Two blocks, one in the other, and a `}` in a string. -/
theorem balanced_iff_of_read_nested :
    ∃ d, (readState {} ⟨"a.less"⟩ "a \x7b b \x7b c: '\x7d' \x7d \x7d").1 = .ok d ∧
      Text.Balanced (Glyph.visible "a \x7b b \x7b c: '\x7d' \x7d \x7d") := by
  have hok : (readState {} ⟨"a.less"⟩ "a \x7b b \x7b c: '\x7d' \x7d \x7d").1.isOk = true := by
    decide +kernel
  cases hread : (readState {} ⟨"a.less"⟩ "a \x7b b \x7b c: '\x7d' \x7d \x7d").1 with
  | error fault =>
      rw [hread] at hok
      cases hok
  | ok d => exact ⟨d, rfl, (balanced_iff_of_read hread).2.mpr (by decide +kernel)⟩

/-- A value may have a brace that nothing closes. -/
theorem not_balanced_of_value :
    ∃ d, (readState {} ⟨"a.less"⟩ "@a: \x7b;").1 = .ok d ∧
      ¬ Text.Balanced (Glyph.visible "@a: \x7b;") := by
  have hok : (readState {} ⟨"a.less"⟩ "@a: \x7b;").1.isOk = true := by decide +kernel
  have hcount : (Text.braces .top (Glyph.visible "@a: \x7b;")).count '{' ≠
      (Text.braces .top (Glyph.visible "@a: \x7b;")).count '}' := by decide +kernel
  cases hread : (readState {} ⟨"a.less"⟩ "@a: \x7b;").1 with
  | error fault =>
      rw [hread] at hok
      cases hok
  | ok d => exact ⟨d, rfl, fun hbalanced => hcount hbalanced.2⟩

end StyleSheet

end Cascade
