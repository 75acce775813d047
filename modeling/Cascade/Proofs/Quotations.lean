import Cascade.Proofs.Parts
import Cascade.Proofs.Places
import Cascade.Proofs.Slices
import Cascade.Proofs.Strings

/-!
# Strings in a source

A statement ends outside strings, so each string of a source is in one statement, or in one
prelude: the strings of the outline are those of the source (`Outline.strings_ofText`). And
each of them is written in the source as its glyphs show it, as comments and line ends are
only looked for outside strings (`Glyph.infix_of_mem_strings`).
-/

namespace Cascade

/-! ## Strings in slices -/

namespace Slice

variable {s : Slice} {c : Char} {t : Text}

theorem strings_untilTop (stop : Char → Bool) (s : Slice) :
    s.text.strings = (s.untilTop stop).1.text.strings ++ (s.untilTop stop).2.text.strings := by
  rw [untilTop_fst_text, untilTop_snd_text]
  exact Text.strings_untilTop stop s.text

/-- A slice that is ended does not end in the middle of a string. -/
theorem run_untilTop {stop : Char → Bool} (h : (s.untilTop stop).2.text ≠ []) :
    Quoting.run .outside (s.untilTop stop).1.text = .outside := by
  rw [untilTop_snd_text] at h
  rw [untilTop_fst_text]
  exact Text.run_untilTop h

theorem strings_drop {n : Nat} (h : ∀ c ∈ s.text.take n, isQuote c = false) :
    (s.drop n).text.strings = s.text.strings := by
  conv_rhs => rw [← List.take_append_drop n s.text]
  exact (Text.strings_plain_append h).symm

theorem strings_drop_one (hs : s.text = c :: t) (hc : isQuote c = false) :
    (s.drop 1).text.strings = s.text.strings := by
  rw [hs, Text.strings_cons hc, drop, hs]
  rfl

theorem strings_dropGap (s : Slice) : s.dropGap.text.strings = s.text.strings := by
  refine strings_drop fun c hc => not_isQuote_of_isBlank (isBlank_of_isGap ?_)
  rw [← List.prefix_iff_eq_take.mp (List.takeWhile_prefix isGap)] at hc
  exact List.mem_takeWhile_imp hc

theorem stop_of_untilTop {stop : Char → Bool} (h : (s.untilTop stop).2.text = c :: t) :
    stop c = true := by
  rw [untilTop_snd_text] at h
  exact Text.stop_of_untilTop h

/-- Each string is in one of the pieces at a separator. -/
theorem flatMap_strings_splitTop {separator : Char} (hseparator : isQuote separator = false)
    (s : Slice) : (s.splitTop separator).flatMap (·.text.strings) = s.text.strings := by
  rw [splitTop]
  split
  · exact List.flatMap_singleton ..
  · rename_i hne
    obtain ⟨c, t, hrest⟩ :=
      List.exists_cons_of_ne_nil fun hnil => hne (List.length_eq_zero_iff.mpr hnil)
    have hend := stop_of_untilTop hrest
    have hc : c = separator := beq_iff_eq.mp hend
    have hlt : (s.untilTop (· == separator)).2.length - 1 < s.length := by
      have := length_untilTop (· == separator) s
      omega
    rw [List.flatMap_cons, flatMap_strings_splitTop hseparator,
      strings_drop_one hrest (hc ▸ hseparator), ← s.strings_untilTop]
termination_by s.length

end Slice

/-! ## Strings in statements and preludes -/

namespace Statement

/-- The strings of a statement. The name of a definition has none. -/
def strings : Statement → List Text
  | importing whole | directive whole | call whole | property whole => whole.text.strings
  | definition _ value _ => value.text.strings

variable {nested : Bool} {s rest : Slice}

theorem strings_afterEnd (rest : Slice) : (afterEnd rest).text.strings = rest.text.strings := by
  unfold afterEnd
  split
  · rename_i hrest
    exact Slice.strings_drop_one hrest rfl
  · rfl

theorem Ended.strings {after : Slice} (h : Ended nested after rest) :
    rest.text.strings = after.text.strings := by
  cases h with
  | semicolon ht => exact Slice.strings_drop_one ht rfl
  | brace => rfl

theorem not_isQuote_of_beginsDefinition? {t name : Text} {colon : Nat}
    (h : beginsDefinition? t = some (name, colon)) :
    ∀ c ∈ t.take (colon + 1), isQuote c = false := by
  obtain ⟨gap, rest, rfl, rfl, hname, hgap⟩ := of_beginsDefinition? h
  intro c hc
  rw [List.take_left' (by simp; omega)] at hc
  rcases List.mem_cons.mp hc with rfl | hc
  · rfl
  · rcases List.mem_append.mp hc with hc | hc
    · exact not_isQuote_of_isNameChar (hname c hc)
    · rcases List.mem_append.mp hc with hc | hc
      · exact not_isQuote_of_isBlank (isBlank_of_isGap (hgap c hc))
      · obtain rfl := List.mem_singleton.mp hc
        rfl

/-- No string is lost where a statement is cut off. -/
theorem strings_of_cut_statement {st : Statement} (h : cut nested s = .statement st rest) :
    s.text.strings = st.strings ++ rest.text.strings := by
  cases cutsTo_of_cut h with
  | importing _ hended =>
      rw [hended.strings]
      exact s.strings_untilTop endsDefinition
  | definition _ hbegins hended =>
      rw [hended.strings, ← Slice.strings_drop (not_isQuote_of_beginsDefinition? hbegins)]
      exact Slice.strings_untilTop endsDefinition _
  | plain _ _ _ hst =>
      rw [strings_afterEnd]
      cases hst <;> exact s.strings_untilTop ends

theorem strings_of_cut_opening {prelude : Slice} (h : cut nested s = .opening prelude rest) :
    s.text.strings = prelude.text.strings ++ rest.text.strings := by
  obtain ⟨-, -, rfl, rfl, t, ht⟩ := of_cut_opening h
  rw [Slice.strings_drop_one ht rfl]
  exact s.strings_untilTop ends

/-- What the beginning of a statement tells of its strings. -/
def WellBegun : Statement → Prop
  | importing whole => ∃ s : Slice, beginsImport s.text = true ∧
      whole = (s.untilTop endsDefinition).1 ∧ (s.untilTop endsDefinition).2.text ≠ []
  | call whole => whole.text.head? = some '.'
  | definition _ _ _ | directive _ | property _ => True

theorem wellBegun_of_cut {st : Statement} (h : cut nested s = .statement st rest) :
    st.WellBegun := by
  cases cutsTo_of_cut h with
  | importing hbegins hended => exact ⟨s, hbegins, rfl, hended.within.1⟩
  | definition => trivial
  | plain _ _ _ hst =>
      cases hst with
      | directive | property => trivial
      | call _ hdot => exact hdot

end Statement

namespace Outline

/-- The strings of an outline, statement by statement. -/
def strings : Outline → List Text
  | closed | broken _ _ => []
  | statement st rest => st.strings ++ strings rest
  | block prelude body rest => prelude.text.strings ++ (strings body ++ strings rest)

/-- The statements of an outline begin as they must. -/
def WellBegun : Outline → Prop
  | closed | broken _ _ => True
  | statement st rest => st.WellBegun ∧ rest.WellBegun
  | block _ body rest => body.WellBegun ∧ rest.WellBegun

variable {opened : Option Slice} {input rest : Slice} {outline o : Outline}

theorem Scans.strings (h : Scans opened input outline rest) (hunbroken : outline.Unbroken) :
    input.text.strings = outline.strings ++ rest.text.strings := by
  induction h with
  | unclosed | unmatched | broken => exact hunbroken.elim
  | @ended input ht => exact input.strings_dropGap.symm
  | @close _ input t ht =>
      rw [Slice.strings_drop_one ht rfl, Slice.strings_dropGap]
      rfl
  | @skip _ input _ _ _ ht _ ih =>
      rw [← ih hunbroken, Slice.strings_drop_one ht rfl, Slice.strings_dropGap]
  | @statement _ input _ _ _ _ st _ _ _ hcut _ ih =>
      rw [← input.strings_dropGap, Statement.strings_of_cut_statement hcut, ih hunbroken,
        Outline.strings, List.append_assoc]
  | @block _ input _ _ _ _ _ _ _ _ _ _ hcut _ _ ihbody ih =>
      rw [← input.strings_dropGap, Statement.strings_of_cut_opening hcut, ihbody hunbroken.1,
        ih hunbroken.2, Outline.strings, List.append_assoc, List.append_assoc]

/-- Each string of a source that does not break is in a statement or in a prelude. -/
theorem strings_ofText {text : Text} (h : (ofText text).Unbroken) :
    (ofText text).strings = (Glyph.visible text).strings := by
  have hscans := scan_scans none (.ofText text)
  have hstrings := hscans.strings h
  rw [hscans.rest_eq_nil rfl h] at hstrings
  exact (hstrings.trans (List.append_nil _)).symm

theorem Scans.wellBegun (h : Scans opened input outline rest) : outline.WellBegun := by
  induction h with
  | ended | unclosed | close | unmatched | broken => trivial
  | skip _ _ ih => exact ih
  | statement _ _ hcut _ ih => exact ⟨Statement.wellBegun_of_cut hcut, ih⟩
  | block _ _ _ _ _ ihbody ih => exact ⟨ihbody, ih⟩

theorem wellBegun_ofText (t : Text) : (ofText t).WellBegun :=
  (scan_scans none (.ofText t)).wellBegun

theorem Part.wellBegun (hpart : o.Part outline) (h : outline.WellBegun) : o.WellBegun := by
  induction hpart with
  | refl => exact h
  | statement _ ih | rest _ ih => exact ih h.2
  | body _ ih => exact ih h.1

end Outline

namespace Glyph

/-- The strings that a scan finds in what is shown are written in the text, where the scan has
passed the beginning of the first. -/
def Shown (q : Quoting) (shown t : Text) : Prop :=
  ∀ passed, ∀ w ∈ Text.stringsFrom q passed shown, w <:+: passed ++ t

namespace Shown

variable {q : Quoting} {shown t : Text} {c : Char}

theorem nil (q : Quoting) (t : Text) : Shown q [] t := fun _ _ => List.not_mem_nil.elim

/-- What is not shown is in no string. -/
theorem skip (hq : q = .outside) (h : Shown q shown t) (c : Char) : Shown q shown (c :: t) := by
  subst hq
  intro passed w hw
  rw [Text.stringsFrom_outside, ← Text.stringsFrom_outside []] at hw
  exact ((h [] w hw).trans (List.suffix_cons c t).isInfix).trans
    (List.suffix_append passed _).isInfix

theorem cons (h : Shown (q.step c) shown t) : Shown q (c :: shown) (c :: t) := by
  intro passed w hw
  cases q with
  | outside => exact (h [c] w hw).trans (List.suffix_append passed _).isInfix
  | inside mark escaped =>
      rw [Text.stringsFrom] at hw
      have hsplit : passed ++ c :: t = passed ++ [c] ++ t := by simp
      rw [hsplit]
      split at hw
      · rename_i hout
        rw [hout] at h
        rcases List.mem_cons.mp hw with rfl | hw
        · exact (List.prefix_append _ t).isInfix
        · exact (h [] w hw).trans (List.suffix_append _ t).isInfix
      · exact h _ w hw

/-- A line end is shown as another only outside strings. -/
theorem lineEnd (hq : q = .outside) (h : Shown q shown t) (c : Char) :
    Shown q ('\n' :: shown) (c :: t) := by
  subst hq
  intro passed w hw
  rw [Text.stringsFrom_outside, Text.strings_cons rfl] at hw
  exact h.skip rfl c passed w ((Text.stringsFrom_outside passed shown).symm ▸ hw)

end Shown

theorem scan_shown (p : Passage) (s : Nesting) (place : Nat) (t : Text)
    (h : p = .code ∨ s.quoting = .outside) :
    Shown s.quoting ((scan p s place t).map char) t := by
  fun_induction scan p s place t with
  | case1 | case4 => exact .nil _ _
  | case2 _ _ _ _ _ _ ih | case5 _ _ _ _ _ _ ih =>
      exact (ih (.inl rfl)).skip (h.resolve_left (by simp)) _
  | case3 _ _ _ _ _ _ ih | case6 _ _ _ _ _ _ ih =>
      have hq := h.resolve_left (by simp)
      exact (ih (.inr hq)).skip hq _
  | case7 _ _ _ _ _ ih | case14 _ _ _ _ _ _ _ _ _ _ ih =>
      rw [Nesting.quoting_step] at ih
      exact (ih (.inl rfl)).cons
  | case8 _ _ hq _ ih =>
      have hq := not_not.mp hq
      exact ((ih (.inr hq)).skip hq _).skip hq _
  | case9 _ _ hq _ _ ih =>
      have hq := not_not.mp hq
      exact (ih (.inr hq)).skip hq _
  | case10 _ _ hq _ _ ih =>
      rw [not_not.mp hq] at ih ⊢
      exact Shown.cons (q := .outside) (c := '/') (ih (.inl rfl))
  | case11 _ _ hq _ ih =>
      have hq := not_not.mp hq
      exact ((ih (.inl rfl)).skip hq _).lineEnd hq _
  | case12 _ _ hq _ _ ih | case13 _ _ hq _ ih => exact (ih (.inl rfl)).lineEnd (not_not.mp hq) _

/-- A string outside comments is written in the source as its glyphs show it. -/
theorem infix_of_mem_strings {t w : Text} (h : w ∈ (visible t).strings) : w <:+: t :=
  scan_shown .code .top 0 t (.inl rfl) [] w h

end Glyph

end Cascade
