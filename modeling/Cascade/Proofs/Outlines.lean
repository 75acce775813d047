import Cascade.Sheet.Outline

/-!
# What an outline is made of

`Outline.Scans` says how the outline of a slice comes about, one statement at a time:
which slice each statement was cut off, and where the scan went on. It carries what
`Outline.scan` must prove to end only implicitly, so that facts about outlines are
inductions over it and need not look at the scan again.
-/

namespace Cascade

namespace Outline

/-- The outline of the slice `input`, with the slice that is left. `opened` is the
prelude of the block at hand, and none at the top level. -/
inductive Scans : (opened : Option Slice) → (input : Slice) → Outline → (rest : Slice) → Prop
  | ended {input : Slice} : input.dropGap.text = [] → Scans none input closed input.dropGap
  | unclosed {prelude input : Slice} :
      input.dropGap.text = [] →
      Scans (some prelude) input (broken .unclosedBlock prelude) input.dropGap
  | skip {opened : Option Slice} {input rest : Slice} {t : Text} {outline : Outline} :
      input.dropGap.text = ';' :: t → Scans opened (input.dropGap.drop 1) outline rest →
      Scans opened input outline rest
  | close {prelude input : Slice} {t : Text} :
      input.dropGap.text = '}' :: t →
      Scans (some prelude) input closed (input.dropGap.drop 1)
  | unmatched {input : Slice} {t : Text} :
      input.dropGap.text = '}' :: t →
      Scans none input (broken .unmatchedBrace (input.dropGap.take 1)) input.dropGap
  | broken {opened : Option Slice} {input blamed : Slice} {c : Char} {t : Text} {cause : Cause} :
      input.dropGap.text = c :: t → Statement.endsDefinition c = false →
      Statement.cut opened.isSome input.dropGap = .broken cause blamed →
      Scans opened input (broken cause blamed) input.dropGap
  | statement {opened : Option Slice} {input after rest : Slice} {c : Char} {t : Text}
      {st : Statement} {outline : Outline} :
      input.dropGap.text = c :: t → Statement.endsDefinition c = false →
      Statement.cut opened.isSome input.dropGap = .statement st after →
      Scans opened after outline rest →
      Scans opened input (statement st outline) rest
  | block {opened : Option Slice} {input prelude after inside rest : Slice} {c : Char} {t : Text}
      {body outline : Outline} :
      input.dropGap.text = c :: t → Statement.endsDefinition c = false →
      Statement.cut opened.isSome input.dropGap = .opening prelude after →
      Scans (some prelude) after body inside → Scans opened inside outline rest →
      Scans opened input (block prelude body outline) rest

theorem scan_scans (opened : Option Slice) (input : Slice) :
    Scans opened input (scan opened input).val.1 (scan opened input).val.2 := by
  unfold scan
  simp only
  split
  · rename_i ht
    cases opened with
    | none => exact .ended ht
    | some prelude => exact .unclosed ht
  · rename_i c t ht
    have hlt : (input.dropGap.drop 1).length < input.length :=
      Nat.lt_of_lt_of_le (Slice.length_drop_one_lt ht) input.length_dropGap
    split
    · rename_i hc
      split
      · rename_i hsemicolon
        exact .skip (hsemicolon ▸ ht) (scan_scans opened (input.dropGap.drop 1))
      · rename_i hsemicolon
        obtain rfl : c = '}' := by simpa [Statement.endsDefinition, hsemicolon] using hc
        cases opened with
        | none => exact .unmatched ht
        | some prelude => exact .close ht
    · rename_i hc
      have hc : Statement.endsDefinition c = false := Bool.eq_false_iff.mpr hc
      have hshort : (Statement.cut opened.isSome input.dropGap).Shortens input.dropGap :=
        Statement.cut_shortens ht hc
      split
      · rename_i hcut
        exact .broken ht hc hcut
      · rename_i st after hcut
        have hlt := Statement.length_lt_of_cut_statement input.length_dropGap hshort hcut
        exact .statement ht hc hcut (scan_scans opened after)
      · rename_i prelude after hcut
        have hlt := Statement.length_lt_of_cut_opening input.length_dropGap hshort hcut
        have hinside := Nat.lt_of_le_of_lt (scan (some prelude) after).property hlt
        exact .block ht hc hcut (scan_scans _ after) (scan_scans opened _)
termination_by input.length
decreasing_by all_goals assumption

end Outline

/-! ## Where statements stand -/

theorem Slice.start_le_dropGap (s : Slice) : s.start ≤ s.dropGap.start := Nat.le_add_right _ _

theorem Slice.start_le_untilTop (stop : Char → Bool) (s : Slice) :
    s.start ≤ (s.untilTop stop).2.start := Nat.le_add_right _ _

namespace Statement

variable {nested : Bool} {s rest : Slice}

theorem start_le_afterEnd (rest : Slice) : rest.start ≤ (afterEnd rest).start := by
  unfold afterEnd
  split
  · exact Nat.le_add_right _ _
  · exact Nat.le_refl _

/-- Where an import or a definition ends, with what is left: behind its `;`, or in a block at
the `}` of the block. -/
inductive Ended (nested : Bool) (after : Slice) : Slice → Prop
  | semicolon {t : Text} : after.text = ';' :: t → Ended nested after (after.drop 1)
  | brace {t : Text} : nested = true → after.text = '}' :: t → Ended nested after after

theorem Ended.start_le {after : Slice} (h : Ended nested after rest) :
    after.start ≤ rest.start := by
  cases h with
  | semicolon => exact Nat.le_add_right _ _
  | brace => exact Nat.le_refl _

/-- What a statement is that is neither an import nor a definition and opens no block. -/
inductive PlainOf (nested : Bool) (whole : Slice) : Statement → Prop
  | directive : PlainOf nested whole (.directive whole)
  | call : nested = true → whole.text.head? = some '.' → PlainOf nested whole (.call whole)
  | property : nested = true → PlainOf nested whole (.property whole)

/-- What the beginning of a block is cut into. -/
inductive CutsTo (nested : Bool) (s : Slice) : Cut → Prop
  | importing {rest : Slice} : beginsImport s.text = true →
      Ended nested (s.untilTop endsDefinition).2 rest →
      CutsTo nested s (.statement (.importing (s.untilTop endsDefinition).1) rest)
  | definition {name : Text} {colon : Nat} {rest : Slice} : beginsImport s.text = false →
      beginsDefinition? s.text = some (name, colon) →
      Ended nested ((s.drop (colon + 1)).untilTop endsDefinition).2 rest →
      CutsTo nested s (.statement
        (.definition name ((s.drop (colon + 1)).untilTop endsDefinition).1
          (s.take (((s.drop (colon + 1)).untilTop endsDefinition).2.start - s.start))) rest)
  | opening {t : Text} : beginsImport s.text = false → beginsDefinition? s.text = none →
      (s.untilTop ends).2.text = '{' :: t →
      CutsTo nested s (.opening (s.untilTop ends).1 ((s.untilTop ends).2.drop 1))
  | plain {st : Statement} : beginsImport s.text = false → beginsDefinition? s.text = none →
      (∀ t, (s.untilTop ends).2.text ≠ '{' :: t) → PlainOf nested (s.untilTop ends).1 st →
      CutsTo nested s (.statement st (afterEnd (s.untilTop ends).2))
  | endlessImport : beginsImport s.text = true →
      CutsTo nested s (.broken .missingSemicolon (s.untilTop endsDefinition).1)
  | endlessDefinition {name : Text} {colon : Nat} : beginsImport s.text = false →
      beginsDefinition? s.text = some (name, colon) →
      CutsTo nested s (.broken .missingSemicolon
        (s.take (((s.drop (colon + 1)).untilTop endsDefinition).2.start - s.start)))
  | blockless : nested = false → (∀ t, (s.untilTop ends).2.text ≠ '{' :: t) →
      CutsTo nested s (.broken .missingBlock (s.untilTop ends).1)

theorem cutDefinition_cases (nested : Bool) (whole after : Slice) (st : Statement) :
    (∃ rest, Ended nested after rest ∧ cutDefinition nested whole after st = .statement st rest) ∨
      cutDefinition nested whole after st = .broken .missingSemicolon whole := by
  unfold cutDefinition
  split
  · rename_i ht
    exact .inl ⟨_, .semicolon ht, rfl⟩
  · rename_i ht
    split
    · rename_i hnested
      exact .inl ⟨_, .brace hnested ht, rfl⟩
    · exact .inr rfl
  · exact .inr rfl

theorem cut_cutsTo (nested : Bool) (s : Slice) : CutsTo nested s (cut nested s) := by
  unfold cut
  split
  · rename_i himport
    obtain ⟨rest, hended, hcut⟩ | hcut := cutDefinition_cases nested
      (s.untilTop endsDefinition).1 (s.untilTop endsDefinition).2
      (.importing (s.untilTop endsDefinition).1)
    · simp only [hcut]
      exact .importing himport hended
    · simp only [hcut]
      exact .endlessImport himport
  · rename_i himport
    replace himport := Bool.eq_false_iff.mpr himport
    split
    · rename_i name colon hbegins
      obtain ⟨rest, hended, hcut⟩ | hcut := cutDefinition_cases nested
        (s.take (((s.drop (colon + 1)).untilTop endsDefinition).2.start - s.start))
        ((s.drop (colon + 1)).untilTop endsDefinition).2
        (.definition name ((s.drop (colon + 1)).untilTop endsDefinition).1
          (s.take (((s.drop (colon + 1)).untilTop endsDefinition).2.start - s.start)))
      · simp only [hcut]
        exact .definition himport hbegins hended
      · simp only [hcut]
        exact .endlessDefinition himport hbegins
    · rename_i hbegins
      unfold cutPlain
      simp only
      split
      · rename_i ht
        exact .opening himport hbegins ht
      · rename_i hbrace
        exact .plain himport hbegins hbrace .directive
      · rename_i hbrace _
        split
        · rename_i hnested
          split
          · rename_i hdot
            exact .plain himport hbegins hbrace (.call hnested hdot)
          · exact .plain himport hbegins hbrace (.property hnested)
        · rename_i hnested
          exact .blockless (Bool.eq_false_iff.mpr hnested) hbrace

theorem cutsTo_of_cut {cut' : Cut} (h : cut nested s = cut') : CutsTo nested s cut' :=
  h ▸ cut_cutsTo nested s

/-- Only what is neither a definition nor an import opens a block. -/
theorem of_cut_opening {prelude : Slice} (h : cut nested s = .opening prelude rest) :
    beginsImport s.text = false ∧ beginsDefinition? s.text = none ∧
      prelude = (s.untilTop ends).1 ∧ rest = (s.untilTop ends).2.drop 1 ∧
      ∃ t, (s.untilTop ends).2.text = '{' :: t := by
  cases cutsTo_of_cut h with
  | opening himport hdefinition hbrace => exact ⟨himport, hdefinition, rfl, rfl, _, hbrace⟩

theorem start_of_cut_opening {prelude : Slice} (h : cut nested s = .opening prelude rest) :
    prelude.start = s.start ∧ s.start < rest.start := by
  obtain ⟨-, -, rfl, rfl, -⟩ := of_cut_opening h
  exact ⟨rfl, Nat.lt_succ_of_le (s.start_le_untilTop ends)⟩

/-- The value of a definition stands between the beginning of the statement and
what follows it, and right before it at the latest where the block ends there. -/
theorem start_of_cut_statement {st : Statement} (h : cut nested s = .statement st rest) :
    s.start ≤ rest.start ∧ ∀ name value whole, st = .definition name value whole →
      s.start ≤ value.start ∧ (value.start < rest.start ∨
        value.start ≤ rest.start ∧ nested = true ∧ ∃ t, rest.text = '}' :: t) := by
  cases cutsTo_of_cut h with
  | importing _ hended =>
      exact ⟨Nat.le_trans (s.start_le_untilTop _) hended.start_le, fun _ _ _ => nofun⟩
  | @definition _ colon _ _ _ hended =>
      have hle := (s.drop (colon + 1)).start_le_untilTop endsDefinition
      have hs : s.start ≤ (s.drop (colon + 1)).start := Nat.le_add_right _ _
      refine ⟨Nat.le_trans (Nat.le_trans hs hle) hended.start_le, ?_⟩
      rintro _ _ _ ⟨⟩
      refine ⟨hs, ?_⟩
      cases hended with
      | semicolon => exact .inl (Nat.lt_succ_of_le hle)
      | brace hnested ht => exact .inr ⟨hle, hnested, _, ht⟩
  | plain _ _ _ hst =>
      refine ⟨Nat.le_trans (s.start_le_untilTop _) (start_le_afterEnd _), ?_⟩
      rintro _ _ _ rfl
      cases hst

/-- Where the value of a definition begins. -/
def starts : Statement → List Nat
  | definition _ value _ => [value.start]
  | importing _ | directive _ | call _ | property _ => []

end Statement

namespace Outline

/-- The places lie one behind the other from `first` up to, not including, `last`. -/
structure InOrder (first last : Nat) (places : List Nat) : Prop where
  sorted : places.Pairwise (· < ·)
  within : ∀ place ∈ places, first ≤ place ∧ place < last

namespace InOrder

variable {first middle last place : Nat} {places places' : List Nat}

theorem nil : InOrder first last [] := ⟨.nil, fun _ => List.not_mem_nil.elim⟩

theorem mono (h : InOrder middle last places) (hfirst : first ≤ middle) :
    InOrder first last places :=
  ⟨h.sorted, fun place hplace => (h.within place hplace).imp_left (Nat.le_trans hfirst)⟩

theorem cons (h : InOrder middle last places) (hfirst : first ≤ place) (hmiddle : place < middle)
    (hlast : place < last) : InOrder first last (place :: places) := by
  refine ⟨List.pairwise_cons.mpr ⟨fun other hother => ?_, h.sorted⟩, fun other hother => ?_⟩
  · exact Nat.lt_of_lt_of_le hmiddle (h.within other hother).1
  · rcases List.mem_cons.mp hother with rfl | hother
    · exact ⟨hfirst, hlast⟩
    · have := h.within other hother
      omega

theorem append (h : InOrder first middle places) (h' : InOrder middle last places')
    (hfirst : first ≤ middle) (hlast : middle ≤ last) :
    InOrder first last (places ++ places') := by
  refine ⟨List.pairwise_append.mpr ⟨h.sorted, h'.sorted, fun place hplace place' hplace' => ?_⟩,
    fun place hplace => ?_⟩
  · exact Nat.lt_of_lt_of_le (h.within place hplace).2 (h'.within place' hplace').1
  · rcases List.mem_append.mp hplace with hplace | hplace
    · have := h.within place hplace
      omega
    · have := h'.within place hplace
      omega

end InOrder

/-- Where the values of definitions and the preludes of blocks begin, in order. -/
def starts : Outline → List Nat
  | closed | broken _ _ => []
  | statement st rest => st.starts ++ starts rest
  | block prelude body rest => prelude.start :: (starts body ++ starts rest)

namespace Scans

variable {opened : Option Slice} {input rest : Slice} {outline : Outline}

/-- Where the next glyph is the `}` of the block, nothing is scanned any more. -/
theorem of_brace (h : Scans opened input outline rest) (hopened : opened.isSome = true) {t : Text}
    (ht : input.text = '}' :: t) : outline = closed ∧ rest = input.drop 1 := by
  have hgap : input.dropGap = input := by
    rw [Slice.dropGap, ht]
    rfl
  cases h with
  | ended | unmatched => cases hopened
  | close => exact ⟨rfl, by rw [hgap]⟩
  | unclosed hs | skip hs | broken hs hc | statement hs hc | block hs hc =>
      rw [hgap, ht] at hs
      cases hs
      try cases hc

/-- Where a prelude is cut off, the outline goes on with its block. -/
theorem of_opening (h : Scans opened input outline rest) {c : Char} {t : Text}
    (ht : input.dropGap.text = c :: t) (hc : Statement.endsDefinition c = false)
    {prelude after : Slice}
    (hcut : Statement.cut opened.isSome input.dropGap = .opening prelude after) :
    ∃ body inside outline', outline = .block prelude body outline' ∧
      Scans (some prelude) after body inside ∧ Scans opened inside outline' rest := by
  cases h with
  | ended hs | unclosed hs | skip hs | close hs | unmatched hs =>
      rw [ht] at hs
      cases hs <;> cases hc
  | broken _ _ hcut' | statement _ _ hcut' =>
      rw [hcut] at hcut'
      cases hcut'
  | block _ _ hcut' hbody hrest =>
      rw [hcut] at hcut'
      cases hcut'
      exact ⟨_, _, _, rfl, hbody, hrest⟩

/-- Where a statement is cut off, the outline goes on with it. -/
theorem of_statement (h : Scans opened input outline rest) {c : Char} {t : Text}
    (ht : input.dropGap.text = c :: t) (hc : Statement.endsDefinition c = false)
    {st : Statement} {after : Slice}
    (hcut : Statement.cut opened.isSome input.dropGap = .statement st after) :
    ∃ outline', outline = .statement st outline' ∧ Scans opened after outline' rest := by
  cases h with
  | ended hs | unclosed hs | skip hs | close hs | unmatched hs =>
      rw [ht] at hs
      cases hs <;> cases hc
  | broken _ _ hcut' | block _ _ hcut' =>
      rw [hcut] at hcut'
      cases hcut'
  | statement _ _ hcut' hrest =>
      rw [hcut] at hcut'
      cases hcut'
      exact ⟨_, rfl, hrest⟩

theorem start_le (h : Scans opened input outline rest) : input.start ≤ rest.start := by
  induction h with
  | ended | unclosed | unmatched | broken => exact Slice.start_le_dropGap _
  | @skip _ input _ _ _ _ _ ih =>
      have := input.start_le_dropGap
      simp only [Slice.drop] at ih
      omega
  | @close _ input =>
      have := input.start_le_dropGap
      simp only [Slice.drop]
      omega
  | @statement _ input _ _ _ _ _ _ _ _ hcut _ ih =>
      have := input.start_le_dropGap
      have := (Statement.start_of_cut_statement hcut).1
      omega
  | @block _ input _ _ _ _ _ _ _ _ _ _ hcut _ _ ihbody ih =>
      have := input.start_le_dropGap
      have := (Statement.start_of_cut_opening hcut).2
      omega

/-- The definitions and blocks of an outline begin one after the other, so no two
of them begin at the same glyph. -/
theorem starts_inOrder (h : Scans opened input outline rest) :
    InOrder input.start rest.start outline.starts := by
  induction h with
  | ended | unclosed | unmatched | broken | close => exact .nil
  | @skip _ input _ _ _ _ _ ih =>
      exact ih.mono (Nat.le_trans input.start_le_dropGap (Nat.le_add_right _ _))
  | @statement opened input after rest _ _ st outline hs hc hcut hscans ih =>
      have hgap := input.start_le_dropGap
      obtain ⟨hafter, hvalue⟩ := Statement.start_of_cut_statement hcut
      have hrest := hscans.start_le
      cases st with
      | importing | directive | call | property => exact ih.mono (Nat.le_trans hgap hafter)
      | definition name value whole =>
          obtain ⟨hle, hlt | ⟨hle', hnested, t, ht⟩⟩ := hvalue _ _ _ rfl
          · exact ih.cons (Nat.le_trans hgap hle) hlt (Nat.lt_of_lt_of_le hlt hrest)
          · -- The block ends with this definition, so nothing can begin where it does.
            obtain ⟨rfl, rfl⟩ := hscans.of_brace hnested ht
            have hlt := Nat.lt_succ_of_le hle'
            exact InOrder.nil.cons (Nat.le_trans hgap hle) hlt hlt
  | @block opened input prelude after inside rest _ _ body outline hs hc hcut hbody hscans ihbody
      ih =>
      have hgap := input.start_le_dropGap
      obtain ⟨hprelude, hafter⟩ := Statement.start_of_cut_opening hcut
      have hinside := hbody.start_le
      have hrest := hscans.start_le
      refine (ihbody.append ih hinside hrest).cons ?_ ?_ ?_ <;> omega

end Scans

theorem starts_ofText_nodup (t : Text) : (ofText t).starts.Nodup :=
  (scan_scans none (.ofText t)).starts_inOrder.sorted.imp Nat.ne_of_lt

end Outline

end Cascade
