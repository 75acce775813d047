import Cascade.Proofs.Braces
import Cascade.Sheet.Statement

/-!
# Slices stand in their source

Whatever the reader cuts is a part of what it cut it from: `Slice.Within` says so, with
what stands before and behind it, so no slice begins or ends out of bounds. A slice is
empty where nothing is written, and then it needs something behind it to be pointed at;
`Slice.Stands` is a slice that has a glyph at its beginning, its own or the next.

The slices of an outline stand in the source (`Outline.stands_ofText`). Only a property
that ends with the source has nothing behind it; the block it is in is not closed then,
so the outline breaks (`Outline.Scans.followed`).
-/

namespace Cascade

namespace Slice

/-- The slice is a part of the other. -/
def Within (s whole : Slice) : Prop :=
  ∃ before after, whole.text = before ++ s.text ++ after ∧ s.start = whole.start + before.length

/-- The slice is a part of the other, with a glyph of the other at its beginning. -/
structure Stands (s whole : Slice) : Prop where
  within : s.Within whole
  start_lt : s.start < whole.start + whole.length

/-- The slice is a part of the other, with more of the other behind it. -/
structure Followed (s whole : Slice) : Prop where
  within : s.Within whole
  stop_lt : s.start + s.length < whole.start + whole.length

variable {s t whole : Slice}

namespace Within

theorem refl (s : Slice) : s.Within s := ⟨[], [], by simp, rfl⟩

theorem trans (h : s.Within t) (h' : t.Within whole) : s.Within whole := by
  obtain ⟨before, after, htext, hstart⟩ := h
  obtain ⟨before', after', htext', hstart'⟩ := h'
  refine ⟨before' ++ before, after ++ after', by simp [htext, htext'], ?_⟩
  rw [hstart, hstart', List.length_append, Nat.add_assoc]

theorem bounds (h : s.Within whole) :
    whole.start ≤ s.start ∧ s.start + s.length ≤ whole.start + whole.length := by
  obtain ⟨before, after, htext, hstart⟩ := h
  simp only [length, htext, hstart, List.length_append]
  omega

theorem stands (h : s.Within whole) (hne : s.text ≠ []) : s.Stands whole := by
  have := h.bounds
  have : 0 < s.length := List.length_pos_iff.mpr hne
  exact ⟨h, by omega⟩

theorem stands_of_followed (h : s.Within t) (h' : t.Followed whole) : s.Stands whole := by
  have := h.bounds
  have := h'.stop_lt
  exact ⟨h.trans h'.within, by omega⟩

end Within

theorem Stands.trans (h : s.Stands t) (h' : t.Within whole) : s.Stands whole := by
  have := h'.bounds
  have := h.start_lt
  exact ⟨h.within.trans h', by omega⟩

theorem Followed.trans (h : s.Followed t) (h' : t.Within whole) : s.Followed whole := by
  have := h'.bounds
  have := h.stop_lt
  exact ⟨h.within.trans h', by omega⟩

theorem Followed.stands (h : s.Followed whole) : s.Stands whole :=
  (Within.refl s).stands_of_followed h

theorem span_start_lt (s : Slice) (source : Nat) : (s.span source).start < (s.span source).stop :=
  Nat.lt_add_of_pos_right (Nat.lt_of_lt_of_le Nat.zero_lt_one (Nat.le_max_left ..))

/-! ## Cutting -/

theorem within_take (n : Nat) (s : Slice) : (s.take n).Within s :=
  ⟨[], s.text.drop n, (List.take_append_drop n s.text).symm, rfl⟩

theorem within_drop {n : Nat} (h : n ≤ s.length) : (s.drop n).Within s := by
  refine ⟨s.text.take n, [], ?_, ?_⟩
  · rw [List.append_nil]
    exact (List.take_append_drop n s.text).symm
  · rw [List.length_take_of_le h]
    rfl

theorem within_dropGap (s : Slice) : s.dropGap.Within s :=
  within_drop (List.takeWhile_prefix isGap).length_le

theorem within_drop_one {c : Char} {u : Text} (h : s.text = c :: u) : (s.drop 1).Within s :=
  within_drop (by simp [length, h])

/-- Behind the first glyph after a gap. -/
theorem within_behind {c : Char} {u : Text} (h : s.dropGap.text = c :: u) :
    (s.dropGap.drop 1).Within s := (within_drop_one h).trans (within_dropGap s)

theorem within_untilTop (stop : Char → Bool) (s : Slice) :
    (s.untilTop stop).1.Within s ∧ (s.untilTop stop).2.Within s := by
  have := Text.length_untilTop stop .top s.text
  exact ⟨within_take _ s, within_drop (by rw [length]; omega)⟩

theorem start_untilTop_snd (stop : Char → Bool) (s : Slice) :
    (s.untilTop stop).2.start = (s.untilTop stop).1.start + (s.untilTop stop).1.length := by
  show s.start + (Text.untilTop stop .top s.text).1.length = s.start + _
  rw [length, untilTop_fst_text]

/-- What a stop ends is followed by it. -/
theorem followed_untilTop {stop : Char → Bool} (h : (s.untilTop stop).2.text ≠ []) :
    (s.untilTop stop).1.Followed s := by
  obtain ⟨hfirst, hrest⟩ := within_untilTop stop s
  refine ⟨hfirst, ?_⟩
  rw [← start_untilTop_snd]
  exact (hrest.stands h).start_lt

/-- What does not begin with a stop is not cut off empty. -/
theorem untilTop_fst_ne_nil {stop : Char → Bool} {c : Char} {u : Text} (hs : s.text = c :: u)
    (hc : stop c = false) : (s.untilTop stop).1.text ≠ [] := by
  rw [untilTop_fst_text, hs, Text.untilTop, hc, Bool.and_false]
  exact List.cons_ne_nil _ _

theorem within_cutAt? {c : Char} {before after : Slice} (h : s.cutAt? c = some (before, after)) :
    before.Within s ∧ after.Within s := by
  unfold cutAt? at h
  simp only at h
  split at h
  · rename_i hlt
    cases h
    exact ⟨within_take _ s, within_drop hlt⟩
  · cases h

theorem within_splitTop {separator : Char} {s piece : Slice} (h : piece ∈ s.splitTop separator) :
    piece.Within s := by
  rw [splitTop] at h
  obtain ⟨hfirst, hrest⟩ := within_untilTop (· == separator) s
  split at h
  · obtain rfl := List.mem_singleton.mp h
    exact .refl _
  · rename_i hne
    rcases List.mem_cons.mp h with rfl | h
    · exact hfirst
    · have hdrop := within_drop (Nat.one_le_iff_ne_zero.mpr hne)
      have hlt : (s.untilTop (· == separator)).2.length - 1 < s.length := by
        have := length_untilTop (· == separator) s
        omega
      exact ((within_splitTop h).trans hdrop).trans hrest
termination_by s.length

/-- The cuts that are made in a slice while a style sheet is read. -/
structure Cuts (s : Slice) : Prop where
  gap : s.dropGap.Within s
  /-- Up to a stop, and from the stop. -/
  top : ∀ stop, (s.untilTop stop).1.Within s ∧ (s.untilTop stop).2.Within s
  /-- Before and behind a character. -/
  mark : ∀ c before after, s.cutAt? c = some (before, after) → before.Within s ∧ after.Within s
  /-- The pieces at a separator. -/
  pieces : ∀ separator, ∀ piece ∈ s.splitTop separator, piece.Within s

theorem cuts (s : Slice) : s.Cuts where
  gap := within_dropGap s
  top stop := within_untilTop stop s
  mark _ _ _ := within_cutAt?
  pieces _ _ := within_splitTop

end Slice

/-! ## Statements -/

namespace Statement

/-- The slices of a statement stand in the source. -/
def Stands (whole : Slice) : Statement → Prop
  | importing s | directive s | call s | property s => s.Stands whole
  | definition _ value s => value.Stands whole ∧ s.Stands whole

variable {nested : Bool} {s rest whole : Slice} {c : Char} {t : Text}

theorem Stands.trans {st : Statement} (h : st.Stands s) (h' : s.Within whole) :
    st.Stands whole := by
  cases st with
  | importing | directive | call | property => exact Slice.Stands.trans h h'
  | definition => exact ⟨h.1.trans h', h.2.trans h'⟩

theorem within_afterEnd (rest : Slice) : (afterEnd rest).Within rest := by
  unfold afterEnd
  split
  · rename_i h
    exact Slice.within_drop_one h
  · exact .refl _

/-- Where a definition or an import ends there is a glyph, which the rest begins with or
behind. -/
theorem Ended.within {after : Slice} (h : Ended nested after rest) :
    after.text ≠ [] ∧ rest.Within after := by
  cases h with
  | semicolon ht => exact ⟨by rw [ht]; nofun, Slice.within_drop_one ht⟩
  | brace _ ht => exact ⟨by rw [ht]; nofun, .refl _⟩

theorem colon_lt_of_beginsDefinition? {name : Text} {colon : Nat}
    (h : beginsDefinition? s.text = some (name, colon)) : colon + 1 ≤ s.length := by
  obtain ⟨gap, rest, htext, rfl, -⟩ := of_beginsDefinition? h
  simp only [Slice.length, htext, List.length_cons, List.length_append]
  omega

theorem stands_definition {colon : Nat} (hs : s.text = c :: t) :
    (s.take (((s.drop (colon + 1)).untilTop endsDefinition).2.start - s.start)).Stands s := by
  refine (Slice.within_take _ s).stands ?_
  have hle := (s.drop (colon + 1)).start_le_untilTop endsDefinition
  have hpos : ((s.drop (colon + 1)).untilTop endsDefinition).2.start - s.start ≠ 0 := by
    simp only [Slice.drop] at hle ⊢
    omega
  obtain ⟨n, hn⟩ := Nat.exists_eq_succ_of_ne_zero hpos
  rw [hn, Slice.take, hs]
  exact List.cons_ne_nil _ _

theorem cutPlain_of_brace {u : Text} (h : (s.untilTop ends).2.text = '{' :: u) :
    cutPlain nested s = .opening (s.untilTop ends).1 ((s.untilTop ends).2.drop 1) := by
  unfold cutPlain
  simp only [h]

/-- A property stands inside a block, up to its end. -/
theorem of_cut_property {w : Slice} (h : cut nested s = .statement (.property w) rest) :
    nested = true ∧ w = (s.untilTop ends).1 ∧ rest = afterEnd (s.untilTop ends).2 := by
  cases cutsTo_of_cut h with
  | plain _ _ _ hst =>
      cases hst with
      | property hnested => exact ⟨hnested, rfl, rfl⟩

/-- A statement that opens no block is not empty. -/
theorem untilEnd_ne_nil (hs : s.text = c :: t)
    (hc : endsDefinition c = false) (hbrace : ∀ u, (s.untilTop ends).2.text ≠ '{' :: u) :
    (s.untilTop ends).1.text ≠ [] := by
  cases hends : ends c with
  | false => exact Slice.untilTop_fst_ne_nil hs hends
  | true =>
      obtain rfl : c = '{' := by simpa [ends, hc] using hends
      exact (hbrace _ (Slice.untilTop_eq_self hs hends ▸ hs)).elim

theorem stands_of_cut_statement {st : Statement} (hs : s.text = c :: t)
    (hc : endsDefinition c = false) (h : cut nested s = .statement st rest) :
    st.Stands s ∧ rest.Within s := by
  cases cutsTo_of_cut h with
  | importing _ hended =>
      obtain ⟨hwhole, hafter⟩ := s.within_untilTop endsDefinition
      exact ⟨hwhole.stands (Slice.untilTop_fst_ne_nil hs hc), hended.within.2.trans hafter⟩
  | @definition _ colon _ _ hbegins hended =>
      have hdrop := Slice.within_drop (colon_lt_of_beginsDefinition? hbegins)
      obtain ⟨-, hafter⟩ := (s.drop (colon + 1)).within_untilTop endsDefinition
      obtain ⟨hne, hrest⟩ := hended.within
      exact ⟨⟨((Slice.followed_untilTop hne).trans hdrop).stands,
        stands_definition hs⟩, (hrest.trans hafter).trans hdrop⟩
  | plain _ _ hbrace hst =>
      refine ⟨?_, (within_afterEnd _).trans (s.within_untilTop ends).2⟩
      have hwhole := (s.within_untilTop ends).1.stands (untilEnd_ne_nil hs hc hbrace)
      cases hst <;> exact hwhole

theorem stands_of_cut_opening {prelude : Slice} (h : cut nested s = .opening prelude rest) :
    prelude.Stands s ∧ rest.Within s := by
  obtain ⟨-, -, rfl, rfl, t, ht⟩ := of_cut_opening h
  obtain ⟨-, hafter⟩ := s.within_untilTop ends
  exact ⟨(Slice.followed_untilTop (by rw [ht]; nofun)).stands,
    (Slice.within_drop_one ht).trans hafter⟩

theorem stands_of_cut_broken {cause : Cause} {blamed : Slice} (hs : s.text = c :: t)
    (hc : endsDefinition c = false) (h : cut nested s = .broken cause blamed) :
    blamed.Stands s := by
  cases cutsTo_of_cut h with
  | endlessImport =>
      exact (s.within_untilTop endsDefinition).1.stands (Slice.untilTop_fst_ne_nil hs hc)
  | endlessDefinition => exact stands_definition hs
  | blockless _ hbrace => exact (s.within_untilTop ends).1.stands (untilEnd_ne_nil hs hc hbrace)

end Statement

namespace Outline

/-- The slices of an outline stand in the source. -/
def Stands (whole : Slice) : Outline → Prop
  | closed => True
  | broken _ blamed => blamed.Stands whole
  | statement st rest => st.Stands whole ∧ rest.Stands whole
  | block prelude body rest => prelude.Stands whole ∧ body.Stands whole ∧ rest.Stands whole

/-- The properties of an outline are followed by more of the source, unless it breaks
behind them. -/
def Followed (whole : Slice) : Outline → Prop
  | closed | broken _ _ => True
  | statement (.property s) rest => (rest.Unbroken → s.Followed whole) ∧ rest.Followed whole
  | statement _ rest => rest.Followed whole
  | block _ body rest => body.Followed whole ∧ rest.Followed whole

namespace Scans

variable {opened : Option Slice} {input rest whole : Slice} {outline : Outline}

theorem stands (h : Scans opened input outline rest) (hinput : input.Within whole)
    (hopened : ∀ prelude ∈ opened, prelude.Stands whole) :
    outline.Stands whole ∧ rest.Within whole := by
  induction h with
  | ended => exact ⟨trivial, (Slice.within_dropGap _).trans hinput⟩
  | close ht => exact ⟨trivial, (Slice.within_behind ht).trans hinput⟩
  | unclosed => exact ⟨hopened _ rfl, (Slice.within_dropGap _).trans hinput⟩
  | unmatched ht =>
      have hgap := (Slice.within_dropGap _).trans hinput
      exact ⟨((Slice.within_take 1 _).stands (by rw [Slice.take, ht]; nofun)).trans hgap, hgap⟩
  | skip ht _ ih => exact ih ((Slice.within_behind ht).trans hinput) hopened
  | broken hs hc hcut =>
      have hgap := (Slice.within_dropGap _).trans hinput
      exact ⟨(Statement.stands_of_cut_broken hs hc hcut).trans hgap, hgap⟩
  | statement hs hc hcut _ ih =>
      have hgap := (Slice.within_dropGap _).trans hinput
      obtain ⟨hst, hafter⟩ := Statement.stands_of_cut_statement hs hc hcut
      obtain ⟨hrest, hwithin⟩ := ih (hafter.trans hgap) hopened
      exact ⟨⟨hst.trans hgap, hrest⟩, hwithin⟩
  | block hs hc hcut _ _ ihbody ih =>
      have hgap := (Slice.within_dropGap _).trans hinput
      obtain ⟨hprelude, hafter⟩ := Statement.stands_of_cut_opening hcut
      obtain ⟨hbody, hinside⟩ := ihbody (hafter.trans hgap) fun prelude hmem => by
        cases hmem
        exact hprelude.trans hgap
      obtain ⟨hrest, hwithin⟩ := ih hinside hopened
      exact ⟨⟨hprelude.trans hgap, hbody, hrest⟩, hwithin⟩

/-- A block that is still open at the end of the source is broken. -/
theorem not_unbroken_of_nil (h : Scans opened input outline rest) (hopened : opened.isSome = true)
    (hinput : input.text = []) : ¬outline.Unbroken := by
  have hgap : input.dropGap.text = [] := by
    rw [Slice.dropGap, hinput]
    exact hinput
  cases h with
  | ended => cases hopened
  | unclosed => exact id
  | skip hs | close hs | unmatched hs | broken hs | statement hs | block hs =>
      rw [hgap] at hs
      cases hs

/-- A property is followed by what ends it or its block, which breaks if nothing does. -/
theorem followed (h : Scans opened input outline rest) (hinput : input.Within whole) :
    outline.Followed whole := by
  induction h with
  | ended | close | unclosed | unmatched | broken => trivial
  | skip ht _ ih => exact ih ((Slice.within_behind ht).trans hinput)
  | @statement opened input after rest c t st outline hs hc hcut hscans ih =>
      have hgap := (Slice.within_dropGap _).trans hinput
      have hrest := ih ((Statement.stands_of_cut_statement hs hc hcut).2.trans hgap)
      cases st with
      | importing | definition | directive | call => exact hrest
      | property s =>
          obtain ⟨hnested, rfl, rfl⟩ := Statement.of_cut_property hcut
          refine ⟨fun hunbroken => (Slice.followed_untilTop fun hnil => ?_).trans hgap, hrest⟩
          refine hscans.not_unbroken_of_nil hnested ?_ hunbroken
          unfold Statement.afterEnd
          rw [hnil]
          exact hnil
  | block hs hc hcut hbody _ ihbody ih =>
      have hgap := (Slice.within_dropGap _).trans hinput
      have hafter := (Statement.stands_of_cut_opening hcut).2.trans hgap
      obtain ⟨hprelude, -⟩ := Statement.stands_of_cut_opening hcut
      obtain ⟨-, hinside⟩ := hbody.stands hafter fun prelude hmem => by
        cases hmem
        exact hprelude.trans hgap
      exact ⟨ihbody hafter, ih hinside⟩

end Scans

theorem stands_ofText (t : Text) : (ofText t).Stands (.ofText t) :=
  ((scan_scans none (.ofText t)).stands (.refl _) nofun).1

theorem followed_ofText (t : Text) : (ofText t).Followed (.ofText t) :=
  (scan_scans none (.ofText t)).followed (.refl _)

end Outline

/-! ## Values and arguments -/

/-- The raw value is what is written in a slice of the other, which its span is of. -/
def Raw.Quotes (source : Nat) (whole : Slice) (raw : Raw) : Prop :=
  ∃ s : Slice, s.Within whole ∧ raw = ⟨s.trimmed, s.span source⟩

theorem Property.quotes_of_read {source : Nat} {whole : Slice} {p : Property}
    (h : Property.read source whole = .ok p) : p.value.Quotes source whole := by
  obtain ⟨_, _, hcut, -, rfl⟩ := Property.parts_of_read h
  exact ⟨_, (Slice.within_cutAt? hcut).2, rfl⟩

namespace MixinCall

theorem quotes_of_readArguments {source : Nat} {inside : Slice} {a : Raw}
    (h : a ∈ readArguments source inside) : a.Quotes source inside := by
  unfold readArguments at h
  simp only at h
  split at h
  · cases h
  · obtain ⟨piece, hpiece, rfl⟩ := List.mem_map.mp h
    exact ⟨piece, Slice.within_splitTop hpiece, rfl⟩

/-- The arguments stand between parentheses, so there is something behind them. -/
theorem of_readArgumentList? {source : Nat} {s rest : Slice} {arguments : List Raw}
    (h : readArgumentList? source s = some (arguments, rest)) :
    rest.Within s ∧
      ∀ a ∈ arguments, ∃ inside : Slice, inside.Followed s ∧ a.Quotes source inside := by
  unfold readArgumentList? at h
  split at h
  · rename_i t ht
    simp only at h
    split at h
    · cases h
    · rename_i hne
      cases h
      have hdrop := Slice.within_drop_one ht
      obtain ⟨-, hrest⟩ := (s.drop 1).within_untilTop (· == ')')
      have hclose := Slice.within_drop (Nat.one_le_iff_ne_zero.mpr hne)
      refine ⟨(((Slice.within_dropGap _).trans hclose).trans hrest).trans hdrop, fun a ha => ?_⟩
      refine ⟨_, (Slice.followed_untilTop (List.ne_nil_of_length_pos ?_)).trans hdrop,
        quotes_of_readArguments ha⟩
      exact Nat.pos_of_ne_zero hne
  · cases h
    exact ⟨.refl _, fun _ => List.not_mem_nil.elim⟩

theorem of_read {source : Nat} {whole : Slice} {c : MixinCall}
    (h : MixinCall.read source whole = .ok c) : c.span = whole.span source ∧
      ∀ a ∈ c.arguments, ∃ inside : Slice, inside.Followed whole ∧ a.Quotes source inside := by
  obtain ⟨name, arguments, rest, hname, hne, hlist, -, rfl⟩ := parts_of_read h
  refine ⟨rfl, fun a ha => ?_⟩
  obtain ⟨-, hquotes⟩ := of_readArgumentList? hlist
  obtain ⟨inside, hinside, ha⟩ := hquotes a ha
  refine ⟨inside, hinside.trans ((Slice.within_dropGap _).trans (Slice.within_drop ?_)), ha⟩
  have hle := (List.takeWhile_prefix isNameChar (l := whole.text.drop 1)).length_le
  have hpos := List.length_pos_iff.mpr hne
  rw [← hname, List.length_drop] at hle
  rw [Slice.length]
  omega

end MixinCall

end Cascade
