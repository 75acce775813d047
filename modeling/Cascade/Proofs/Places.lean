import Cascade.Proofs.Bytes
import Mathlib.Algebra.GroupWithZero.Nat

/-!
# Where glyphs and spans stand

Glyphs stand in the text in the order they are numbered in, each at a character that it
shows, so a span always comes to a part of the text: what it names in bytes, reckoned
from its first and its last glyph, begins and ends between characters
(`Source.between?_bytes`).

Spans are told apart by the numbers of their glyphs. Where they stand in the text would
do as well, whatever comments and line ends lie between: two spans that fit into their
sources are the same if they are the same in bytes, counted through all sources
(`Sources.eq_of_bytes_eq`).
-/

namespace Cascade

open String (utf8Len)

namespace Glyph

/-! ## Glyphs -/

/-- What a character of the text is shown as. Only line ends are shown as another. -/
def Shows (c g : Char) : Prop := c = g ∨ g = '\n' ∧ (c = '\r' ∨ c = '\x0c')

theorem Shows.utf8Size_eq {c g : Char} (h : Shows c g) : c.utf8Size = g.utf8Size := by
  rcases h with rfl | ⟨rfl, rfl | rfl⟩ <;> rfl

/-- The glyphs stand in the text, which begins at the given place, one after the other. -/
structure Placed (place : Nat) (t : Text) (glyphs : List Glyph) : Prop where
  sorted : glyphs.Pairwise (·.place < ·.place)
  stands : ∀ g ∈ glyphs, ∃ before c after, t = before ++ c :: after ∧
    g.place = place + before.length ∧ Shows c g.char

namespace Placed

variable {place : Nat} {t : Text} {glyphs : List Glyph}

theorem nil : Placed place t [] := ⟨.nil, fun _ => List.not_mem_nil.elim⟩

theorem skip (h : Placed (place + 1) t glyphs) (c : Char) : Placed place (c :: t) glyphs := by
  refine ⟨h.sorted, fun g hg => ?_⟩
  obtain ⟨before, d, after, rfl, hplace, hshows⟩ := h.stands g hg
  exact ⟨c :: before, d, after, rfl, by rw [hplace, List.length_cons]; omega, hshows⟩

theorem cons (h : Placed (place + 1) t glyphs) {c g : Char} (hshows : Shows c g) :
    Placed place (c :: t) (⟨g, place⟩ :: glyphs) := by
  refine ⟨List.pairwise_cons.mpr ⟨fun g hg => ?_, h.sorted⟩, fun g hg => ?_⟩
  · obtain ⟨before, d, after, rfl, hplace, -⟩ := h.stands g hg
    rw [hplace]
    exact Nat.lt_of_lt_of_le (Nat.lt_succ_self _) (Nat.le_add_right _ _)
  · rcases List.mem_cons.mp hg with rfl | hg
    · exact ⟨[], c, t, rfl, rfl, hshows⟩
    · exact (h.skip c).stands g hg

end Placed

theorem scan_placed (p : Passage) (s : Nesting) (place : Nat) (t : Text) :
    Placed place t (scan p s place t) := by
  fun_induction scan p s place t with
  | case1 | case4 => exact .nil
  | case2 _ _ _ _ _ _ ih | case3 _ _ _ _ _ _ ih | case5 _ _ _ _ _ _ ih | case6 _ _ _ _ _ _ ih
  | case9 _ _ _ _ _ ih => exact ih.skip _
  | case8 _ _ _ _ ih => exact (ih.skip _).skip _
  | case7 _ _ _ _ _ ih | case10 _ _ _ _ _ ih | case14 _ _ _ _ _ _ _ _ _ _ ih =>
      exact ih.cons (.inl rfl)
  | case11 _ _ _ _ ih => exact (ih.skip _).cons (.inr ⟨rfl, .inl rfl⟩)
  | case12 _ _ _ _ _ ih => exact ih.cons (.inr ⟨rfl, .inl rfl⟩)
  | case13 _ _ _ _ ih => exact ih.cons (.inr ⟨rfl, .inr rfl⟩)

theorem ofText_placed (t : Text) : Placed 0 t (ofText t) := scan_placed _ _ _ _

theorem length_visible (t : Text) : (visible t).length = (ofText t).length := List.length_map ..

/-- The number of bytes before a glyph. -/
def offset (t : Text) (g : Glyph) : Nat := utf8Len (t.take g.place)

variable {t : Text} {g : Glyph}

theorem place_lt (h : g ∈ ofText t) : g.place < t.length := by
  obtain ⟨before, c, after, rfl, hplace, -⟩ := (ofText_placed t).stands g h
  rw [hplace]
  simp

theorem place_lt_place {i j : Nat} {g' : Glyph} (hlt : i < j) (h : (ofText t)[i]? = some g)
    (h' : (ofText t)[j]? = some g') : g.place < g'.place := by
  obtain ⟨hi, rfl⟩ := List.getElem?_eq_some_iff.mp h
  obtain ⟨hj, rfl⟩ := List.getElem?_eq_some_iff.mp h'
  exact List.pairwise_iff_getElem.mp (ofText_placed t).sorted i j hi hj hlt

/-- A glyph takes as many bytes as the character it shows. -/
theorem offset_add_utf8Size (h : g ∈ ofText t) :
    g.offset t + g.char.utf8Size = utf8Len (t.take (g.place + 1)) := by
  obtain ⟨before, c, after, rfl, hplace, hshows⟩ := (ofText_placed t).stands g h
  rw [Nat.zero_add] at hplace
  rw [offset, hplace, List.take_left, ← hshows.utf8Size_eq, List.take_append, List.take_of_length_le
    (Nat.le_succ _), Nat.add_sub_cancel_left]
  simp [Nat.add_comm]

end Glyph

namespace Source

/-! ## Spans in bytes -/

/-- The glyph with the given number, or else the last one. -/
def glyph? (s : Source) (i : Nat) : Option Glyph :=
  (Glyph.ofText s.text)[min i ((Glyph.ofText s.text).length - 1)]?

/-- Where a span lies in the bytes of the text: from its first glyph to the end of its
last. -/
def bytes (s : Source) (span : Span) : Nat × Nat :=
  match s.glyph? span.start, s.glyph? (span.stop - 1) with
  | some first, some last => (first.offset s.text, last.offset s.text + last.char.utf8Size)
  | _, _ => (0, 0)

variable {s : Source} {span : Span}

theorem extent_eq (s : Source) (span : Span) : s.extent span =
    match s.glyph? span.start, s.glyph? (span.stop - 1) with
    | some first, some last => (first.place, last.place + 1)
    | _, _ => (0, 0) := by
  unfold extent glyph?
  simp only [List.getElem?_toArray, List.size_toArray]
  cases (Glyph.ofText s.text)[min span.start ((Glyph.ofText s.text).length - 1)]? <;>
    cases (Glyph.ofText s.text)[min (span.stop - 1) ((Glyph.ofText s.text).length - 1)]? <;> rfl

theorem glyph?_mem {i : Nat} {g : Glyph} (h : s.glyph? i = some g) : g ∈ Glyph.ofText s.text :=
  List.mem_of_getElem? h

theorem glyph?_of_lt {i : Nat} (h : i < (Glyph.ofText s.text).length) :
    s.glyph? i = some (Glyph.ofText s.text)[i] := by
  rw [glyph?, Nat.min_eq_left (by omega), List.getElem?_eq_getElem h]

theorem place_le_of_glyph? {i j : Nat} {g g' : Glyph} (hle : i ≤ j) (h : s.glyph? i = some g)
    (h' : s.glyph? j = some g') : g.place ≤ g'.place := by
  rcases Nat.lt_or_eq_of_le (min_le_min_right ((Glyph.ofText s.text).length - 1) hle) with hlt | heq
  · exact Nat.le_of_lt (Glyph.place_lt_place hlt h h')
  · rw [glyph?, heq] at h
    rw [Option.some.inj (h.symm.trans h')]

/-- A span is nowhere only in a text without glyphs. Elsewhere it is not empty. -/
theorem extent_spec (h : span.start < span.stop) : s.extent span = (0, 0) ∨
    (s.extent span).1 < (s.extent span).2 ∧ (s.extent span).2 ≤ s.text.length := by
  rw [extent_eq]
  cases hfirst : s.glyph? span.start with
  | none => exact .inl rfl
  | some first =>
      cases hlast : s.glyph? (span.stop - 1) with
      | none => exact .inl rfl
      | some last =>
          have := place_le_of_glyph? (Nat.le_sub_one_of_lt h) hfirst hlast
          exact .inr ⟨Nat.lt_succ_of_le this, Glyph.place_lt (glyph?_mem hlast)⟩

theorem bytes_eq (s : Source) (span : Span) : s.bytes span =
    (utf8Len (s.text.take (s.extent span).1), utf8Len (s.text.take (s.extent span).2)) := by
  rw [extent_eq, bytes]
  cases hfirst : s.glyph? span.start with
  | none => rfl
  | some first =>
      cases hlast : s.glyph? (span.stop - 1) with
      | none => rfl
      | some last => exact Prod.ext rfl (Glyph.offset_add_utf8Size (glyph?_mem hlast))

theorem bytes_fst_le (s : Source) (span : Span) : (s.bytes span).1 ≤ utf8Len s.text := by
  rw [bytes_eq]
  exact String.utf8Len_le_of_sublist (List.take_sublist ..)

/-- What a span is in bytes are offsets in order, in the text and between characters. -/
theorem between?_bytes (h : span.start < span.stop) :
    Text.between? (s.bytes span).1 (s.bytes span).2 s.text =
      some ((s.text.take (s.extent span).2).drop (s.extent span).1) := by
  rw [bytes_eq]
  refine Text.between?_take_take ?_ s.text
  rcases extent_spec h with hnone | hsome
  · rw [hnone]
  · exact Nat.le_of_lt hsome.1

/-! ## Spans that fit -/

/-- The span is of glyphs that the text has. -/
structure Fits (s : Source) (span : Span) : Prop where
  nonempty : span.start < span.stop
  within : span.stop ≤ (Glyph.ofText s.text).length

namespace Fits

variable {span' : Span}

theorem extent_eq (h : s.Fits span) : ∃ first last,
    (Glyph.ofText s.text)[span.start]? = some first ∧
    (Glyph.ofText s.text)[span.stop - 1]? = some last ∧
    s.extent span = (first.place, last.place + 1) := by
  have hstart : span.start < (Glyph.ofText s.text).length :=
    Nat.lt_of_lt_of_le h.nonempty h.within
  have hstop : span.stop - 1 < (Glyph.ofText s.text).length :=
    Nat.lt_of_lt_of_le (Nat.sub_one_lt (Nat.ne_of_gt (Nat.zero_lt_of_lt h.nonempty))) h.within
  refine ⟨_, _, List.getElem?_eq_getElem hstart, List.getElem?_eq_getElem hstop, ?_⟩
  rw [Source.extent_eq, glyph?_of_lt hstart, glyph?_of_lt hstop]

theorem extent_le (h : s.Fits span) :
    (s.extent span).1 < (s.extent span).2 ∧ (s.extent span).2 ≤ s.text.length := by
  obtain ⟨first, last, -, -, hextent⟩ := h.extent_eq
  rcases extent_spec h.nonempty with hnone | hsome
  · rw [hextent] at hnone
    cases (Prod.ext_iff.mp hnone).2
  · exact hsome

/-- Spans that fit are told apart by where they stand. -/
theorem eq_of_bytes_eq (h : s.Fits span) (h' : s.Fits span') (heq : s.bytes span = s.bytes span') :
    span.start = span'.start ∧ span.stop = span'.stop := by
  have place_eq {m n : Nat} (hm : m ≤ s.text.length) (hn : n ≤ s.text.length)
      (hlen : utf8Len (s.text.take m) = utf8Len (s.text.take n)) : m = n := by
    rcases Nat.lt_trichotomy m n with hlt | heq | hlt
    · exact absurd hlen (Nat.ne_of_lt (Text.utf8Len_take_lt hlt hn))
    · exact heq
    · exact absurd hlen (Nat.ne_of_gt (Text.utf8Len_take_lt hlt hm))
  have number_eq {i j : Nat} {g g' : Glyph} (hi : (Glyph.ofText s.text)[i]? = some g)
      (hj : (Glyph.ofText s.text)[j]? = some g') (hplace : g.place = g'.place) : i = j := by
    rcases Nat.lt_trichotomy i j with hlt | heq | hlt
    · exact absurd hplace (Nat.ne_of_lt (Glyph.place_lt_place hlt hi hj))
    · exact heq
    · exact absurd hplace (Nat.ne_of_gt (Glyph.place_lt_place hlt hj hi))
  rw [bytes_eq, bytes_eq] at heq
  obtain ⟨hfirst, hlast⟩ := Prod.ext_iff.mp heq
  have := h.extent_le
  have := h'.extent_le
  have hfirst := place_eq (by omega) (by omega) hfirst
  have hlast := place_eq (by omega) (by omega) hlast
  obtain ⟨first, last, hstart, hstop, hextent⟩ := h.extent_eq
  obtain ⟨first', last', hstart', hstop', hextent'⟩ := h'.extent_eq
  rw [hextent, hextent'] at hfirst hlast
  have := number_eq hstart hstart' hfirst
  have := number_eq hstop hstop' (Nat.succ.inj hlast)
  have := h.nonempty
  have := h'.nonempty
  omega

end Fits

end Source

namespace Sources

/-- The span is of glyphs that its source has. -/
def Fits (sources : Sources) (span : Span) : Prop :=
  ∃ source, sources[span.source]? = some source ∧ source.Fits span

/-- The offset at which a source begins if the sources stand one behind the other, with
one byte before each. -/
def base (sources : Sources) (n : Nat) : Nat :=
  ((sources.toList.take n).map fun source => utf8Len source.text + 1).sum + 1

/-- Where a span lies in the bytes of all sources. -/
def bytes (sources : Sources) (span : Span) : Nat × Nat :=
  match sources[span.source]? with
  | some source =>
    (sources.base span.source + (source.bytes span).1,
      sources.base span.source + (source.bytes span).2)
  | none => (0, 0)

variable {sources : Sources} {span span' : Span}

theorem base_add_lt {n m : Nat} {source : Source} (h : sources[n]? = some source) (hlt : n < m) :
    sources.base n + utf8Len source.text < sources.base m := by
  have hstep : sources.toList.take (n + 1) = sources.toList.take n ++ [source] := by
    rw [List.take_add_one, Array.getElem?_toList, h]
    rfl
  unfold base
  rw [← Text.take_append_drop_take (l := sources.toList) hlt, hstep]
  simp only [List.map_append, List.sum_append, List.map_singleton, List.sum_singleton]
  omega

/-- Spans that fit are told apart by where they stand in all sources. -/
theorem eq_of_bytes_eq (h : sources.Fits span) (h' : sources.Fits span')
    (heq : sources.bytes span = sources.bytes span') : span = span' := by
  obtain ⟨source, hsource, hfits⟩ := h
  obtain ⟨source', hsource', hfits'⟩ := h'
  rw [bytes, bytes, hsource, hsource'] at heq
  obtain ⟨hfirst, hlast⟩ := Prod.ext_iff.mp heq
  have before {n m : Nat} {s s' : Source} (x x' : Span) (hs : sources[n]? = some s) (hlt : n < m) :
      sources.base n + (s.bytes x).1 < sources.base m + (s'.bytes x').1 := by
    have := base_add_lt hs hlt
    have := s.bytes_fst_le x
    omega
  rcases Nat.lt_trichotomy span.source span'.source with hlt | hsame | hlt
  · exact absurd hfirst (Nat.ne_of_lt (before span span' hsource hlt))
  · rw [hsame] at hsource hfirst hlast
    obtain rfl := Option.some.inj (hsource.symm.trans hsource')
    simp only at hfirst hlast
    obtain ⟨hstart, hstop⟩ := hfits.eq_of_bytes_eq hfits' (by ext <;> omega)
    cases span
    cases span'
    simp_all
  · exact absurd hfirst (Nat.ne_of_gt (before span' span hsource' hlt))

end Sources

end Cascade
