import Cascade.Proofs.Separators
import Cascade.Proofs.Slices
import Cascade.Proofs.Words

/-!
# Two ways to split

Preludes and selectors are split as texts, the arguments of a call as a range of the tokens of
a source. A text is gone through once and cut at the separators (`Text.splitScan`). For a range
every piece begins a search of its own, which does not know where the range ends and is cut
back when it has gone past the end (`Text.splitRange`).

Both give the pieces of `Text.splitTop` and `Slice.splitTop`. With the separator between them
the pieces are the text again, and no piece is split any further (`Text.Splits`).
-/

namespace Cascade

namespace Text

variable {separator : Char} {s : Nesting} {t : Text}

/-! ## Pieces -/

/-- The pieces with the separator between them are the text. -/
theorem join_splitTop (separator : Char) (s : Nesting) (t : Text) :
    join [separator] (splitTop separator s t) = t := by
  induction t generalizing s with
  | nil => rfl
  | cons c t ih =>
      by_cases hcut : (s.isTop && c == separator) = true
      · obtain ⟨piece, pieces, hsplit⟩ := exists_splitTop separator s t
        obtain rfl : c = separator := beq_iff_eq.mp (Bool.and_eq_true_iff.mp hcut).2
        rw [splitTop_cons_cut hcut, hsplit, join_cons_cons, ← hsplit, ih]
        rfl
      · obtain ⟨piece, pieces, hsplit⟩ := exists_splitTop separator (s.step c) t
        rw [splitTop_cons (Bool.eq_false_iff.mpr hcut), hsplit, List.modifyHead_cons, ← cons_join,
          ← hsplit, ih]

/-- No piece has the separator at top level: the first is read from where the text begins, the
others from top level. -/
theorem forall_outer_splitTop {piece : Text} {pieces : List Text}
    (h : splitTop separator s t = piece :: pieces) :
    (∀ d ∈ outer s piece, d ≠ separator) ∧
      ∀ p ∈ pieces, ∀ d ∈ outer .top p, d ≠ separator := by
  induction t generalizing s piece pieces with
  | nil =>
      cases h
      exact ⟨fun _ => List.not_mem_nil.elim, fun _ => List.not_mem_nil.elim⟩
  | cons c t ih =>
      by_cases hcut : (s.isTop && c == separator) = true
      · obtain rfl : s = .top := by
          simpa [Nesting.isTop] using (Bool.and_eq_true_iff.mp hcut).1
        obtain ⟨first, others, hsplit⟩ := exists_splitTop separator .top t
        rw [splitTop_cons_cut hcut, hsplit] at h
        cases h
        exact ⟨fun _ => List.not_mem_nil.elim, List.forall_mem_cons.mpr (ih hsplit)⟩
      · obtain ⟨first, others, hsplit⟩ := exists_splitTop separator (s.step c) t
        rw [splitTop_cons (Bool.eq_false_iff.mpr hcut), hsplit] at h
        cases h
        obtain ⟨hfirst, hothers⟩ := ih hsplit
        refine ⟨forall_outer_cons.mpr ⟨fun htop => ?_, hfirst⟩, hothers⟩
        rintro rfl
        exact hcut (by simp [htop])

/-- A piece is not split again. -/
theorem splitTop_of_mem_splitTop {piece : Text} (h : piece ∈ splitTop separator .top t) :
    splitTop separator .top piece = [piece] := by
  obtain ⟨first, others, hsplit⟩ := exists_splitTop separator .top t
  obtain ⟨hfirst, hothers⟩ := forall_outer_splitTop hsplit
  rw [hsplit] at h
  rcases List.mem_cons.mp h with rfl | h
  · exact splitTop_eq_singleton hfirst
  · exact splitTop_eq_singleton (hothers piece h)

/-! ## One scan -/

/-- The pieces of a text that is gone through once. What begins or ends a string or a pair of
parentheses is not looked at as a separator. -/
def splitScan (separator : Char) : Nesting → Text → List Text
  | _, [] => [[]]
  | s, c :: rest =>
    if s.quoting = .outside ∧ IsInert c ∧ c = separator ∧ s.depth = 0 then
      [] :: splitScan separator s rest
    else (splitScan separator (s.step c) rest).modifyHead (c :: ·)

/-- A separator that is no mark of its own can as well be looked for first. -/
theorem splitScan_eq (hseparator : IsInert separator) (s : Nesting) (t : Text) :
    splitScan separator s t = splitTop separator s t := by
  induction t generalizing s with
  | nil => rfl
  | cons c t ih =>
      by_cases hcut : (s.isTop && c == separator) = true
      · obtain ⟨htop, hc⟩ := Bool.and_eq_true_iff.mp hcut
        obtain rfl : s = .top := by simpa [Nesting.isTop] using htop
        obtain rfl : c = separator := beq_iff_eq.mp hc
        rw [splitTop_cons_cut hcut, splitScan, if_pos ⟨rfl, hseparator, rfl, rfl⟩, ih]
      · rw [splitTop_cons (Bool.eq_false_iff.mpr hcut), splitScan, if_neg, ih]
        rintro ⟨hquoting, -, rfl, hdepth⟩
        obtain ⟨depth, quoting⟩ := s
        obtain rfl : quoting = .outside := hquoting
        obtain rfl : depth = 0 := hdepth
        exact hcut (by simp [Nesting.isTop, Nesting.top])

/-! ## Ranges -/

/-- The number of the first stop at or behind `start` that is at top level, or of the end. -/
def findTop (stop : Char → Bool) (tokens : Text) (start : Nat) : Nat :=
  start + (untilTop stop .top (tokens.drop start)).1.length

theorem le_findTop (stop : Char → Bool) (tokens : Text) (start : Nat) :
    start ≤ findTop stop tokens start := Nat.le_add_right ..

/-- The ranges between the separators from `start` to `stop`. The search for a separator goes
on behind `stop` and is cut back. -/
def splitRange (separator : Char) (tokens : Text) (start stop : Nat) : List (Nat × Nat) :=
  let next := min (findTop (· == separator) tokens start) stop
  (start, next) :: if next < stop then splitRange separator tokens (next + 1) stop else []
termination_by stop - start
decreasing_by
  have := le_findTop (· == separator) tokens start
  omega

/-- A search that is cut back ends where it ends in the text alone. -/
theorem min_length_untilTop (stop : Char → Bool) (s : Nesting) (t after : Text) :
    min (untilTop stop s (t ++ after)).1.length t.length = (untilTop stop s t).1.length := by
  induction t generalizing s with
  | nil => exact Nat.min_zero _
  | cons c t ih =>
      rw [List.cons_append, untilTop, untilTop]
      split
      · exact Nat.zero_min _
      · rw [List.length_cons, List.length_cons, List.length_cons, Nat.add_min_add_right, ih]

end Text

namespace Slice

variable {s : Slice} {tokens : Text}

/-- The slice from one number to another. -/
def between (tokens : Text) (range : Nat × Nat) : Slice :=
  ⟨range.1, (tokens.take range.2).drop range.1⟩

/-- A slice is what is between its ends. -/
theorem Within.between_eq (h : s.Within ⟨0, tokens⟩) :
    between tokens (s.start, s.start + s.length) = s := by
  obtain ⟨before, after, htext, hstart⟩ := h
  obtain ⟨start, t⟩ := s
  obtain rfl : start = before.length := hstart.trans (Nat.zero_add _)
  obtain rfl : tokens = before ++ t ++ after := htext
  rw [between, length, List.take_append_of_le_length (by simp), ← List.length_append,
    List.take_length, List.drop_left]

/-- In a slice a search that is cut back ends where it ends in the slice alone. -/
theorem Within.min_findTop (h : s.Within ⟨0, tokens⟩) (stop : Char → Bool) :
    min (Text.findTop stop tokens s.start) (s.start + s.length) =
      s.start + (s.untilTop stop).1.length := by
  obtain ⟨before, after, htext, hstart⟩ := h
  obtain ⟨start, t⟩ := s
  obtain rfl : start = before.length := hstart.trans (Nat.zero_add _)
  obtain rfl : tokens = before ++ t ++ after := htext
  rw [Text.findTop, List.append_assoc, List.drop_left, Nat.add_min_add_left, length, length,
    untilTop_fst_text, Text.min_length_untilTop]

theorem length_untilTop_add (stop : Char → Bool) (s : Slice) :
    (s.untilTop stop).1.length + (s.untilTop stop).2.length = s.length := by
  rw [length, length, length, untilTop_fst_text, untilTop_snd_text]
  exact Text.length_untilTop stop .top s.text

/-- The ranges between the separators of a slice are the pieces of the slice. -/
theorem Within.map_between_splitRange {s : Slice} (h : s.Within ⟨0, tokens⟩) (separator : Char) :
    (Text.splitRange separator tokens s.start (s.start + s.length)).map (between tokens) =
      s.splitTop separator := by
  obtain ⟨hfirst, hrest⟩ := within_untilTop (· == separator) s
  have hlength := length_untilTop_add (· == separator) s
  rw [Text.splitRange, h.min_findTop, splitTop, List.map_cons]
  by_cases hend : (s.untilTop (· == separator)).2.length = 0
  · rw [if_pos hend, if_neg (by omega), List.map_nil,
      show (s.untilTop (· == separator)).1.length = s.length by omega, h.between_eq]
  · -- The pieces behind the first are those of the slice that begins behind the separator.
    have hdrop := length_drop 1 (s.untilTop (· == separator)).2
    have hnext := within_drop (Nat.one_le_iff_ne_zero.mpr hend)
    have hstart : ((s.untilTop (· == separator)).2.drop 1).start =
        s.start + (s.untilTop (· == separator)).1.length + 1 :=
      congrArg (· + 1) (start_untilTop_snd (· == separator) s)
    have hpieces := Within.map_between_splitRange (hnext.trans (hrest.trans h)) separator
    rw [hstart, show s.start + (s.untilTop (· == separator)).1.length + 1 +
      ((s.untilTop (· == separator)).2.drop 1).length = s.start + s.length by omega] at hpieces
    rw [if_neg hend, if_pos (by omega), hpieces]
    exact congrArg (· :: _) (hfirst.trans h).between_eq
termination_by s.length

end Slice

/-! ## One way to split -/

/-- What is said of the pieces of a text, however they are found. -/
structure Text.Splits (separator : Char) (t : Text) : Prop where
  /-- The pieces with the separator between them are the text. -/
  joined : join [separator] (splitTop separator .top t) = t
  /-- No piece is split again. -/
  whole : ∀ piece ∈ splitTop separator .top t, splitTop separator .top piece = [piece]
  /-- They are found in one scan. -/
  scanned : splitScan separator .top t = splitTop separator .top t
  /-- They are found in a range of tokens that has the text, whatever is around it. -/
  ranged : ∀ before after : Text,
    (splitRange separator (before ++ t ++ after) before.length (before.length + t.length)).map
        (fun range => (Slice.between (before ++ t ++ after) range).text) =
      splitTop separator .top t
  /-- In a slice of a source they are found as slices, each with its place. -/
  sliced : ∀ (s : Slice) (source : Text), s.Within (.ofText source) → s.text = t →
    (splitRange separator (Glyph.visible source) s.start (s.start + s.length)).map
        (Slice.between (Glyph.visible source)) =
      s.splitTop separator

/-- A text is split in one way at a separator that is no mark of a string or a parenthesis. -/
theorem Text.splits {separator : Char} (hseparator : IsInert separator) (t : Text) :
    Splits separator t where
  joined := join_splitTop separator .top t
  whole _ := splitTop_of_mem_splitTop
  scanned := splitScan_eq hseparator .top t
  ranged before after := by
    have hwithin : Slice.Within ⟨before.length, t⟩ ⟨0, before ++ t ++ after⟩ :=
      ⟨before, after, rfl, (Nat.zero_add _).symm⟩
    have hpieces := congrArg (List.map Slice.text) (hwithin.map_between_splitRange separator)
    rwa [Slice.map_text_splitTop, List.map_map] at hpieces
  sliced _ _ hwithin _ := hwithin.map_between_splitRange separator

theorem Text.splits_comma :
    IsInert ',' ∧ Splits ',' "a, b(c, d), \"e, f\"" ∧
      splitTop ',' .top "a, b(c, d), \"e, f\"" = ["a", " b(c, d)", " \"e, f\""] :=
  ⟨by decide, splits (by decide) _, by decide⟩

end Cascade
