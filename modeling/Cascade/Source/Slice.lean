import Cascade.Source

/-!
# Slices

A slice is a run of consecutive glyphs of one source: their characters and the
number of the first. Cutting a slice gives slices, so whatever is read from a
source knows where it stands without counting along.
-/

namespace Cascade

structure Slice where
  start : Nat
  text : Text
deriving DecidableEq, Repr

namespace Slice

/-- All glyphs of a source. -/
def ofText (t : Text) : Slice := ⟨0, Glyph.visible t⟩

def length (s : Slice) : Nat := s.text.length

def drop (n : Nat) (s : Slice) : Slice := ⟨s.start + n, s.text.drop n⟩

def take (n : Nat) (s : Slice) : Slice := ⟨s.start, s.text.take n⟩

/-- The first `n` glyphs and the rest. -/
def splitAt (n : Nat) (s : Slice) : Slice × Slice := (s.take n, s.drop n)

/-- Skips the white space between statements. -/
def dropGap (s : Slice) : Slice := s.drop (s.text.takeWhile isGap).length

/-- The part before the first stop outside strings and parentheses, and the
rest, which begins with that stop unless there is none. -/
def untilTop (stop : Char → Bool) (s : Slice) : Slice × Slice :=
  s.splitAt (Text.untilTop stop .top s.text).1.length

/-- The part before the first occurrence of a character, and the part after it. -/
def cutAt? (c : Char) (s : Slice) : Option (Slice × Slice) :=
  let n := (s.text.takeWhile (· ≠ c)).length
  if n < s.length then some (s.take n, s.drop (n + 1)) else none

@[simp] theorem length_drop (n : Nat) (s : Slice) : (s.drop n).length = s.length - n := by
  simp [drop, length]

theorem length_drop_one_lt {s : Slice} {c : Char} {t : Text} (hs : s.text = c :: t) :
    (s.drop 1).length < s.length := by
  have : 0 < s.length := by simp [length, hs]
  rw [length_drop]; omega

theorem length_untilTop (stop : Char → Bool) (s : Slice) :
    (s.untilTop stop).2.length ≤ s.length := by
  simp [untilTop, splitAt]

/-- A slice whose first glyph is no stop loses that glyph at least. -/
theorem length_untilTop_lt {stop : Char → Bool} {s : Slice} {c : Char} {t : Text}
    (hs : s.text = c :: t) (hc : stop c = false) : (s.untilTop stop).2.length < s.length := by
  have : 0 < (Text.untilTop stop .top s.text).1.length := by
    simp [hs, Text.untilTop, hc]
  have : 0 < s.length := by simp [length, hs]
  simp only [untilTop, splitAt, length_drop]
  omega

/-- The rest begins with the first glyph of a slice that is a stop itself. -/
theorem untilTop_eq_self {stop : Char → Bool} {s : Slice} {c : Char} {t : Text}
    (hs : s.text = c :: t) (hc : stop c = true) : (s.untilTop stop).2 = s := by
  have : (Text.untilTop stop .top s.text).1.length = 0 := by
    simp [hs, Text.untilTop, hc, Nesting.isTop]
  simp [untilTop, splitAt, this, drop]

theorem length_dropGap (s : Slice) : s.dropGap.length ≤ s.length := by
  simp [dropGap]

/-- Cuts a slice at every separator outside strings and parentheses. -/
def splitTop (separator : Char) (s : Slice) : List Slice :=
  if (s.untilTop (· == separator)).2.length = 0 then [s]
  else
    (s.untilTop (· == separator)).1 ::
      splitTop separator ((s.untilTop (· == separator)).2.drop 1)
termination_by s.length
decreasing_by
  have := length_untilTop (· == separator) s
  simp only [length_drop]
  omega

/-- The span of a slice. An empty slice has the span of the glyph it stands
before. -/
def span (source : Nat) (s : Slice) : Span :=
  ⟨source, s.start, s.start + max 1 s.length⟩

def trimmed (s : Slice) : Text := s.text.trim

def collapsed (s : Slice) : Text := s.text.collapse

end Slice

end Cascade
