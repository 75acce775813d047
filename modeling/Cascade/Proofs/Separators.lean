import Cascade.Proofs.Braces
import Cascade.Proofs.Strings

/-!
# Cutting at separators

What a cut at a separator, or at the end of a statement, depends on is the characters
outside strings and parentheses (`Text.outer`). A text that has none of the separators
among them and leads back to top level is one piece, whatever comes behind it.

A text in which strings are closed and parentheses are balanced (`Text.IsEnclosed`) leads
back to where it began, at any depth. So texts of this kind can be put one behind the other
with separators between them, and are cut apart again (`Text.Lists.splitTop`).
-/

namespace Cascade

/-! ## Outside strings and parentheses -/

namespace Text

/-- The characters of a text outside strings and parentheses, in order. -/
def outer : Nesting → Text → Text
  | _, [] => []
  | s, c :: rest => if s.isTop then c :: outer (s.step c) rest else outer (s.step c) rest

variable {s : Nesting} {t : Text} {c : Char}

theorem outer_append (s : Nesting) (t u : Text) :
    outer s (t ++ u) = outer s t ++ outer (s.run t) u := by
  induction t generalizing s with
  | nil => rfl
  | cons c rest ih =>
      rw [List.cons_append, outer, outer, ih, Nesting.run_cons]
      split <;> rfl

theorem outer_subset : ∀ {s : Nesting} {t : Text}, outer s t ⊆ t
  | _, [] => List.Subset.refl _
  | s, c :: rest => by
      rw [outer]
      split
      · exact List.cons_subset_cons c outer_subset
      · exact List.Subset.trans outer_subset (List.subset_cons_self c rest)

theorem ne_of_mem_outer (hc : c ∉ t) : ∀ d ∈ outer s t, d ≠ c :=
  fun _ hd heq => hc (heq ▸ outer_subset hd)

/-- The first character counts only at top level, those behind it as the rest of the text. -/
theorem forall_outer_cons {p : Char → Prop} {rest : Text} :
    (∀ d ∈ outer s (c :: rest), p d) ↔
      (s.isTop = true → p c) ∧ ∀ d ∈ outer (s.step c) rest, p d := by
  rw [outer]
  split
  · rename_i htop
    simp [htop]
  · rename_i hdeep
    simp [hdeep]

/-- A text that has no stop at top level and leads back to it goes up to the stop behind it. -/
theorem untilTop_of_outer {stop : Char → Bool} (h : ∀ d ∈ outer s t, stop d = false)
    (hrun : s.run t = .top) (hc : stop c = true) (rest : Text) :
    untilTop stop s (t ++ c :: rest) = (t, c :: rest) := by
  induction t generalizing s with
  | nil =>
      obtain rfl : s = .top := hrun
      simp [untilTop, Nesting.isTop, hc]
  | cons d t ih =>
      obtain ⟨hd, ht⟩ := forall_outer_cons.mp h
      rw [List.cons_append, untilTop, if_neg, ih ht hrun]
      intro hstop
      obtain ⟨htop, hstop⟩ := Bool.and_eq_true_iff.mp hstop
      rw [hd htop] at hstop
      cases hstop

theorem not_separator {separator : Char} {rest : Text}
    (h : ∀ d ∈ outer s (c :: rest), d ≠ separator) : (s.isTop && c == separator) = false := by
  refine Bool.eq_false_iff.mpr fun hcut => ?_
  obtain ⟨htop, hc⟩ := Bool.and_eq_true_iff.mp hcut
  exact (forall_outer_cons.mp h).1 htop (beq_iff_eq.mp hc)

theorem splitTop_eq_singleton (h : ∀ d ∈ outer s t, d ≠ c) : splitTop c s t = [t] := by
  induction t generalizing s with
  | nil => rfl
  | cons d t ih =>
      rw [splitTop_cons (not_separator h), ih (forall_outer_cons.mp h).2, List.modifyHead_cons]

/-- The piece before the first separator is cut off. -/
theorem splitTop_append (h : ∀ d ∈ outer s t, d ≠ c) (hrun : s.run t = .top) (rest : Text) :
    splitTop c s (t ++ c :: rest) = t :: splitTop c .top rest := by
  induction t generalizing s with
  | nil =>
      obtain rfl : s = .top := hrun
      simp [splitTop, Nesting.isTop]
  | cons d t ih =>
      rw [List.cons_append, splitTop_cons (not_separator h), ih (forall_outer_cons.mp h).2 hrun,
        List.modifyHead_cons]

end Text

/-! ## Enclosed texts -/

/-- The state after a text in which every parenthesis that closes has one to close. -/
def Nesting.enclose? : Nesting → Text → Option Nesting
  | s, [] => some s
  | s, c :: rest => if s.isTop && c == ')' then none else (s.step c).enclose? rest

namespace Text

/-- Every string is closed, and the parentheses outside strings are balanced. -/
def IsEnclosed (t : Text) : Prop := Nesting.top.enclose? t = some .top

instance (t : Text) : Decidable t.IsEnclosed :=
  inferInstanceAs (Decidable (Nesting.top.enclose? t = some .top))

end Text

namespace Nesting

variable {s s' : Nesting} {t u : Text}

theorem enclose?_append (s : Nesting) (t u : Text) :
    s.enclose? (t ++ u) = (s.enclose? t).bind fun s' => s'.enclose? u := by
  induction t generalizing s with
  | nil => rfl
  | cons c rest ih =>
      rw [List.cons_append, enclose?, enclose?, ih]
      split <;> rfl

/-- The same place with more parentheses around it. -/
def deepen (s : Nesting) (n : Nat) : Nesting := ⟨s.depth + n, s.quoting⟩

/-- A parenthesis that closes has one to close, so nothing around it matters. -/
theorem step_deepen {c : Char} (h : (s.isTop && c == ')') = false) (n : Nat) :
    (s.deepen n).step c = (s.step c).deepen n := by
  obtain ⟨depth, quoting⟩ := s
  match quoting with
  | .inside mark true => rfl
  | .inside mark false =>
      simp only [deepen, step]
      split
      · rfl
      · split <;> rfl
  | .outside =>
      simp only [deepen, step]
      split
      · rfl
      · split
        · simp [Nat.add_right_comm]
        · split
          · rename_i hclose
            subst hclose
            have hdepth : depth ≠ 0 := by
              rintro rfl
              cases h
            simp only [mk.injEq, and_true]
            omega
          · rfl

theorem enclose?_cons {c : Char} (h : s.enclose? (c :: t) = some s') :
    (s.isTop && c == ')') = false ∧ (s.step c).enclose? t = some s' := by
  rw [enclose?] at h
  split at h
  · cases h
  · rename_i hopen
    exact ⟨Bool.eq_false_iff.mpr hopen, h⟩

theorem run_of_enclose? (h : s.enclose? t = some s') (n : Nat) :
    (s.deepen n).run t = s'.deepen n := by
  induction t generalizing s with
  | nil =>
      cases h
      rfl
  | cons c t ih =>
      obtain ⟨hc, ht⟩ := enclose?_cons h
      rw [run_cons, step_deepen hc, ih ht]

theorem outer_of_enclose? (h : s.enclose? t = some s') : ∀ d ∈ Text.outer s t, d ≠ ')' := by
  induction t generalizing s with
  | nil => exact fun _ => List.not_mem_nil.elim
  | cons c t ih =>
      obtain ⟨hc, ht⟩ := enclose?_cons h
      intro d hd
      rw [Text.outer] at hd
      split at hd
      · rename_i htop
        rcases List.mem_cons.mp hd with rfl | hd
        · rintro rfl
          rw [htop] at hc
          cases hc
        · exact ih ht d hd
      · exact ih ht d hd

/-- Inside parentheses nothing of it is at top level. -/
theorem outer_deepen (h : s.enclose? t = some s') (n : Nat) :
    Text.outer (s.deepen (n + 1)) t = [] := by
  induction t generalizing s with
  | nil => rfl
  | cons c t ih =>
      obtain ⟨hc, ht⟩ := enclose?_cons h
      have hdeep : (s.deepen (n + 1)).isTop = false := beq_eq_false_iff_ne.mpr nofun
      rw [Text.outer, hdeep, step_deepen hc, ih ht]
      rfl

end Nesting

namespace Text

namespace IsEnclosed

variable {t u : Text}

theorem nil : IsEnclosed [] := rfl

theorem append (h : t.IsEnclosed) (h' : u.IsEnclosed) : IsEnclosed (t ++ u) := by
  rw [IsEnclosed, Nesting.enclose?_append, show Nesting.top.enclose? t = some .top from h]
  exact h'

theorem of_isInert (h : ∀ c ∈ t, IsInert c) : t.IsEnclosed := by
  induction t with
  | nil => rfl
  | cons c t ih =>
      obtain ⟨hc, ht⟩ := List.forall_mem_cons.mp h
      rw [IsEnclosed, Nesting.enclose?, if_neg (by simp [hc.2.2]), Nesting.step_of_isInert hc rfl]
      exact ih ht

/-- It leads back to where it began. -/
theorem run (h : t.IsEnclosed) (n : Nat) : Nesting.run ⟨n, .outside⟩ t = ⟨n, .outside⟩ := by
  have hrun := Nesting.run_of_enclose? h n
  rwa [Nesting.deepen, show Nesting.top.depth + n = n from Nat.zero_add n] at hrun

theorem run_top (h : t.IsEnclosed) : Nesting.top.run t = .top := h.run 0

theorem not_close (h : t.IsEnclosed) : ∀ c ∈ outer .top t, c ≠ ')' :=
  Nesting.outer_of_enclose? h

/-- Inside parentheses nothing of it is at top level. -/
theorem outer_inside (h : t.IsEnclosed) (n : Nat) : outer ⟨n + 1, .outside⟩ t = [] := by
  have hdeep := Nesting.outer_deepen h n
  rwa [Nesting.deepen, show Nesting.top.depth + (n + 1) = n + 1 from Nat.zero_add _] at hdeep

theorem parentheses (h : t.IsEnclosed) (u : Text) :
    Nesting.top.run ('(' :: (t ++ ')' :: u)) = Nesting.top.run u ∧
      outer .top ('(' :: (t ++ ')' :: u)) = '(' :: outer .top u := by
  have hopen : Nesting.top.step '(' = ⟨1, .outside⟩ := rfl
  have hclose : Nesting.step ⟨1, .outside⟩ ')' = .top := rfl
  constructor
  · rw [Nesting.run_cons, hopen, Nesting.run_append, h.run, Nesting.run_cons, hclose]
  · rw [outer, if_pos (show Nesting.top.isTop = true from rfl), hopen, outer_append,
      h.outer_inside, h.run, List.nil_append, outer, if_neg (by decide), hclose]

end IsEnclosed

/-! ## Texts with separators between them -/

/-- A text that no separator cuts: strings are closed and parentheses balanced, and there is no
separator outside of them. -/
structure IsWhole (separator : Char) (t : Text) : Prop where
  enclosed : t.IsEnclosed
  uncut : ∀ c ∈ outer .top t, c ≠ separator

/-- A text that can stand between separators: one that no separator cuts, and with no white
space at its ends. -/
structure IsPart (separator : Char) (t : Text) : Prop extends IsWhole separator t where
  trimmed : trim t = t

instance (separator : Char) (t : Text) : Decidable (t.IsWhole separator) :=
  have := List.decidableBAll (· ≠ separator) (outer .top t)
  decidable_of_iff (t.IsEnclosed ∧ ∀ c ∈ outer .top t, c ≠ separator)
    ⟨fun h => ⟨h.1, h.2⟩, fun h => ⟨h.enclosed, h.uncut⟩⟩

instance (separator : Char) (t : Text) : Decidable (t.IsPart separator) :=
  decidable_of_iff (t.IsWhole separator ∧ trim t = t)
    ⟨fun h => ⟨h.1, h.2⟩, fun h => ⟨h.toIsWhole, h.trimmed⟩⟩

namespace IsWhole

variable {separator : Char} {t u : Text}

theorem append (h : t.IsWhole separator) (h' : u.IsWhole separator) :
    IsWhole separator (t ++ u) where
  enclosed := h.enclosed.append h'.enclosed
  uncut := by
    rw [outer_append, h.enclosed.run_top]
    exact List.forall_mem_append.mpr ⟨h.uncut, h'.uncut⟩

theorem of_isInert (h : ∀ c ∈ t, IsInert c ∧ c ≠ separator) : t.IsWhole separator where
  enclosed := .of_isInert fun c hc => (h c hc).1
  uncut := fun c hc => (h c (outer_subset hc)).2

theorem blank (hseparator : isGap separator = false) (h : ∀ c ∈ t, isGap c = true) :
    t.IsWhole separator := by
  refine of_isInert fun c hc => ⟨isInert_of_isBlank (isBlank_of_isGap (h c hc)), ?_⟩
  rintro rfl
  rw [h _ hc] at hseparator
  cases hseparator

end IsWhole

/-- The parts one after the other, with a separator between any two and white space behind
each separator. -/
inductive Lists (separator : Char) : (parts : List Text) → Text → Prop
  | one (t : Text) : Lists separator [t] t
  | cons {t rest : Text} {parts : List Text} (gap : Text) :
      (∀ c ∈ gap, isGap c = true) → Lists separator parts rest →
      Lists separator (t :: parts) (t ++ separator :: (gap ++ rest))

namespace Lists

variable {separator : Char} {parts : List Text} {t : Text}

/-- What holds of the parts, and of a separator with white space, holds of the text. -/
theorem of_append {p : Text → Prop} (h : Lists separator parts t)
    (happend : ∀ t u, p t → p u → p (t ++ u))
    (hcut : ∀ gap : Text, (∀ c ∈ gap, isGap c = true) → p (separator :: gap))
    (hparts : ∀ part ∈ parts, p part) : p t := by
  induction h with
  | one t => exact hparts t (List.mem_singleton_self t)
  | cons gap hgap _ ih =>
      obtain ⟨ht, hrest⟩ := List.forall_mem_cons.mp hparts
      exact happend _ _ ht (happend _ _ (hcut gap hgap) (ih hrest))

theorem isInert_of_mem_gap (hseparator : IsInert separator) {gap : Text}
    (hgap : ∀ c ∈ gap, isGap c = true) : ∀ c ∈ separator :: gap, IsInert c :=
  List.forall_mem_cons.mpr
    ⟨hseparator, fun c hc => isInert_of_isBlank (isBlank_of_isGap (hgap c hc))⟩

theorem isEnclosed (h : Lists separator parts t) (hseparator : IsInert separator)
    (hparts : ∀ part ∈ parts, part.IsEnclosed) : t.IsEnclosed :=
  h.of_append (fun _ _ => .append)
    (fun _ hgap => .of_isInert (isInert_of_mem_gap hseparator hgap)) hparts

/-- What none of the parts is cut by, and neither a separator nor white space is, does not cut
the text. -/
theorem isWhole {other : Char} (h : Lists separator parts t)
    (hseparator : IsInert separator ∧ separator ≠ other) (hother : isGap other = false)
    (hparts : ∀ part ∈ parts, part.IsWhole other) : t.IsWhole other := by
  refine h.of_append (fun _ _ => .append) (fun gap hgap => ?_) hparts
  have hcut : IsWhole other [separator] :=
    .of_isInert fun c hc => List.mem_singleton.mp hc ▸ hseparator
  exact hcut.append (.blank hother hgap)

/-- Texts that are put together with separators are cut apart again. -/
theorem splitTop (h : Lists separator parts t) (hseparator : isGap separator = false)
    (hparts : ∀ part ∈ parts, part.IsWhole separator) :
    (Text.splitTop separator .top t).map trim = parts.map trim := by
  have htrim {gap : Text} (hgap : ∀ c ∈ gap, isGap c = true) (u : Text) :
      trim (gap ++ u) = trim u :=
    trim_blank_append (fun c hc => isBlank_of_isGap (hgap c hc)) u
  -- The white space behind a separator comes with the next part.
  suffices hall : ∀ gap : Text, (∀ c ∈ gap, isGap c = true) →
      (Text.splitTop separator .top (gap ++ t)).map trim = parts.map trim from hall [] nofun
  induction h with
  | one u =>
      intro gap hgap
      have hu := (IsWhole.blank hseparator hgap).append (hparts u (List.mem_singleton_self u))
      rw [splitTop_eq_singleton hu.uncut, List.map_singleton, htrim hgap, List.map_singleton]
  | cons gap' hgap' _ ih =>
      intro gap hgap
      obtain ⟨hu, hrest⟩ := List.forall_mem_cons.mp hparts
      have hwhole := (IsWhole.blank hseparator hgap).append hu
      rw [← List.append_assoc, splitTop_append hwhole.uncut hwhole.enclosed.run_top,
        List.map_cons, htrim hgap, ih hrest gap' hgap', List.map_cons]

theorem length_splitTop (h : Lists separator parts t) (hseparator : isGap separator = false)
    (hparts : ∀ part ∈ parts, part.IsWhole separator) :
    (Text.splitTop separator .top t).length = parts.length := by
  have hlength := congrArg List.length (h.splitTop hseparator hparts)
  rwa [List.length_map, List.length_map] at hlength

end Lists

/-- The first piece ends where the first separator stops. -/
theorem splitTop_untilTop (c : Char) (s : Nesting) (t : Text) :
    splitTop c s t =
      match (untilTop (· == c) s t).2 with
      | [] => [t]
      | _ :: rest => (untilTop (· == c) s t).1 :: splitTop c .top rest := by
  induction t generalizing s with
  | nil => rfl
  | cons d t ih =>
      rw [splitTop, untilTop]
      by_cases hcut : (s.isTop && d == c) = true
      · obtain rfl : s = .top := by
          simpa [Nesting.isTop] using (Bool.and_eq_true_iff.mp hcut).1
        rw [if_pos hcut, if_pos hcut]
      · rw [if_neg hcut, if_neg hcut, ih]
        cases (untilTop (· == c) (s.step d) t).2 <;> rfl

end Text

/-- A slice is cut before the first stop as its text is. -/
theorem Slice.untilTop_of_outer {stop : Char → Bool} {s : Slice} {t rest : Text} {c : Char}
    (hs : s.text = t ++ c :: rest) (h : ∀ d ∈ Text.outer .top t, stop d = false)
    (hrun : Nesting.top.run t = .top) (hc : stop c = true) :
    (s.untilTop stop).1.text = t ∧ (s.untilTop stop).2.text = c :: rest := by
  rw [untilTop_fst_text, untilTop_snd_text, hs, Text.untilTop_of_outer h hrun hc rest]
  exact ⟨rfl, rfl⟩

/-- The pieces of a slice have the texts of the pieces of its text. -/
theorem Slice.map_text_splitTop (c : Char) (s : Slice) :
    (s.splitTop c).map Slice.text = Text.splitTop c .top s.text := by
  rw [splitTop, Text.splitTop_untilTop, ← untilTop_fst_text, ← untilTop_snd_text]
  cases hrest : (s.untilTop (· == c)).2.text with
  | nil =>
      rw [if_pos (by rw [length, hrest]; rfl)]
      rfl
  | cons d rest =>
      have hpos : (s.untilTop (· == c)).2.length ≠ 0 := by
        rw [length, hrest]
        exact Nat.succ_ne_zero _
      have hdrop : ((s.untilTop (· == c)).2.drop 1).text = rest := by
        show (s.untilTop (· == c)).2.text.drop 1 = rest
        rw [hrest]
        rfl
      have hlt := length_untilTop (· == c) s
      have hpieces := map_text_splitTop c ((s.untilTop (· == c)).2.drop 1)
      rw [if_neg hpos, List.map_cons, hpieces, hdrop]
termination_by s.length
decreasing_by
  rw [length_drop]
  omega

end Cascade
