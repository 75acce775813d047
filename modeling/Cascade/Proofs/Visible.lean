import Cascade.Proofs.Places
import Cascade.Proofs.Separators

/-!
# What a source shows

Most of a source is shown as it is written. Only a slash can begin a comment, and only a
carriage return or a form feed is shown as another character, so whatever has none of these
is shown as it is (`Glyph.visibleFrom_append_of_isShown`). Inside parentheses a slash does no
harm either, unless a star comes next (`Text.IsLiteral`, `Text.IsEnclosed.visibleFrom`).
-/

namespace Cascade

/-- A character that can neither begin a comment nor be shown as another. -/
def IsShown (c : Char) : Prop := c ≠ '\r' ∧ c ≠ '\x0c' ∧ c ≠ '/'

instance (c : Char) : Decidable (IsShown c) := inferInstanceAs (Decidable (_ ∧ _))

theorem isShown_of {p : Char → Bool} (hp : p '\r' = false ∧ p '\x0c' = false ∧ p '/' = false)
    {c : Char} (h : p c = true) : IsShown c := by
  have hne {d : Char} (hd : p d = false) : c ≠ d := by
    rintro rfl
    exact Bool.false_ne_true (hd.symm.trans h)
  exact ⟨hne hp.1, hne hp.2.1, hne hp.2.2⟩

theorem isShown_of_isNameChar {c : Char} (h : isNameChar c = true) : IsShown c :=
  isShown_of ⟨rfl, rfl, rfl⟩ h

theorem isShown_of_isGap {c : Char} (h : isGap c = true) : IsShown c :=
  isShown_of ⟨rfl, rfl, rfl⟩ h

namespace Glyph

variable {s : Nesting} {t rest : Text}

/-- Where in the source a text stands makes no difference to what it shows. -/
theorem map_char_scan (p : Passage) (s : Nesting) (i j : Nat) (t : Text) :
    (scan p s i t).map char = (scan p s j t).map char := by
  fun_induction scan p s i t generalizing j with
  | case1 | case4 => rfl
  | case2 _ _ _ _ _ h ih | case3 _ _ _ _ _ h ih | case5 _ _ _ _ _ h ih | case6 _ _ _ _ _ h ih =>
      simp only [scan, h, if_true, if_false, Bool.false_eq_true]
      exact ih _
  | case7 _ _ _ _ h ih =>
      conv_rhs => unfold scan
      rw [if_pos h, List.map_cons, List.map_cons, ih]
  | case8 _ _ hq _ ih =>
      simp only [scan, hq, if_false]
      exact ih _
  | case9 _ _ hq _ h ih =>
      simp only [scan, hq, if_false, if_pos h]
      exact ih _
  | case10 _ _ hq _ h ih | case12 _ _ hq _ h ih =>
      simp only [scan, hq, h, if_false, List.map_cons]
      exact congrArg _ (ih _)
  | case11 _ _ hq _ ih | case13 _ _ hq _ ih | case14 _ _ hq _ _ _ _ _ _ _ ih =>
      simp only [scan, hq, if_false, List.map_cons]
      exact congrArg _ (ih _)

/-- What the rest of a source shows that begins outside comments. -/
def visibleFrom (s : Nesting) (t : Text) : Text := (scan .code s 0 t).map char

theorem visibleFrom_top (t : Text) : visibleFrom .top t = visible t := rfl

/-- A character is shown as it is unless a comment begins with it or it is a line end that is
spelled otherwise. -/
theorem visibleFrom_cons {c : Char} (hreturn : c ≠ '\r') (hfeed : c ≠ '\x0c')
    (hslash : c = '/' → s.quoting = .outside → s.depth ≠ 0 ∧ rest.head? ≠ some '*') :
    visibleFrom s (c :: rest) = c :: visibleFrom (s.step c) rest := by
  suffices hscan : scan .code s 0 (c :: rest) = ⟨c, 0⟩ :: scan .code (s.step c) 1 rest by
    rw [visibleFrom, hscan, List.map_cons, map_char_scan .code _ 1 0]
    rfl
  conv_lhs => unfold scan
  split
  · rfl
  · rename_i hquoting
    have houtside := not_not.mp hquoting
    split
    · exact ((hslash rfl houtside).2 rfl).elim
    · obtain ⟨depth, quoting⟩ := s
      obtain rfl : quoting = .outside := houtside
      exact if_neg (hslash rfl rfl).1
    · exact (hreturn rfl).elim
    · exact (hreturn rfl).elim
    · exact (hfeed rfl).elim
    · rfl

/-- Every slash outside strings stands inside parentheses and has no star behind it. -/
theorem visibleFrom_append (hreturn : '\r' ∉ t) (hfeed : '\x0c' ∉ t)
    (hslash : ∀ u v, t = u ++ '/' :: v → (s.run u).quoting = .outside →
      (s.run u).depth ≠ 0 ∧ (v ++ rest).head? ≠ some '*') :
    visibleFrom s (t ++ rest) = t ++ visibleFrom (s.run t) rest := by
  induction t generalizing s with
  | nil => rfl
  | cons c t ih =>
      obtain ⟨hc, hreturn⟩ := not_or.mp (mt List.mem_cons.mpr hreturn)
      obtain ⟨hc', hfeed⟩ := not_or.mp (mt List.mem_cons.mpr hfeed)
      have hfirst : c = '/' → s.quoting = .outside → s.depth ≠ 0 ∧ (t ++ rest).head? ≠ some '*' :=
        fun heq => hslash [] t (heq ▸ rfl)
      have hothers : ∀ u v, t = u ++ '/' :: v → ((s.step c).run u).quoting = .outside →
          ((s.step c).run u).depth ≠ 0 ∧ (v ++ rest).head? ≠ some '*' :=
        fun u v heq => hslash (c :: u) v (heq ▸ rfl)
      rw [List.cons_append, visibleFrom_cons (Ne.symm hc) (Ne.symm hc') hfirst,
        ih hreturn hfeed hothers]
      rfl

theorem visibleFrom_append_of_isShown (h : ∀ c ∈ t, IsShown c) (rest : Text) :
    visibleFrom s (t ++ rest) = t ++ visibleFrom (s.run t) rest := by
  have hreturn : '\r' ∉ t := fun hmem => (h _ hmem).1 rfl
  have hfeed : '\x0c' ∉ t := fun hmem => (h _ hmem).2.1 rfl
  refine visibleFrom_append hreturn hfeed fun u _ heq => ?_
  exact ((h '/' (heq ▸ List.mem_append_right u (List.mem_cons_self ..))).2.2 rfl).elim

end Glyph

/-! ## Inside parentheses -/

namespace Text

variable {t rest : Text}

/-- Inside parentheses the text is shown as it is written: there is no block comment in it, and
no line end but line feeds. -/
structure IsLiteral (t : Text) : Prop where
  no_return : '\r' ∉ t
  no_feed : '\x0c' ∉ t
  no_comment : ∀ u v, t = u ++ '/' :: '*' :: v → Quoting.run .outside u ≠ .outside

instance (t : Text) : Decidable t.IsLiteral :=
  decidable_of_iff ('\r' ∉ t ∧ '\x0c' ∉ t ∧ ∀ n < t.length, (t.drop n).take 2 = ['/', '*'] →
      Quoting.run .outside (t.take n) ≠ .outside) <| by
    constructor
    · rintro ⟨hreturn, hfeed, hcomment⟩
      refine ⟨hreturn, hfeed, fun u v heq => ?_⟩
      subst heq
      have hstar := hcomment u.length (by simp) (by simp)
      rwa [List.take_left] at hstar
    · rintro ⟨hreturn, hfeed, hcomment⟩
      refine ⟨hreturn, hfeed, fun n _ hstar => hcomment (t.take n) ((t.drop n).drop 2) ?_⟩
      calc t
        _ = t.take n ++ ((t.drop n).take 2 ++ (t.drop n).drop 2) := by
          rw [List.take_append_drop, List.take_append_drop]
        _ = t.take n ++ '/' :: '*' :: (t.drop n).drop 2 := by rw [hstar]; rfl

/-- An enclosed text keeps the parentheses around it open. -/
theorem IsEnclosed.depth_run (h : t.IsEnclosed) {u v : Text} (heq : t = u ++ v) (n : Nat) :
    (Nesting.run ⟨n + 1, .outside⟩ u).depth ≠ 0 := by
  subst heq
  rw [IsEnclosed, Nesting.enclose?_append] at h
  obtain ⟨s, hu, -⟩ := Option.bind_eq_some_iff.mp h
  have hrun := Nesting.run_of_enclose? hu (n + 1)
  rw [Nesting.deepen, show Nesting.top.depth + (n + 1) = n + 1 from Nat.zero_add _] at hrun
  exact congrArg Nesting.depth hrun ▸ Nat.succ_ne_zero _

theorem IsEnclosed.visibleFrom (h : t.IsEnclosed) (hliteral : t.IsLiteral)
    (hrest : rest.head? ≠ some '*') (n : Nat) :
    Glyph.visibleFrom ⟨n + 1, .outside⟩ (t ++ rest) =
      t ++ Glyph.visibleFrom ⟨n + 1, .outside⟩ rest := by
  have happend : Glyph.visibleFrom ⟨n + 1, .outside⟩ (t ++ rest) =
      t ++ Glyph.visibleFrom (Nesting.run ⟨n + 1, .outside⟩ t) rest := by
    refine Glyph.visibleFrom_append hliteral.no_return hliteral.no_feed fun u v heq hquoting => ?_
    refine ⟨h.depth_run heq n, fun hstar => ?_⟩
    rw [Nesting.quoting_run] at hquoting
    cases v with
    | nil => exact hrest hstar
    | cons d v =>
        obtain rfl : d = '*' := Option.some.inj hstar
        exact hliteral.no_comment u v heq hquoting
  rwa [h.run] at happend

/-- A separator and the white space behind it begin no comment, and end none. -/
theorem Lists.visibleFrom {separator : Char} {parts : List Text} (h : Lists separator parts t)
    (hinert : IsInert separator) (hshown : IsShown separator) (hstar : separator ≠ '*')
    (hparts : ∀ part ∈ parts, part.IsEnclosed ∧ part.IsLiteral) (hrest : rest.head? ≠ some '*')
    (n : Nat) :
    Glyph.visibleFrom ⟨n + 1, .outside⟩ (t ++ rest) =
      t ++ Glyph.visibleFrom ⟨n + 1, .outside⟩ rest := by
  induction h with
  | one t =>
      obtain ⟨henclosed, hliteral⟩ := hparts t (List.mem_singleton_self t)
      exact henclosed.visibleFrom hliteral hrest n
  | @cons t others parts gap hgap _ ih =>
      obtain ⟨⟨henclosed, hliteral⟩, hothers⟩ := List.forall_mem_cons.mp hparts
      have hcut : IsEnclosed (separator :: gap) :=
        .of_isInert (isInert_of_mem_gap hinert hgap)
      have hplain : ∀ c ∈ separator :: gap, IsShown c :=
        List.forall_mem_cons.mpr ⟨hshown, fun c hc => isShown_of_isGap (hgap c hc)⟩
      have hnext : (separator :: (gap ++ others) ++ rest).head? ≠ some '*' :=
        fun heq => hstar (Option.some.inj heq)
      have hcuts := Glyph.visibleFrom_append_of_isShown (s := ⟨n + 1, .outside⟩) hplain
        (others ++ rest)
      rw [hcut.run, ih hothers] at hcuts
      calc Glyph.visibleFrom ⟨n + 1, .outside⟩ (t ++ separator :: (gap ++ others) ++ rest)
        _ = Glyph.visibleFrom ⟨n + 1, .outside⟩ (t ++ (separator :: (gap ++ others) ++ rest)) := by
          rw [List.append_assoc]
        _ = t ++ Glyph.visibleFrom ⟨n + 1, .outside⟩ (separator :: gap ++ (others ++ rest)) := by
          rw [henclosed.visibleFrom hliteral hnext, ← List.cons_append, List.append_assoc]
        _ = t ++ separator :: (gap ++ others) ++ Glyph.visibleFrom ⟨n + 1, .outside⟩ rest := by
          rw [hcuts]
          simp only [List.append_assoc, List.cons_append]

end Text

end Cascade
