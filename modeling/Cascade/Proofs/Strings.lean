import Cascade.Proofs.Bytes
import Cascade.Proofs.Words

/-!
# Closed strings

The quoted strings that are closed in a text, marks included, in order (`Text.strings`). A
string may hold what else would be a separator, an end or a parenthesis, so it matters for
each thing the reader does with a text whether the strings come through:

- trimming leaves them as they are (`Text.strings_trim`), and so does cutting: each string is
  on one side of an end (`Text.strings_untilTop`) and in one of the pieces at a separator
  (`Text.flatMap_strings_splitTop`);
- collapsing does not know strings. It leaves as many of them as there were, but each of them
  collapsed (`Text.strings_collapse`), so a string stays the same only if it has no white
  space but single spaces (`Text.collapse_eq_self_iff`).
-/

namespace Cascade

/-! ## Quotation marks -/

/-- What a string can begin with, and ends with then. -/
def isQuote (c : Char) : Bool := c == '"' || c == '\''

theorem not_isQuote_of_isBlank {c : Char} (h : isBlank c = true) : isQuote c = false := by
  refine Bool.eq_false_iff.mpr fun hmark => ?_
  simp only [isQuote, Bool.or_eq_true, beq_iff_eq] at hmark
  rcases hmark with rfl | rfl <;> cases h

theorem not_isQuote_of_isNameChar {c : Char} (h : isNameChar c = true) : isQuote c = false := by
  refine Bool.eq_false_iff.mpr fun hmark => ?_
  simp only [isQuote, Bool.or_eq_true, beq_iff_eq] at hmark
  rcases hmark with rfl | rfl <;> cases h

/-- A character that is neither a quotation mark nor a parenthesis. -/
def IsInert (c : Char) : Prop := isQuote c = false ∧ c ≠ '(' ∧ c ≠ ')'

instance (c : Char) : Decidable (IsInert c) := inferInstanceAs (Decidable (_ ∧ _))

theorem isInert_of_isBlank {c : Char} (h : isBlank c = true) : IsInert c := by
  refine ⟨not_isQuote_of_isBlank h, ?_, ?_⟩ <;>
  · rintro rfl
    cases h

theorem isInert_of_isNameChar {c : Char} (h : isNameChar c = true) : IsInert c := by
  refine ⟨not_isQuote_of_isNameChar h, ?_, ?_⟩ <;>
  · rintro rfl
    cases h

/-- Parameters and arguments alike are split at semicolons or, where there are none, at commas. -/
theorem not_isQuote_separator {p : Prop} [Decidable p] :
    isQuote (if p then ';' else ',') = false := by
  split <;> rfl

namespace Quoting

/-- What a character makes of the state of a scan. Parentheses have no part in it. -/
def step : Quoting → Char → Quoting
  | outside, c => if isQuote c then inside c false else outside
  | inside mark true, _ => inside mark false
  | inside mark false, c =>
    if c = '\\' then inside mark true else if c = mark then outside else inside mark false

/-- The state after a whole text. -/
def run (q : Quoting) (t : Text) : Quoting := t.foldl step q

@[simp] theorem run_nil (q : Quoting) : q.run [] = q := rfl

@[simp] theorem run_cons (q : Quoting) (c : Char) (t : Text) : q.run (c :: t) = (q.step c).run t :=
  rfl

theorem run_append (q : Quoting) (t u : Text) : q.run (t ++ u) = (q.run t).run u := by
  simp [run, List.foldl_append]

/-- A string ends with a mark, if it ends. -/
def Proper : Quoting → Prop
  | outside => True
  | inside mark _ => isQuote mark = true

variable {q : Quoting} {c : Char}

theorem Proper.step : ∀ {q : Quoting}, q.Proper → ∀ c, (q.step c).Proper
  | outside, _, c => by
      rw [Quoting.step]
      split
      · assumption
      · trivial
  | inside _ true, h, _ => h
  | inside _ false, h, c => by
      rw [Quoting.step]
      split
      · exact h
      · split
        · trivial
        · exact h

theorem Proper.run (h : q.Proper) (t : Text) : (q.run t).Proper := by
  induction t generalizing q with
  | nil => exact h
  | cons c t ih => exact ih (h.step c)

/-- What is no mark leaves a scan outside strings, or in the string that it is in. -/
theorem step_eq_outside_iff (h : q.Proper) (hc : isQuote c = false) :
    q.step c = outside ↔ q = outside := by
  match q, h with
  | outside, _ => simp [step, hc]
  | inside mark true, _ => simp [step]
  | inside mark false, h =>
      have hne : c ≠ mark := by
        rintro rfl
        rw [show isQuote c = true from h] at hc
        cases hc
      simp only [step, hne, if_false]
      split <;> simp

/-- A blank in a string undoes an escape, and nothing else. -/
theorem step_inside_blank {mark : Char} (hmark : isQuote mark = true) (hc : isBlank c = true)
    (escaped : Bool) : (inside mark escaped).step c = inside mark false := by
  have hne : c ≠ mark := by
    rintro rfl
    cases (not_isQuote_of_isBlank hc).symm.trans hmark
  have hescape : c ≠ '\\' := by
    rintro rfl
    cases hc
  cases escaped with
  | true => rfl
  | false => simp [step, hne, hescape]

theorem step_outside (hc : isQuote c = false) : outside.step c = outside := by
  rw [step, hc]
  rfl

/-- One blank is as good as many. -/
theorem step_blank (h : q.Proper) (hc : isBlank c = true) :
    q.step c = q.step ' ' ∧ (q.step ' ').step c = q.step ' ' := by
  cases q with
  | outside =>
      have hspace : outside.step ' ' = outside := step_outside (not_isQuote_of_isBlank rfl)
      have hc : outside.step c = outside := step_outside (not_isQuote_of_isBlank hc)
      rw [hspace, hc]
      exact ⟨rfl, rfl⟩
  | inside mark escaped =>
      rw [step_inside_blank h (c := ' ') rfl, step_inside_blank h hc, step_inside_blank h hc]
      exact ⟨rfl, rfl⟩

end Quoting

theorem Nesting.quoting_step (s : Nesting) (c : Char) : (s.step c).quoting = s.quoting.step c := by
  obtain ⟨depth, quoting⟩ := s
  match quoting with
  | .outside =>
      have hquote : (c = '"' || c = '\'') = isQuote c := by simp [isQuote, Bool.beq_eq_decide_eq]
      simp only [step, Quoting.step, hquote]
      cases isQuote c with
      | true => rfl
      | false =>
          simp only [Bool.false_eq_true, if_false]
          split
          · rfl
          · split <;> rfl
  | .inside mark true => rfl
  | .inside mark false =>
      simp only [step, Quoting.step]
      split
      · rfl
      · split <;> rfl

/-- Outside strings only quotation marks and parentheses make a difference. -/
theorem Nesting.step_of_isInert {s : Nesting} {c : Char} (hc : IsInert c)
    (hs : s.quoting = .outside) : s.step c = s := by
  obtain ⟨depth, quoting⟩ := s
  obtain rfl : quoting = .outside := hs
  obtain ⟨hquote, hopen, hclose⟩ := hc
  have hmark : ¬ (c = '"' || c = '\'') = true := by simpa [isQuote] using hquote
  simp only [step, hmark, hopen, hclose, if_false]
  rfl

theorem Nesting.quoting_run (s : Nesting) (t : Text) :
    (s.run t).quoting = s.quoting.run t := by
  induction t generalizing s with
  | nil => rfl
  | cons c t ih => rw [run_cons, ih, quoting_step, Quoting.run_cons]

namespace Text

/-! ## The strings of a text -/

/-- The strings that are closed in a text, marks included. The scan stands as `q` says, and
has passed `passed` of the string that it is in. -/
def stringsFrom : (q : Quoting) → (passed : Text) → Text → List Text
  | _, _, [] => []
  | .outside, _, c :: rest => stringsFrom (.step .outside c) [c] rest
  | .inside mark escaped, passed, c :: rest =>
    if Quoting.step (.inside mark escaped) c = .outside then
      (passed ++ [c]) :: stringsFrom .outside [] rest
    else stringsFrom (.step (.inside mark escaped) c) (passed ++ [c]) rest

/-- The closed strings of a text, in order. -/
def strings (t : Text) : List Text := stringsFrom .outside [] t

variable {q : Quoting} {passed t u : Text} {c : Char}

theorem stringsFrom_outside (passed t : Text) : stringsFrom .outside passed t = strings t := by
  cases t <;> rfl

/-- What more there is behind a text is the same behind one with another character in
front. -/
theorem stringsFrom_cons {t' : Text} {more : List Text}
    (h : ∀ passed, stringsFrom (q.step c) passed t = stringsFrom (q.step c) passed t' ++ more) :
    stringsFrom q passed (c :: t) = stringsFrom q passed (c :: t') ++ more := by
  cases q with
  | outside => exact h [c]
  | inside mark escaped =>
      simp only [stringsFrom]
      split
      · rename_i hout
        rw [hout] at h
        rw [h [], List.cons_append]
      · exact h _

theorem stringsFrom_append (u : Text) : ∀ {q : Quoting} {passed t : Text}, q.run t = .outside →
    stringsFrom q passed (t ++ u) = stringsFrom q passed t ++ strings u
  | q, passed, [], h => by
      obtain rfl : q = .outside := h
      exact stringsFrom_outside passed u
  | _, _, _ :: _, h => stringsFrom_cons fun _ => stringsFrom_append u h

/-- A string is closed on one side of a place outside strings. -/
theorem strings_append (h : Quoting.run .outside t = .outside) :
    strings (t ++ u) = strings t ++ strings u :=
  stringsFrom_append u h

/-- What has no marks neither begins nor closes a string. -/
theorem stringsFrom_eq_nil (h : ∀ c ∈ t, isQuote c = false) (hq : q.Proper) :
    stringsFrom q passed t = [] := by
  induction t generalizing q passed with
  | nil => rfl
  | cons c t ih =>
      obtain ⟨hc, ht⟩ := List.forall_mem_cons.mp h
      cases q with
      | outside => exact ih ht (hq.step c)
      | inside mark escaped =>
          rw [stringsFrom, if_neg ((Quoting.step_eq_outside_iff hq hc).not.mpr nofun)]
          exact ih ht (hq.step c)

/-- Nor does it lead out of one. -/
theorem run_plain_iff (h : ∀ c ∈ t, isQuote c = false) (hq : q.Proper) :
    q.run t = .outside ↔ q = .outside := by
  induction t generalizing q with
  | nil => rfl
  | cons c t ih =>
      obtain ⟨hc, ht⟩ := List.forall_mem_cons.mp h
      exact (ih ht (hq.step c)).trans (Quoting.step_eq_outside_iff hq hc)

theorem run_of_plain (h : ∀ c ∈ t, isQuote c = false) : Quoting.run .outside t = .outside :=
  (run_plain_iff h (q := .outside) trivial).mpr rfl

theorem strings_of_plain (h : ∀ c ∈ t, isQuote c = false) : strings t = [] :=
  stringsFrom_eq_nil h trivial

theorem strings_plain_append (h : ∀ c ∈ t, isQuote c = false) :
    strings (t ++ u) = strings u := by
  rw [strings_append (run_of_plain h), strings_of_plain h, List.nil_append]

theorem stringsFrom_append_plain (h : ∀ c ∈ u, isQuote c = false) (hq : q.Proper) :
    stringsFrom q passed (t ++ u) = stringsFrom q passed t := by
  induction t generalizing q passed with
  | nil => exact stringsFrom_eq_nil h hq
  | cons c t ih =>
      rw [← List.append_nil (stringsFrom q passed (c :: t))]
      refine stringsFrom_cons fun passed => ?_
      rw [List.append_nil]
      exact ih (hq.step c)

/-- A string that is left open stays open. -/
theorem strings_append_plain (h : ∀ c ∈ u, isQuote c = false) :
    strings (t ++ u) = strings t :=
  stringsFrom_append_plain h trivial

theorem strings_cons (hc : isQuote c = false) : strings (c :: t) = strings t :=
  strings_plain_append (t := [c]) fun _ hd => List.mem_singleton.mp hd ▸ hc

/-! ## Trimming and cutting -/

theorem strings_trimStart (t : Text) : strings (trimStart t) = strings t := by
  conv_rhs => rw [← List.takeWhile_append_dropWhile (p := isBlank) (l := t)]
  exact (strings_plain_append fun c hc =>
    not_isQuote_of_isBlank (List.mem_takeWhile_imp hc)).symm

theorem trim_blank_append {blanks : Text} (h : ∀ c ∈ blanks, isBlank c = true) (t : Text) :
    trim (blanks ++ t) = trim t := by
  rw [trim, trimStart, List.dropWhile_append_of_pos h]
  rfl

theorem exists_trimEnd (t : Text) :
    ∃ blanks, t = trimEnd t ++ blanks ∧ ∀ c ∈ blanks, isBlank c = true := by
  refine ⟨(t.reverse.takeWhile isBlank).reverse, ?_, fun c hc => ?_⟩
  · rw [trimEnd, ← List.reverse_append, List.takeWhile_append_dropWhile, List.reverse_reverse]
  · exact List.mem_takeWhile_imp (List.mem_reverse.mp hc)

theorem mem_trim_or_isBlank (h : c ∈ t) : c ∈ trim t ∨ isBlank c = true := by
  rw [← List.takeWhile_append_dropWhile (p := isBlank) (l := t)] at h
  rcases List.mem_append.mp h with h | h
  · exact .inr (List.mem_takeWhile_imp h)
  · obtain ⟨blanks, htext, hblanks⟩ := exists_trimEnd (trimStart t)
    rw [show t.dropWhile isBlank = _ from htext] at h
    exact (List.mem_append.mp h).imp_right (hblanks c)

theorem strings_trimEnd (t : Text) : strings (trimEnd t) = strings t := by
  obtain ⟨blanks, htext, hblanks⟩ := exists_trimEnd t
  conv_rhs => rw [htext]
  exact (strings_append_plain fun c hc => not_isQuote_of_isBlank (hblanks c hc)).symm

theorem strings_trim (t : Text) : strings (trim t) = strings t := by
  rw [trim, strings_trimEnd, strings_trimStart]

theorem run_trim (t : Text) :
    Quoting.run .outside (trim t) = .outside ↔ Quoting.run .outside t = .outside := by
  have hstart : Quoting.run .outside t = Quoting.run .outside (trimStart t) := by
    conv_lhs => rw [← List.takeWhile_append_dropWhile (p := isBlank) (l := t), Quoting.run_append]
    rw [run_of_plain fun c hc => not_isQuote_of_isBlank (List.mem_takeWhile_imp hc)]
    rfl
  obtain ⟨blanks, htext, hblanks⟩ := exists_trimEnd (trimStart t)
  rw [hstart, trim]
  conv_rhs => rw [htext, Quoting.run_append]
  exact (run_plain_iff (fun c hc => not_isQuote_of_isBlank (hblanks c hc))
    (Quoting.Proper.run (q := .outside) trivial _)).symm

theorem stringsFrom_untilTop (stop : Char → Bool) : ∀ (s : Nesting) (passed t : Text),
    stringsFrom s.quoting passed t =
      stringsFrom s.quoting passed (untilTop stop s t).1 ++ strings (untilTop stop s t).2
  | _, _, [] => rfl
  | s, passed, c :: t => by
      rw [untilTop]
      split
      · rename_i hend
        obtain rfl : s = .top := by
          simpa [Nesting.isTop] using (Bool.and_eq_true_iff.mp hend).1
        exact stringsFrom_outside passed (c :: t)
      · refine stringsFrom_cons fun passed => ?_
        rw [← Nesting.quoting_step]
        exact stringsFrom_untilTop stop (s.step c) passed t

/-- A string is closed before an end, or behind it. -/
theorem strings_untilTop (stop : Char → Bool) (t : Text) :
    strings t = strings (untilTop stop .top t).1 ++ strings (untilTop stop .top t).2 :=
  stringsFrom_untilTop stop .top [] t

/-- What precedes an end leads back to top level. -/
theorem nesting_untilTop {stop : Char → Bool} : ∀ {s : Nesting} {t : Text},
    (untilTop stop s t).2 ≠ [] → s.run (untilTop stop s t).1 = .top
  | _, [], h => (h rfl).elim
  | s, c :: t, h => by
      rw [untilTop] at h ⊢
      split
      · rename_i hend
        simpa [Nesting.isTop] using (Bool.and_eq_true_iff.mp hend).1
      · rename_i hgo
        rw [if_neg hgo] at h
        exact nesting_untilTop h

/-- It is not in the middle of a string. -/
theorem run_untilTop {stop : Char → Bool} {s : Nesting} (h : (untilTop stop s t).2 ≠ []) :
    s.quoting.run (untilTop stop s t).1 = .outside := by
  rw [← Nesting.quoting_run, nesting_untilTop h]
  rfl

/-- What is left begins with an end. -/
theorem stop_of_untilTop {stop : Char → Bool} : ∀ {s : Nesting} {t rest : Text} {c : Char},
    (untilTop stop s t).2 = c :: rest → stop c = true
  | _, [], _, _, h => by cases h
  | s, d :: t, rest, c, h => by
      rw [untilTop] at h
      split at h
      · rename_i hend
        cases h
        exact (Bool.and_eq_true_iff.mp hend).2
      · exact stop_of_untilTop h

theorem stringsFrom_splitTop {separator : Char} (hseparator : isQuote separator = false) :
    ∀ {s : Nesting} {passed t piece : Text} {pieces : List Text},
      splitTop separator s t = piece :: pieces →
        stringsFrom s.quoting passed t =
          stringsFrom s.quoting passed piece ++ pieces.flatMap strings
  | _, _, [], _, _, h => by
      cases h
      rfl
  | s, passed, c :: t, _, _, h => by
      by_cases hcut : (s.isTop && c == separator) = true
      · rw [splitTop_cons_cut hcut] at h
        obtain ⟨htop, hc⟩ := Bool.and_eq_true_iff.mp hcut
        obtain rfl : s = .top := by simpa [Nesting.isTop] using htop
        obtain rfl : c = separator := by simpa using hc
        obtain ⟨piece, pieces, htail⟩ := exists_splitTop c .top t
        cases h
        rw [htail, List.flatMap_cons]
        exact (stringsFrom_outside passed (c :: t)).trans
          ((strings_cons hseparator).trans (stringsFrom_splitTop hseparator htail))
      · obtain ⟨first, others, hsplit⟩ := exists_splitTop separator (s.step c) t
        rw [splitTop_cons (Bool.eq_false_iff.mpr hcut), hsplit] at h
        cases h
        refine stringsFrom_cons fun passed => ?_
        rw [← Nesting.quoting_step]
        exact stringsFrom_splitTop hseparator hsplit

/-- Each string is in one of the pieces at a separator. -/
theorem flatMap_strings_splitTop {separator : Char} (hseparator : isQuote separator = false)
    (t : Text) : (splitTop separator .top t).flatMap strings = strings t := by
  obtain ⟨piece, pieces, hsplit⟩ := exists_splitTop separator .top t
  rw [hsplit, List.flatMap_cons]
  exact (stringsFrom_splitTop hseparator (s := .top) hsplit).symm

/-- Pieces that are empty have no strings to lose. -/
theorem flatMap_strings_filter (pieces : List Text) :
    (pieces.filter (!·.isEmpty)).flatMap strings = pieces.flatMap strings := by
  induction pieces with
  | nil => rfl
  | cons piece rest ih =>
      cases piece with
      | nil => exact ih
      | cons => exact congrArg (_ ++ ·) ih

/-! ## Collapsing -/

/-- Every run of blanks is written as one space, but only before what is not blank. A blank is
pending if one has been read since. -/
def squeeze : (pending : Bool) → Text → Text
  | _, [] => []
  | pending, c :: rest =>
    if isBlank c then squeeze true rest
    else if pending then ' ' :: c :: squeeze false rest
    else c :: squeeze false rest

/-- Whether a blank is pending behind a text. -/
def pendingAfter (pending : Bool) (t : Text) : Bool := t.foldl (fun _ c => isBlank c) pending

theorem squeeze_append (pending : Bool) (t u : Text) :
    squeeze pending (t ++ u) = squeeze pending t ++ squeeze (pendingAfter pending t) u := by
  induction t generalizing pending with
  | nil => rfl
  | cons c t ih =>
      rw [List.cons_append, squeeze, squeeze]
      cases hc : isBlank c with
      | true => simp only [if_true, ih, pendingAfter, List.foldl_cons, hc]
      | false =>
          simp only [Bool.false_eq_true, if_false, ih, pendingAfter, List.foldl_cons, hc]
          split <;> rfl

theorem squeeze_eq (t : Text) :
    squeeze true t = (words t).flatMap (' ' :: ·) ∧
      ∃ first others, t.splitOnP isBlank = first :: others ∧
        squeeze false t = first ++ (others.filter (!·.isEmpty)).flatMap (' ' :: ·) := by
  induction t with
  | nil => exact ⟨rfl, [], [], rfl, rfl⟩
  | cons c t ih =>
      obtain ⟨hspaced, first, others, hsplit, hsqueezed⟩ := ih
      rw [words, List.splitOnP_cons_eq_if_modifyHead, squeeze, squeeze]
      cases hc : isBlank c with
      | true =>
          exact ⟨hspaced, [], t.splitOnP isBlank, rfl, hspaced⟩
      | false =>
          simp only [Bool.false_eq_true, if_false, if_true, hsplit, List.modifyHead_cons, hsqueezed]
          exact ⟨rfl, _, _, rfl, rfl⟩

/-- Behind a space, collapsing is done from front to back. -/
theorem cons_collapse (h : words t ≠ []) : ' ' :: collapse t = squeeze true t := by
  obtain ⟨w, ws, hwords⟩ := List.exists_cons_of_ne_nil h
  rw [(squeeze_eq t).1, collapse, hwords, join_eq, List.flatMap_cons]
  rfl

theorem collapse_cons (hc : isBlank c = false) (t : Text) :
    collapse (c :: t) = c :: squeeze false t := by
  have hwords : words (c :: t) ≠ [] := by
    intro hnil
    have hspaced := (squeeze_eq (c :: t)).1
    rw [hnil, squeeze, hc] at hspaced
    cases hspaced
  have hcons := cons_collapse hwords
  rw [squeeze, hc] at hcons
  exact (List.cons.inj hcons).2

/-- How a scan of the squeezed text stands to the scan of the text. They are in the same
string, or in none, but the one of the squeezed text has not come to the blanks that are
pending. -/
inductive Lags : (pending : Bool) → (q q' : Quoting) → (passed passed' : Text) → Prop
  | outside {pending : Bool} : Lags pending .outside .outside [] []
  | inside {mark c : Char} {escaped : Bool} {p : Text} : isQuote mark = true → isBlank c = false →
      pendingAfter false p = false →
      Lags false (.inside mark escaped) (.inside mark escaped) (c :: p) (c :: squeeze false p)
  | pending {mark c : Char} {escaped : Bool} {p : Text} : isQuote mark = true →
      isBlank c = false → pendingAfter false p = true →
      Lags true (.inside mark false) (.inside mark escaped) (c :: p) (c :: squeeze false p)

theorem pendingAfter_concat (pending : Bool) (p : Text) (c : Char) :
    pendingAfter pending (p ++ [c]) = isBlank c := by
  rw [pendingAfter, List.foldl_append]
  rfl

namespace Lags

variable {pending : Bool} {q q' : Quoting} {passed passed' : Text}

/-- A blank is pending from then on. -/
theorem blank (h : Lags pending q q' passed passed') (hc : isBlank c = true) :
    ∃ p, Lags true (q.step c) q' p passed' ∧
      ∀ t, stringsFrom q passed (c :: t) = stringsFrom (q.step c) p t := by
  cases h with
  | outside =>
      have hstep := Quoting.step_outside (not_isQuote_of_isBlank hc)
      rw [hstep]
      refine ⟨[], .outside, fun t => ?_⟩
      rw [stringsFrom, hstep, stringsFrom_outside]
      rfl
  | @inside mark first escaped p hmark hfirst hlast
  | @pending mark first escaped p hmark hfirst hlast =>
      have hsqueeze : squeeze false (p ++ [c]) = squeeze false p := by
        rw [squeeze_append, squeeze, hc]
        exact List.append_nil _
      refine ⟨first :: (p ++ [c]), ?_, fun t => ?_⟩
      · rw [Quoting.step_inside_blank hmark hc, ← hsqueeze]
        exact .pending hmark hfirst (by rw [pendingAfter_concat, hc])
      · rw [stringsFrom, Quoting.step_inside_blank hmark hc, if_neg nofun]
        rfl

/-- What is not blank goes on, or closes, the same string for both. -/
theorem closes {mark first : Char} {escaped : Bool} {p squeezed t u : Text}
    (hmark : isQuote mark = true) (hfirst : isBlank first = false) (hc : isBlank c = false)
    (hsqueezed : squeezed ++ [c] = first :: squeeze false (p ++ [c]))
    (hrest : ∀ {q passed passed'}, Lags false q q passed passed' →
      stringsFrom q passed' u = (stringsFrom q passed t).map collapse) :
    stringsFrom (.inside mark escaped) squeezed (c :: u) =
      (stringsFrom (.inside mark escaped) (first :: p) (c :: t)).map collapse := by
  have hproper : Quoting.Proper (.step (.inside mark escaped) c) :=
    Quoting.Proper.step (q := .inside mark escaped) hmark c
  rw [stringsFrom, stringsFrom, hsqueezed]
  cases hstep : Quoting.step (.inside mark escaped) c with
  | outside =>
      rw [if_pos rfl, if_pos rfl, List.map_cons, hrest .outside, List.cons_append,
        collapse_cons hfirst]
  | inside mark' escaped' =>
      rw [hstep] at hproper
      rw [if_neg nofun, if_neg nofun]
      exact hrest (.inside hproper hfirst ((pendingAfter_concat false p c).trans hc))

/-- What is not blank is written behind the space that is pending. -/
theorem solid (h : Lags pending q q' passed passed') (hc : isBlank c = false) {t u : Text}
    (hrest : ∀ {q passed passed'}, Lags false q q passed passed' →
      stringsFrom q passed' u = (stringsFrom q passed t).map collapse) :
    stringsFrom q' passed' (squeeze pending [c] ++ u) =
      (stringsFrom q passed (c :: t)).map collapse := by
  cases h with
  | outside =>
      have hspace : stringsFrom .outside [] (squeeze pending [c] ++ u) =
          stringsFrom (.step .outside c) [c] u := by
        cases pending <;> simp only [squeeze, hc] <;> rfl
      rw [hspace, stringsFrom]
      cases hquote : isQuote c with
      | true =>
          rw [show Quoting.step .outside c = .inside c false by rw [Quoting.step, hquote]; rfl]
          exact hrest (.inside (p := []) hquote hc rfl)
      | false =>
          rw [Quoting.step_outside hquote, stringsFrom_outside, stringsFrom_outside]
          exact hrest .outside
  | inside hmark hfirst hlast =>
      have hsqueeze : squeeze false [c] = [c] := by rw [squeeze, hc]; rfl
      rw [hsqueeze]
      refine closes hmark hfirst hc ?_ hrest
      rw [squeeze_append, hlast, hsqueeze]
      rfl
  | @pending mark first escaped p hmark hfirst hlast =>
      have hsqueeze : squeeze true [c] = [' ', c] := by rw [squeeze, hc]; rfl
      rw [hsqueeze, List.cons_append, stringsFrom, Quoting.step_inside_blank hmark rfl,
        if_neg nofun]
      refine closes hmark hfirst hc ?_ hrest
      rw [squeeze_append, hlast, hsqueeze]
      simp

end Lags

theorem stringsFrom_squeeze {pending : Bool} {q q' : Quoting} {passed passed' t : Text}
    (h : Lags pending q q' passed passed') :
    stringsFrom q' passed' (squeeze pending t) = (stringsFrom q passed t).map collapse := by
  induction t generalizing pending q q' passed passed' with
  | nil => rfl
  | cons c t ih =>
      cases hc : isBlank c with
      | true =>
          obtain ⟨p, hlags, hstrings⟩ := h.blank hc
          rw [squeeze, if_pos hc, hstrings, ih hlags]
      | false =>
          have hsplit : squeeze pending (c :: t) = squeeze pending [c] ++ squeeze false t := by
            rw [show c :: t = [c] ++ t from rfl, squeeze_append]
            simp [pendingAfter, hc]
          rw [hsplit, h.solid hc ih]

/-- The strings of a collapsed text are those of the text, each of them collapsed. -/
theorem strings_collapse (t : Text) : strings (collapse t) = (strings t).map collapse := by
  have hlags : Lags true .outside .outside [] [] := .outside
  refine Eq.trans ?_ (stringsFrom_squeeze hlags)
  by_cases h : words t = []
  · rw [(squeeze_eq t).1, collapse, h]
    rfl
  · rw [← cons_collapse h]
    exact (strings_cons (not_isQuote_of_isBlank rfl)).symm

theorem run_squeeze (pending : Bool) {q : Quoting} (hq : q.Proper) (t : Text) :
    q.run (squeeze pending t) = .outside ↔
      (if pending then q.step ' ' else q).run t = .outside := by
  induction t generalizing pending q with
  | nil =>
      cases pending with
      | true => exact (Quoting.step_eq_outside_iff hq (not_isQuote_of_isBlank rfl)).symm
      | false => rfl
  | cons c t ih =>
      rw [squeeze]
      cases hc : isBlank c with
      | true =>
          obtain ⟨hblank, hagain⟩ := Quoting.step_blank hq hc
          rw [if_pos rfl, ih true hq]
          cases pending <;> simp [hblank, hagain]
      | false =>
          cases pending with
          | true => exact ih false ((hq.step ' ').step c)
          | false => exact ih false (hq.step c)

/-- Collapsing closes no string, and leaves none open. -/
theorem run_collapse (t : Text) :
    Quoting.run .outside (collapse t) = .outside ↔ Quoting.run .outside t = .outside := by
  refine Iff.trans ?_ (run_squeeze true (q := .outside) trivial t)
  by_cases h : words t = []
  · rw [(squeeze_eq t).1, collapse, h]
    rfl
  · rw [← cons_collapse h]
    rfl

/-! ## What collapsing leaves alone -/

theorem eq_space_of_mem_collapse {c : Char} (h : c ∈ collapse t) (hc : isBlank c = true) :
    c = ' ' := by
  rcases mem_join h with h | ⟨w, hw, h⟩
  · exact List.mem_singleton.mp h
  · cases ((isSolid_of_mem_words hw).solid c h).symm.trans hc

theorem squeeze_eq_self : ∀ {t : Text},
    (t.IsChain fun c d => isBlank c = true → isBlank d = false) →
      (∀ c ∈ t.getLast?, isBlank c = false) → (∀ c ∈ t, isBlank c = true → c = ' ') →
        squeeze false t = t
  | [], _, _, _ => rfl
  | [c], _, hends, _ => by
      rw [squeeze, hends c rfl]
      rfl
  | c :: d :: rest, hsingle, hends, hspaces => by
      obtain ⟨hnext, hsingle⟩ := List.isChain_cons_cons.mp hsingle
      have hrest := squeeze_eq_self hsingle hends fun b hb => hspaces b (List.mem_cons_of_mem c hb)
      cases hc : isBlank c with
      | false =>
          rw [squeeze, hc, hrest]
          rfl
      | true =>
          obtain rfl := hspaces c (List.mem_cons_self ..) hc
          have hd := hnext hc
          rw [squeeze, hd] at hrest
          rw [squeeze, hc, if_pos rfl, squeeze, hd]
          exact congrArg (' ' :: ·) hrest

/-- A text is left as it is if it has no white space but single spaces between words. -/
theorem collapse_eq_self_iff :
    collapse t = t ↔ t.IsTidy ∧ ∀ c ∈ t, isBlank c = true → c = ' ' := by
  constructor
  · intro h
    exact ⟨h ▸ collapse_tidy t, fun c hc => eq_space_of_mem_collapse (h.symm ▸ hc)⟩
  · rintro ⟨⟨hstarts, hsingle, hends⟩, hspaces⟩
    cases t with
    | nil => rfl
    | cons c rest =>
        have hc := hstarts c rfl
        have hself := squeeze_eq_self hsingle hends hspaces
        rw [squeeze, hc] at hself
        rw [collapse_cons hc]
        exact hself

theorem collapse_collapse (t : Text) : collapse (collapse t) = collapse t :=
  collapse_eq_self_iff.mpr ⟨collapse_tidy t, fun _ => eq_space_of_mem_collapse⟩

end Text

end Cascade
