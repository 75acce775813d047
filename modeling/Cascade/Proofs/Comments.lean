import Cascade.Proofs.Places
import Cascade.Proofs.Strings

/-!
# Comments and line ends

A source is one stretch after the other: a character that a glyph stands for, a carriage
return with a line feed, for which there is one glyph, or a comment, for which there is none.
`Divides` says so without a scan. Where a comment can begin depends on the strings and
parentheses around it, and these are made of the glyphs in front.

A source divides in one way (`Divides.unique`), and the scan gives the glyphs of its stretches
(`Divides.traced_eq`). So it removes the comments and nothing else, and each glyph has the
place of the character that it stands for (`Source.lexed`).
-/

namespace Cascade

open String (utf8Len)

/-! ## Comments -/

namespace Text

/-- What follows the `/*` of a comment, before the rest of the text: it ends with the first
`*/`, or else with the text. -/
def IsBlockBody (body rest : Text) : Prop :=
  (∀ u v, body = u ++ '*' :: '/' :: v → v = []) ∧ (['*', '/'] <:+ body ∨ rest = [])

/-- What follows the `//` of a comment, before the rest of the text: it ends before the first
line end, or else with the text. -/
def IsLineBody (body rest : Text) : Prop :=
  (∀ c ∈ body, isLineEnd c = false) ∧ ∀ c ∈ rest.head?, isLineEnd c = true

/-- A comment that begins outside strings, inside so many parentheses. -/
def IsComment (depth : Nat) (comment rest : Text) : Prop :=
  (∃ body, comment = '/' :: '*' :: body ∧ IsBlockBody body rest) ∨
    depth = 0 ∧ ∃ body, comment = '/' :: '/' :: body ∧ IsLineBody body rest

/-- A text that begins with a comment, outside strings and inside so many parentheses. -/
def OpensComment (depth : Nat) (t : Text) : Prop :=
  ['/', '*'] <+: t ∨ depth = 0 ∧ ['/', '/'] <+: t

variable {body body' rest rest' comment : Text} {depth : Nat}

/-- A text has one first `*/`. -/
theorem IsBlockBody.unique (h : IsBlockBody body rest) (h' : IsBlockBody body' rest')
    (heq : body ++ rest = body' ++ rest') : body = body' := by
  have longer {a b r : Text} (ha : IsBlockBody a (b ++ r)) (hb : IsBlockBody (a ++ b) r) :
      b = [] := by
    rcases ha.2 with ⟨u, rfl⟩ | hnil
    · exact hb.1 u b (by simp)
    · exact (List.append_eq_nil_iff.mp hnil).1
  rcases List.append_eq_append_iff.mp heq with ⟨b, rfl, rfl⟩ | ⟨b, rfl, rfl⟩
  · rw [longer h h', List.append_nil]
  · rw [longer h' h, List.append_nil]

/-- Where no `*/` begins, the first one is in what follows. -/
theorem IsBlockBody.tail {c : Char} (h : IsBlockBody (c :: body) rest)
    (hne : ¬ ['*', '/'] <+: c :: body) : IsBlockBody body rest := by
  refine ⟨fun u v heq => h.1 (c :: u) v (by rw [heq]; rfl), h.2.imp_left fun hsuffix => ?_⟩
  rcases List.suffix_cons_iff.mp hsuffix with heq | hsuffix
  · exact (hne (heq ▸ List.prefix_rfl)).elim
  · exact hsuffix

theorem exists_isBlockBody (t : Text) : ∃ body rest, t = body ++ rest ∧ IsBlockBody body rest := by
  induction t with
  | nil => exact ⟨[], [], rfl, fun u v h => by simp at h, .inr rfl⟩
  | cons c t ih =>
      by_cases hend : ['*', '/'] <+: c :: t
      · obtain ⟨rest, hrest⟩ := hend
        refine ⟨['*', '/'], rest, hrest.symm, fun u v h => ?_, .inl List.suffix_rfl⟩
        have hlength := congrArg List.length h
        simp only [List.length_cons, List.length_append, List.length_nil] at hlength
        exact List.length_eq_zero_iff.mp (by omega)
      · obtain ⟨body, rest, rfl, hfirst, hends⟩ := ih
        refine ⟨c :: body, rest, rfl, fun u v h => ?_,
          hends.imp_left fun h => h.trans (List.suffix_cons c body)⟩
        rcases List.cons_eq_append_iff.mp h with ⟨rfl, heq⟩ | ⟨u', rfl, heq⟩
        · cases heq
          exact (hend ⟨v ++ rest, rfl⟩).elim
        · exact hfirst u' v heq

theorem IsLineBody.eq_takeWhile (h : IsLineBody body rest) :
    body = (body ++ rest).takeWhile fun c => !isLineEnd c := by
  rw [List.takeWhile_append_of_pos fun c hc => by rw [h.1 c hc]; rfl]
  cases rest with
  | nil => simp
  | cons c rest => simp [h.2 c rfl]

theorem exists_isLineBody (t : Text) : ∃ body rest, t = body ++ rest ∧ IsLineBody body rest := by
  refine ⟨_, _, (List.takeWhile_append_dropWhile (p := fun c => !isLineEnd c)).symm,
    fun c hc => ?_, fun c hc => ?_⟩
  · simpa using List.mem_takeWhile_imp hc
  · have hhead := List.head?_dropWhile_not (fun c => !isLineEnd c) t
    rw [Option.mem_def.mp hc] at hhead
    simpa using hhead

/-- A comment is told by where it begins. -/
theorem IsComment.unique {comment' : Text} (h : IsComment depth comment rest)
    (h' : IsComment depth comment' rest') (heq : comment ++ rest = comment' ++ rest') :
    comment = comment' := by
  rcases h with ⟨body, rfl, hbody⟩ | ⟨-, body, rfl, hbody⟩ <;>
    rcases h' with ⟨body', rfl, hbody'⟩ | ⟨-, body', rfl, hbody'⟩ <;>
    simp only [List.cons_append, List.cons.injEq, true_and] at heq ⊢
  · exact hbody.unique hbody' heq
  · cases heq.1
  · cases heq.1
  · rw [hbody.eq_takeWhile, hbody'.eq_takeWhile, heq]

theorem IsComment.opens (h : IsComment depth comment rest) :
    OpensComment depth (comment ++ rest) := by
  rcases h with ⟨body, rfl, -⟩ | ⟨hdepth, body, rfl, -⟩
  · exact .inl ⟨body ++ rest, rfl⟩
  · exact .inr ⟨hdepth, body ++ rest, rfl⟩

theorem OpensComment.exists_isComment {t : Text} (h : OpensComment depth t) :
    ∃ comment rest, t = comment ++ rest ∧ IsComment depth comment rest := by
  rcases h with ⟨u, rfl⟩ | ⟨hdepth, u, rfl⟩
  · obtain ⟨body, rest, rfl, hbody⟩ := exists_isBlockBody u
    exact ⟨'/' :: '*' :: body, rest, rfl, .inl ⟨body, rfl, hbody⟩⟩
  · obtain ⟨body, rest, rfl, hbody⟩ := exists_isLineBody u
    exact ⟨'/' :: '/' :: body, rest, rfl, .inr ⟨hdepth, body, rfl, hbody⟩⟩

end Text

/-! ## Stretches -/

/-- What a character outside strings is shown as: a line end as a line feed. -/
def lineFeed (c : Char) : Char := if c = '\r' ∨ c = '\x0c' then '\n' else c

/-- A part of a source that at most one glyph stands for. -/
inductive Stretch where
  | char (c : Char)
  /-- A carriage return with a line feed. -/
  | returnFeed
  | comment (t : Text)

namespace Stretch

def text : Stretch → Text
  | char c => [c]
  | returnFeed => ['\r', '\n']
  | comment t => t

/-- The character of the glyph that stands for it, if there is one. -/
def shown (s : Nesting) : Stretch → Text
  | char c => [if s.quoting = .outside then lineFeed c else c]
  | returnFeed => ['\n']
  | comment _ => []

/-- It can stand there, before the rest of the text. -/
def Stands (s : Nesting) (rest : Text) : Stretch → Prop
  | char c => s.quoting = .outside →
      ¬ Text.OpensComment s.depth (c :: rest) ∧ ¬ ['\r', '\n'] <+: c :: rest
  | returnFeed => s.quoting = .outside
  | comment t => s.quoting = .outside ∧ Text.IsComment s.depth t rest

/-- No glyph stands for its character with the number `k`. -/
def Drops (k : Nat) : Stretch → Prop
  | char _ => False
  | returnFeed => k = 1
  | comment t => k < t.length

/-- The glyph that stands for it, with the nesting it is in. -/
def glyphs (s : Nesting) (place : Nat) (x : Stretch) : List (Glyph × Nesting) :=
  (x.shown s).map fun c => (⟨c, place⟩, s)

variable {s : Nesting} {rest rest' : Text} {x y : Stretch}

theorem text_ne_nil (h : x.Stands s rest) : x.text ≠ [] := by
  cases x with
  | char | returnFeed => exact List.cons_ne_nil _ _
  | comment t =>
      obtain ⟨body, rfl, -⟩ | ⟨-, body, rfl, -⟩ := h.2 <;> exact List.cons_ne_nil _ _

theorem exists_stands (s : Nesting) {t : Text} (h : t ≠ []) :
    ∃ x rest, t = text x ++ rest ∧ x.Stands s rest := by
  obtain ⟨c, u, rfl⟩ := List.exists_cons_of_ne_nil h
  by_cases hquoting : s.quoting = .outside
  · by_cases hopens : Text.OpensComment s.depth (c :: u)
    · obtain ⟨comment, rest, heq, hcomment⟩ := hopens.exists_isComment
      exact ⟨.comment comment, rest, heq, hquoting, hcomment⟩
    · by_cases hpair : ['\r', '\n'] <+: c :: u
      · obtain ⟨rest, hrest⟩ := hpair
        exact ⟨.returnFeed, rest, hrest.symm, hquoting⟩
      · exact ⟨.char c, u, rfl, fun _ => ⟨hopens, hpair⟩⟩
  · exact ⟨.char c, u, rfl, fun h => (hquoting h).elim⟩

/-- What stands at the beginning of a text is told by the text. -/
theorem Stands.unique (h : x.Stands s rest) (h' : y.Stands s rest')
    (heq : x.text ++ rest = y.text ++ rest') : x = y := by
  have not_char {c : Char} {u : Text} (hc : (char c).Stands s u) (hquoting : s.quoting = .outside) :
      ¬ Text.OpensComment s.depth ((char c).text ++ u) ∧ ¬ ['\r', '\n'] <+: (char c).text ++ u :=
    hc hquoting
  have not_pair {t u v : Text} (ht : Text.IsComment s.depth t u) :
      t ++ u ≠ returnFeed.text ++ v := by
    intro heq
    obtain ⟨body, rfl, -⟩ | ⟨-, body, rfl, -⟩ := ht <;> cases heq
  cases x with
  | char c =>
      cases y with
      | char d => rw [(List.cons.inj heq).1]
      | returnFeed => exact ((not_char h h').2 (heq ▸ List.prefix_append ..)).elim
      | comment t => exact ((not_char h h'.1).1 (heq ▸ h'.2.opens)).elim
  | returnFeed =>
      cases y with
      | char d => exact ((not_char h' h).2 (heq ▸ List.prefix_append ..)).elim
      | returnFeed => rfl
      | comment t => exact (not_pair h'.2 heq.symm).elim
  | comment t =>
      cases y with
      | char d => exact ((not_char h' h.1).1 (heq ▸ h.2.opens)).elim
      | returnFeed => exact (not_pair h.2 heq).elim
      | comment t' => rw [h.2.unique h'.2 heq]

end Stretch

/-- The text is these stretches, one after the other, where it begins in the given nesting. -/
inductive Divides : Nesting → List Stretch → Text → Prop
  | nil (s : Nesting) : Divides s [] []
  | cons {s : Nesting} {x : Stretch} {xs : List Stretch} {rest : Text} :
      x.Stands s rest → Divides (s.run (x.shown s)) xs rest → Divides s (x :: xs) (x.text ++ rest)

namespace Divides

variable {s : Nesting} {xs ys : List Stretch} {t : Text}

theorem exists_of (s : Nesting) (t : Text) : ∃ xs, Divides s xs t := by
  by_cases ht : t = []
  · exact ⟨[], ht ▸ .nil s⟩
  · obtain ⟨x, rest, heq, hx⟩ := Stretch.exists_stands s ht
    have hlt : rest.length < t.length := by
      have := List.length_pos_iff.mpr (Stretch.text_ne_nil hx)
      rw [heq, List.length_append]
      omega
    obtain ⟨xs, hxs⟩ := exists_of (s.run (x.shown s)) rest
    exact ⟨x :: xs, heq ▸ .cons hx hxs⟩
termination_by t.length

theorem unique (h : Divides s xs t) (h' : Divides s ys t) : xs = ys := by
  induction h generalizing ys with
  | nil =>
      generalize hnil : ([] : Text) = t at h'
      cases h' with
      | nil => rfl
      | cons hy _ => exact (Stretch.text_ne_nil hy (List.append_eq_nil_iff.mp hnil.symm).1).elim
  | @cons s x xs rest hx _ ih =>
      generalize heq : x.text ++ rest = t at h'
      cases h' with
      | nil => exact (Stretch.text_ne_nil hx (List.append_eq_nil_iff.mp heq).1).elim
      | cons hy hys =>
          obtain rfl := hx.unique hy heq
          obtain rfl := List.append_cancel_left heq
          rw [ih hys]

theorem text_eq (h : Divides s xs t) : xs.flatMap Stretch.text = t := by
  induction h with
  | nil => rfl
  | cons _ _ ih => rw [List.flatMap_cons, ih]

end Divides

/-! ## The scan -/

namespace Glyph

/-- As `scan`, each glyph with the nesting it is in. -/
def traced : Passage → Nesting → (place : Nat) → Text → List (Glyph × Nesting)
  | _, _, _, [] => []
  | .blockComment star, s, i, c :: rest =>
    if star && c == '/' then traced .code s (i + 1) rest
    else traced (.blockComment (c == '*')) s (i + 1) rest
  | .lineComment, s, i, _ :: rest =>
    match rest with
    | [] => []
    | d :: rest' =>
      if isLineEnd d then traced .code s (i + 1) (d :: rest')
      else traced .lineComment s (i + 1) (d :: rest')
  | .code, s, i, c :: rest =>
    if s.quoting ≠ .outside then (⟨c, i⟩, s) :: traced .code (s.step c) (i + 1) rest
    else
      match c, rest with
      | '/', '*' :: rest' => traced (.blockComment false) s (i + 2) rest'
      | '/', '/' :: rest' =>
        if s.depth = 0 then traced .lineComment s (i + 1) ('/' :: rest')
        else (⟨'/', i⟩, s) :: traced .code s (i + 1) ('/' :: rest')
      | '\r', '\n' :: rest' => (⟨'\n', i⟩, s) :: traced .code s (i + 2) rest'
      | '\r', rest => (⟨'\n', i⟩, s) :: traced .code s (i + 1) rest
      | '\x0c', rest => (⟨'\n', i⟩, s) :: traced .code s (i + 1) rest
      | c, rest => (⟨c, i⟩, s) :: traced .code (s.step c) (i + 1) rest

theorem map_fst_traced (p : Passage) (s : Nesting) (i : Nat) (t : Text) :
    (traced p s i t).map Prod.fst = scan p s i t := by
  fun_induction traced p s i t with
  | case1 | case4 => rfl
  | case2 _ _ _ _ _ h ih | case3 _ _ _ _ _ h ih | case5 _ _ _ _ _ h ih | case6 _ _ _ _ _ h ih =>
      simp only [scan, h, if_true, if_false, Bool.false_eq_true, ih]
  | case7 _ _ _ _ h ih =>
      conv_rhs => unfold scan
      rw [if_pos h, List.map_cons, ih]
  | case8 _ _ hq _ ih => simp only [scan, hq, if_false, ih]
  | case9 _ _ hq _ h ih => simp only [scan, hq, if_false, if_pos h, ih]
  | case10 _ _ hq _ h ih | case12 _ _ hq _ h ih =>
      simp only [scan, hq, h, if_false, List.map_cons, ih]
  | case11 _ _ hq _ ih | case13 _ _ hq _ ih | case14 _ _ hq _ _ _ _ _ _ _ ih =>
      simp only [scan, hq, if_false, List.map_cons, ih]

variable {s : Nesting} {rest : Text}

/-- Inside a block comment. `star` says that its last character was one. -/
theorem traced_blockComment (i : Nat) : ∀ (star : Bool) {body : Text},
    Text.IsBlockBody (if star then '*' :: body else body) rest →
      traced (.blockComment star) s i (body ++ rest) = traced .code s (i + body.length) rest
  | star, [], ⟨_, hends⟩ => by
      -- One character is no `*/`, so the text ends here.
      obtain hsuffix | rfl := hends
      · have := hsuffix.length_le
        cases star <;> simp at this
      · cases star <;> rfl
  | star, c :: body, h => by
      rw [List.cons_append, traced]
      by_cases hend : (star && c == '/') = true
      · obtain ⟨rfl, hc⟩ := Bool.and_eq_true_iff.mp hend
        obtain rfl := beq_iff_eq.mp hc
        obtain rfl : body = [] := h.1 [] body rfl
        rw [if_pos hend]
        rfl
      · have hbody : Text.IsBlockBody (c :: body) rest := by
          cases star with
          | false => exact h
          | true =>
              refine h.tail fun hprefix => hend ?_
              have := (List.cons_prefix_cons.mp (List.cons_prefix_cons.mp hprefix).2).1
              simpa using this.symm
        have hnext : Text.IsBlockBody (if c == '*' then '*' :: body else body) rest := by
          by_cases hc : c = '*'
          · subst hc
            exact hbody
          · rw [if_neg (by simpa using hc)]
            exact hbody.tail fun hprefix => hc (List.cons_prefix_cons.mp hprefix).1.symm
        rw [if_neg hend, traced_blockComment (i + 1) (c == '*') hnext, List.length_cons,
          Nat.add_right_comm, Nat.add_assoc]

theorem traced_lineComment (i : Nat) : ∀ {c : Char} {body : Text}, Text.IsLineBody body rest →
    traced .lineComment s i (c :: (body ++ rest)) = traced .code s (i + 1 + body.length) rest
  | _, [], h => by
      cases rest with
      | nil => simp [traced]
      | cons d rest =>
          rw [List.nil_append, traced, if_pos (h.2 d rfl)]
          rfl
  | _, d :: body, h => by
      obtain ⟨hd, hbody⟩ := List.forall_mem_cons.mp h.1
      rw [List.cons_append, traced, if_neg (by simp [hd]), traced_lineComment (i + 1) ⟨hbody, h.2⟩,
        List.length_cons, Nat.add_assoc (i + 1), Nat.add_comm body.length]

/-- A stretch is read at once, from whatever place. -/
theorem traced_stretch {x : Stretch} (h : x.Stands s rest) (i : Nat) :
    traced .code s i (x.text ++ rest) =
      x.glyphs s i ++ traced .code (s.run (x.shown s)) (i + x.text.length) rest := by
  cases x with
  | char c =>
      show traced .code s i (c :: rest) =
        (⟨if s.quoting = .outside then lineFeed c else c, i⟩, s) ::
          traced .code (s.step (if s.quoting = .outside then lineFeed c else c)) (i + 1) rest
      conv_lhs => unfold traced
      by_cases hquoting : s.quoting = .outside
      · obtain ⟨hopens, hpair⟩ := h hquoting
        rw [if_neg (not_not.mpr hquoting), if_pos hquoting]
        split
        · exact (hopens (.inl ⟨_, rfl⟩)).elim
        · rw [if_neg fun hdepth => hopens (.inr ⟨hdepth, _, rfl⟩),
            show lineFeed '/' = '/' from rfl, Nesting.step_of_isInert (by decide) hquoting]
        · exact (hpair ⟨_, rfl⟩).elim
        · rw [show lineFeed '\r' = '\n' from rfl, Nesting.step_of_isInert (by decide) hquoting]
        · rw [show lineFeed '\x0c' = '\n' from rfl, Nesting.step_of_isInert (by decide) hquoting]
        · rename_i hreturn hfeed _ _ _
          rw [lineFeed, if_neg (not_or.mpr ⟨hreturn, hfeed⟩)]
      · rw [if_pos hquoting, if_neg hquoting]
  | returnFeed =>
      have hquoting : s.quoting = .outside := h
      show traced .code s i ('\r' :: '\n' :: rest) =
        (⟨'\n', i⟩, s) :: traced .code (s.step '\n') (i + 2) rest
      rw [Nesting.step_of_isInert (by decide) hquoting]
      conv_lhs => unfold traced
      simp only [if_neg (not_not.mpr hquoting)]
  | comment t =>
      obtain ⟨hquoting, ⟨body, rfl, hbody⟩ | ⟨hdepth, body, rfl, hbody⟩⟩ := h
      · show traced .code s i ('/' :: '*' :: (body ++ rest)) =
          traced .code s (i + (body.length + 2)) rest
        conv_lhs => unfold traced
        rw [if_neg (not_not.mpr hquoting)]
        simp only
        rw [traced_blockComment (i + 2) false hbody, Nat.add_assoc, Nat.add_comm 2]
      · show traced .code s i ('/' :: '/' :: (body ++ rest)) =
          traced .code s (i + (body.length + 2)) rest
        conv_lhs => unfold traced
        rw [if_neg (not_not.mpr hquoting)]
        simp only [if_pos hdepth]
        rw [traced_lineComment (i + 1) hbody, Nat.add_assoc i, Nat.add_assoc i, Nat.add_comm 2]

end Glyph

namespace Stretch

/-- The glyphs of stretches, one after the other. -/
def allGlyphs : Nesting → (place : Nat) → List Stretch → List (Glyph × Nesting)
  | _, _, [] => []
  | s, i, x :: xs => x.glyphs s i ++ allGlyphs (s.run (x.shown s)) (i + x.text.length) xs

/-- The nesting after stretches. -/
def leave (s : Nesting) (xs : List Stretch) : Nesting := xs.foldl (fun s x => s.run (x.shown s)) s

variable {s : Nesting} {place : Nat} {x : Stretch} {xs : List Stretch} {p : Glyph × Nesting}

theorem allGlyphs_append (ys : List Stretch) : allGlyphs s place (xs ++ ys) =
    allGlyphs s place xs ++ allGlyphs (leave s xs) (place + (xs.flatMap text).length) ys := by
  induction xs generalizing s place with
  | nil => rfl
  | cons x xs ih =>
      rw [List.cons_append, allGlyphs, allGlyphs, ih, List.append_assoc, List.flatMap_cons,
        List.length_append, Nat.add_assoc]
      rfl

theorem glyphs_cases (s : Nesting) (place : Nat) (x : Stretch) :
    x.glyphs s place = [] ∨ ∃ c, x.glyphs s place = [(⟨c, place⟩, s)] := by
  cases x with
  | char | returnFeed => exact .inr ⟨_, rfl⟩
  | comment => exact .inl rfl

theorem place_of_mem_glyphs (h : p ∈ x.glyphs s place) :
    p.1.place = place ∧ 0 < x.text.length := by
  obtain ⟨c, hc, rfl⟩ := List.mem_map.mp h
  cases x with
  | char | returnFeed => exact ⟨rfl, Nat.succ_pos _⟩
  | comment => cases hc

theorem place_of_mem_allGlyphs (h : p ∈ allGlyphs s place xs) :
    place ≤ p.1.place ∧ p.1.place < place + (xs.flatMap text).length := by
  induction xs generalizing s place with
  | nil => cases h
  | cons x xs ih =>
      rw [List.flatMap_cons, List.length_append]
      rcases List.mem_append.mp h with hx | hxs
      · have := place_of_mem_glyphs hx
        omega
      · have := ih hxs
        omega

/-- Every character belongs to a stretch. -/
theorem exists_at {n : Nat} (h : n < (xs.flatMap text).length) : ∃ before x after k,
    xs = before ++ x :: after ∧ n = (before.flatMap text).length + k ∧ k < x.text.length := by
  induction xs generalizing n with
  | nil => exact (Nat.not_lt_zero n h).elim
  | cons x xs ih =>
      rw [List.flatMap_cons, List.length_append] at h
      by_cases hn : n < x.text.length
      · exact ⟨[], x, xs, n, rfl, (Nat.zero_add n).symm, hn⟩
      · obtain ⟨before, y, after, k, rfl, hk, hlt⟩ := ih (n := n - x.text.length) (by omega)
        refine ⟨x :: before, y, after, k, rfl, ?_, hlt⟩
        rw [List.flatMap_cons, List.length_append]
        omega

theorem lt_length_of_drops {k : Nat} (h : x.Drops k) : k < x.text.length := by
  cases x with
  | char => exact h.elim
  | returnFeed => exact Nat.lt_of_le_of_lt (Nat.le_of_eq h) Nat.one_lt_two
  | comment => exact h

/-- A character that no glyph stands for: one of a comment, or the line feed behind a carriage
return. -/
theorem drops_iff (s : Nesting) (place : Nat) {k : Nat} (h : k < x.text.length) :
    x.Drops k ↔ ∀ p ∈ x.glyphs s place, p.1.place ≠ place + k := by
  cases x with
  | char c =>
      obtain rfl : k = 0 := Nat.lt_one_iff.mp h
      exact ⟨False.elim, fun hnone => hnone _ (List.mem_singleton_self _) rfl⟩
  | returnFeed =>
      refine ⟨fun (hk : k = 1) p hp => ?_, fun hnone => ?_⟩
      · have := (place_of_mem_glyphs hp).1
        omega
      · have hne := hnone _ (List.mem_singleton_self _)
        have : k < 2 := h
        show k = 1
        simp only [ne_eq] at hne
        omega
  | comment t => exact ⟨fun _ _ => List.not_mem_nil.elim, fun _ => h⟩

end Stretch

/-! ## What is dropped -/

/-- No glyph stands for the character of the text with this number: it is in a comment, or it
is the line feed of a carriage return with a line feed, outside strings. -/
def Glyph.IsDropped (t : Text) (place : Nat) : Prop := ∃ before x after k,
  Divides .top (before ++ x :: after) t ∧ place = (before.flatMap Stretch.text).length + k ∧
    x.Drops k

namespace Divides

variable {s : Nesting} {xs : List Stretch} {t : Text} {place : Nat}

/-- The scan gives the glyphs of the stretches. -/
theorem traced_eq (h : Divides s xs t) (i : Nat) :
    Glyph.traced .code s i t = Stretch.allGlyphs s i xs := by
  induction h generalizing i with
  | nil => rfl
  | cons hx _ ih => rw [Glyph.traced_stretch hx, ih, Stretch.allGlyphs]

theorem ofText_eq (h : Divides .top xs t) :
    Glyph.ofText t = (Stretch.allGlyphs .top 0 xs).map Prod.fst := by
  rw [← h.traced_eq 0, Glyph.map_fst_traced, Glyph.ofText]

theorem not_exists_glyph_iff (h : Divides .top xs t) (hplace : place < t.length) :
    (∀ g ∈ Glyph.ofText t, g.place ≠ place) ↔ Glyph.IsDropped t place := by
  rw [h.ofText_eq, List.forall_mem_map]
  constructor
  · intro hnone
    rw [← h.text_eq] at hplace
    obtain ⟨before, x, after, k, rfl, rfl, hk⟩ := Stretch.exists_at hplace
    refine ⟨before, x, after, k, h, rfl, (Stretch.drops_iff (Stretch.leave .top before) _ hk).mpr
      fun p hp => hnone p ?_⟩
    rw [Stretch.allGlyphs_append, Nat.zero_add]
    exact List.mem_append_right _ (List.mem_append_left _ hp)
  · rintro ⟨before, x, after, k, h', rfl, hx⟩ p hp
    obtain rfl := h.unique h'
    have hk := Stretch.lt_length_of_drops hx
    rw [Stretch.allGlyphs_append, Nat.zero_add, Stretch.allGlyphs] at hp
    rcases List.mem_append.mp hp with hbefore | hp
    · have := Stretch.place_of_mem_allGlyphs hbefore
      omega
    rcases List.mem_append.mp hp with hx' | hafter
    · exact (Stretch.drops_iff _ _ hk).mp hx p hx'
    · have := Stretch.place_of_mem_allGlyphs hafter
      omega

end Divides

/-! ## What is shown -/

/-- The nestings in which the characters of a text stand. -/
def Nesting.states : Nesting → Text → List Nesting
  | _, [] => []
  | s, c :: rest => s :: states (s.step c) rest

namespace Nesting

theorem states_append (s : Nesting) (t u : Text) :
    s.states (t ++ u) = s.states t ++ (s.run t).states u := by
  induction t generalizing s with
  | nil => rfl
  | cons c t ih => rw [List.cons_append, states, states, ih, run_cons, List.cons_append]

theorem getElem?_states {s : Nesting} {t : Text} {i : Nat} (h : i < t.length) :
    (s.states t)[i]? = some (s.run (t.take i)) := by
  induction t generalizing s i with
  | nil => exact (Nat.not_lt_zero i h).elim
  | cons c t ih =>
      cases i with
      | zero => rfl
      | succ i => exact ih (Nat.lt_of_succ_lt_succ h)

end Nesting

namespace Glyph

/-- The nestings in which the glyphs of a text are read. -/
def nestings (t : Text) : List Nesting := (traced .code .top 0 t).map Prod.snd

/-- The glyph stands for a character of the text, which begins at the place. -/
def StandsFor (place : Nat) (t : Text) (p : Glyph × Nesting) : Prop :=
  ∃ before c after, t = before ++ c :: after ∧ p.1.place = place + before.length ∧
    p.1.char = if p.2.quoting = .outside then lineFeed c else c

end Glyph

namespace Stretch

variable {s : Nesting} {x : Stretch} {rest : Text}

theorem map_char_glyphs (place : Nat) : (x.glyphs s place).map (·.1.char) = x.shown s := by
  rw [glyphs, List.map_map]
  exact List.map_id _

/-- There is one glyph at most. -/
theorem map_snd_glyphs (place : Nat) : (x.glyphs s place).map Prod.snd = s.states (x.shown s) := by
  cases x <;> rfl

theorem map_snd_allGlyphs (s : Nesting) (place : Nat) (xs : List Stretch) :
    (allGlyphs s place xs).map Prod.snd = s.states ((allGlyphs s place xs).map (·.1.char)) := by
  induction xs generalizing s place with
  | nil => rfl
  | cons x xs ih =>
      rw [allGlyphs, List.map_append, List.map_append, Nesting.states_append, map_char_glyphs,
        map_snd_glyphs, ih]

theorem standsFor_of_mem_glyphs (h : x.Stands s rest) {place : Nat} {p : Glyph × Nesting}
    (hp : p ∈ x.glyphs s place) : Glyph.StandsFor place (x.text ++ rest) p := by
  obtain ⟨c, hc, rfl⟩ := List.mem_map.mp hp
  cases x with
  | char d => exact ⟨[], d, rest, rfl, rfl, List.mem_singleton.mp hc⟩
  | returnFeed =>
      obtain rfl := List.mem_singleton.mp hc
      refine ⟨[], '\r', '\n' :: rest, rfl, rfl, ?_⟩
      rw [if_pos (show s.quoting = .outside from h)]
      rfl
  | comment => cases hc

end Stretch

theorem Divides.standsFor {s : Nesting} {xs : List Stretch} {t : Text} (h : Divides s xs t)
    {place : Nat} {p : Glyph × Nesting} (hp : p ∈ Stretch.allGlyphs s place xs) :
    Glyph.StandsFor place t p := by
  induction h generalizing place with
  | nil => cases hp
  | @cons s x xs rest hx _ ih =>
      rcases List.mem_append.mp hp with hp | hp
      · exact Stretch.standsFor_of_mem_glyphs hx hp
      · obtain ⟨before, c, after, rfl, hplace, hchar⟩ := ih hp
        refine ⟨x.text ++ before, c, after, (List.append_assoc ..).symm, ?_, hchar⟩
        rw [hplace, List.length_append, Nat.add_assoc]

namespace Glyph

variable {t : Text} {i : Nat} {g : Glyph}

theorem map_char_traced (t : Text) :
    (traced .code .top 0 t).map (·.1.char) = visible t := by
  rw [visible, ofText, ← map_fst_traced, List.map_map]
  rfl

/-- The scan keeps the nesting of what it shows, whatever comments it passes over. -/
theorem nestings_eq (t : Text) : nestings t = Nesting.top.states (visible t) := by
  obtain ⟨xs, hxs⟩ := Divides.exists_of .top t
  rw [nestings, ← map_char_traced, hxs.traced_eq]
  exact Stretch.map_snd_allGlyphs .top 0 xs

theorem nestings_getElem? (h : i < (visible t).length) :
    (nestings t)[i]? = some (Nesting.top.run ((visible t).take i)) := by
  rw [nestings_eq, Nesting.getElem?_states h]

theorem standsFor_of_getElem? (h : (ofText t)[i]? = some g) :
    StandsFor 0 t (g, Nesting.top.run ((visible t).take i)) := by
  obtain ⟨xs, hxs⟩ := Divides.exists_of .top t
  obtain ⟨p, hp, rfl⟩ : ∃ p, (traced .code .top 0 t)[i]? = some p ∧ p.1 = g := by
    rw [ofText, ← map_fst_traced, List.getElem?_map] at h
    exact Option.map_eq_some_iff.mp h
  have hlt : i < (visible t).length := by
    rw [length_visible]
    exact (List.getElem?_eq_some_iff.mp h).1
  have hnesting : some p.2 = some (Nesting.top.run ((visible t).take i)) := by
    rw [← nestings_getElem? hlt, nestings, List.getElem?_map, hp]
    rfl
  rw [← Option.some.inj hnesting]
  exact hxs.standsFor (hxs.traced_eq 0 ▸ List.mem_of_getElem? hp)

end Glyph

/-! ## Sources -/

theorem Text.foldl_utf8Size (n : Nat) (t : Text) :
    t.foldl (fun n c => n + c.utf8Size) n = n + utf8Len t := by
  induction t generalizing n with
  | nil => rfl
  | cons c t ih =>
      rw [List.foldl_cons, ih, String.utf8Len_cons, Nat.add_comm (utf8Len t), Nat.add_assoc]

namespace Source

/-- The span lies in the text from the one glyph to the other. -/
structure Covers (s : Source) (span : Span) (first last : Glyph) : Prop where
  extent : s.extent span = (first.place, last.place + 1)
  /-- It begins with the bytes of the first glyph and ends with those of the last. -/
  bytes : s.bytes span = (utf8Len (s.text.take first.place), utf8Len (s.text.take (last.place + 1)))
  /-- It is what the bytes of the two have between them, also if these are reckoned from what
  the glyphs are shown as. -/
  union : s.bytes span = (min (first.offset s.text) (last.offset s.text),
    max (first.offset s.text + first.char.utf8Size) (last.offset s.text + last.char.utf8Size))
  within : (s.bytes span).1 < (s.bytes span).2 ∧ (s.bytes span).2 ≤ utf8Len s.text
  length : (s.bytes span).1 + s.byteLength span = (s.bytes span).2

variable {s : Source} {span : Span}

theorem byteLength_eq (s : Source) (span : Span) : s.byteLength span =
    utf8Len ((s.text.take (s.extent span).2).drop (s.extent span).1) := by
  rw [List.drop_take]
  exact (Text.foldl_utf8Size 0 _).trans (Nat.zero_add _)

theorem bytes_fst_add_byteLength (h : (s.extent span).1 ≤ (s.extent span).2) :
    (s.bytes span).1 + s.byteLength span = (s.bytes span).2 := by
  rw [bytes_eq, byteLength_eq, ← String.utf8Len_append, Text.take_append_drop_take h]

theorem Fits.covers (h : s.Fits span) : ∃ first last,
    (Glyph.ofText s.text)[span.start]? = some first ∧
      (Glyph.ofText s.text)[span.stop - 1]? = some last ∧ s.Covers span first last := by
  obtain ⟨first, last, hfirst, hlast, hextent⟩ := h.extent_eq
  obtain ⟨hlt, hle⟩ := h.extent_le
  have hbytes := s.bytes_eq span
  rw [hextent] at hlt hle hbytes
  have hplace : first.place ≤ last.place := Nat.le_of_lt_succ hlt
  have hoffset : first.offset s.text ≤ last.offset s.text :=
    String.utf8Len_le_of_sublist (List.take_sublist_take_left hplace)
  have hend : utf8Len (s.text.take (first.place + 1)) ≤ utf8Len (s.text.take (last.place + 1)) :=
    String.utf8Len_le_of_sublist (List.take_sublist_take_left (Nat.succ_le_succ hplace))
  refine ⟨first, last, hfirst, hlast, hextent, hbytes, ?_, ?_, ?_⟩
  · rw [Nat.min_eq_left hoffset, Glyph.offset_add_utf8Size (List.mem_of_getElem? hfirst),
      Glyph.offset_add_utf8Size (List.mem_of_getElem? hlast), Nat.max_eq_right hend, hbytes]
    rfl
  · rw [hbytes]
    exact ⟨Text.utf8Len_take_lt hlt hle, String.utf8Len_le_of_sublist (List.take_sublist ..)⟩
  · exact bytes_fst_add_byteLength (by rw [hextent]; exact Nat.le_of_lt hlt)

/-- What the glyphs of a source are. -/
structure Lexed (s : Source) : Prop where
  /-- The text divides into characters, line ends and comments, in one way. -/
  divided : ∃! xs, Divides .top xs s.text
  /-- The glyphs are those of its stretches. -/
  glyphs : ∀ xs, Divides .top xs s.text →
    Glyph.ofText s.text = (Stretch.allGlyphs .top 0 xs).map Prod.fst
  /-- Each begins at a later byte than the one before. -/
  increasing : (Glyph.ofText s.text).Pairwise (·.offset s.text < ·.offset s.text)
  /-- Each begins where a character does, and shows it: outside strings line ends as line
  feeds, and everything else as it is. -/
  shows : ∀ i g, (Glyph.ofText s.text)[i]? = some g → ∃ before c after,
    s.text = before ++ c :: after ∧ g.place = before.length ∧ g.offset s.text = utf8Len before ∧
      g.char = if (Nesting.top.run ((Glyph.visible s.text).take i)).quoting = .outside
        then lineFeed c else c
  /-- What no glyph stands for is in a comment, or is the second character of a line end, and
  nothing else is. -/
  dropped : ∀ place < s.text.length,
    (∀ g ∈ Glyph.ofText s.text, g.place ≠ place) ↔ Glyph.IsDropped s.text place
  /-- A span of glyphs begins and ends with the first and the last of them. -/
  spans : ∀ span : Span, span.start < span.stop → span.stop ≤ (Glyph.ofText s.text).length →
    ∃ first last, (Glyph.ofText s.text)[span.start]? = some first ∧
      (Glyph.ofText s.text)[span.stop - 1]? = some last ∧ s.Covers span first last

/-- A source without its comments, each character where it was. -/
theorem lexed (s : Source) : s.Lexed where
  divided := by
    obtain ⟨xs, hxs⟩ := Divides.exists_of .top s.text
    exact ⟨xs, hxs, fun _ hys => hys.unique hxs⟩
  glyphs _ hxs := hxs.ofText_eq
  increasing := (Glyph.ofText_placed s.text).sorted.imp_of_mem fun _ hg hlt =>
    Text.utf8Len_take_lt hlt (Nat.le_of_lt (Glyph.place_lt hg))
  shows i g hg := by
    obtain ⟨before, c, after, htext, hplace, hchar⟩ := Glyph.standsFor_of_getElem? hg
    rw [Nat.zero_add] at hplace
    refine ⟨before, c, after, htext, hplace, ?_, hchar⟩
    rw [Glyph.offset, htext, hplace, List.take_left]
  dropped place hplace := by
    obtain ⟨xs, hxs⟩ := Divides.exists_of .top s.text
    exact hxs.not_exists_glyph_iff hplace
  spans _ hlt hle := Fits.covers ⟨hlt, hle⟩

end Source

end Cascade
