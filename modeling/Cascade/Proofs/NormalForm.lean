import Cascade.Proofs.Legible
import Cascade.Proofs.Lexing

/-!
# The normal form of a value

Tokens that are written out again are a normal form of the text they were read from, if its
strings are closed: the same tokens are read from it, and it differs from the text by white
space outside strings and by a `)` for every parenthesis that was left open
(`Token.normalForm`).

White space decides what is an operator and what is not, so the text and what is written for
it are compared at each place where a token ends (`Token.Resembles`): they go on in the same
way, or the text goes on with white space and what is written with something that ends a term.
-/

namespace Cascade

theorem Operator.isInert_char (o : Operator) : IsInert o.char := by
  cases o <;> decide

namespace Text

/-! ## White space outside strings -/

/-- A text without its white space outside strings; the scan stands as `q` says. -/
def strippedFrom : (q : Quoting) → Text → Text
  | _, [] => []
  | q, c :: t =>
    if q = .outside ∧ isBlank c = true then strippedFrom q t else c :: strippedFrom (q.step c) t

def stripped (t : Text) : Text := strippedFrom .outside t

variable {t u : Text}

theorem strippedFrom_append (q : Quoting) (t u : Text) :
    strippedFrom q (t ++ u) = strippedFrom q t ++ strippedFrom (q.run t) u := by
  induction t generalizing q with
  | nil => rfl
  | cons c t ih =>
      rw [List.cons_append, strippedFrom, strippedFrom, Quoting.run_cons]
      split
      · rename_i hblank
        obtain ⟨rfl, hc⟩ := hblank
        rw [ih, Quoting.step_outside (not_isQuote_of_isBlank hc)]
      · rw [ih, List.cons_append]

theorem stripped_append (h : Quoting.run .outside t = .outside) :
    (t ++ u).stripped = t.stripped ++ u.stripped := by
  rw [stripped, strippedFrom_append, h]
  rfl

theorem stripped_cons {c : Char} (h : isQuote c = false) (hc : isBlank c = false) (t : Text) :
    stripped (c :: t) = c :: stripped t := by
  rw [stripped, strippedFrom, if_neg (by simp [hc]), Quoting.step_outside h]
  rfl

theorem stripped_blanks (h : ∀ c ∈ t, isBlank c = true) : t.stripped = [] := by
  induction t with
  | nil => rfl
  | cons c t ih =>
      obtain ⟨hc, ht⟩ := List.forall_mem_cons.mp h
      rw [stripped, strippedFrom, if_pos ⟨rfl, hc⟩]
      exact ih ht

end Text

namespace Token

/-! ## What a text and its normal form have in common -/

/-- What is written for a text begins as the text does, or ends a term where the text goes on
with white space. -/
inductive Resembles : Text → Text → Prop
  | nil : Resembles [] []
  | closed (u : Text) : Resembles [] (')' :: u)
  | blank {c : Char} {t u : Text} : isBlank c = true → Halts u → Resembles (c :: t) u
  | solid {c : Char} {t u : Text} : isBlank c = false →
      variableAt (c :: t) = variableAt (c :: u) →
      (operatorAt? (c :: t) = none → operatorAt? (c :: u) = none) → Resembles (c :: t) (c :: u)

theorem Halts.of_mem_head? {u : Text} (h : Halts u) {c : Char} (hc : c ∈ u.head?) :
    c = ' ' ∨ c = ',' ∨ c = ')' := by
  cases u with
  | nil => cases hc
  | cons d u =>
      cases hc
      exact h

theorem Halts.not_isNameChar {u : Text} (h : Halts u) {c : Char} (hc : c ∈ u.head?) :
    isNameChar c = false := by
  rcases h.of_mem_head? hc with rfl | rfl | rfl <;> rfl

theorem variableAt_cons {c : Char} {t u : Text}
    (h : ∀ d ∈ t.head?, isNameChar d = false) (hu : ∀ d ∈ u.head?, isNameChar d = false) :
    variableAt (c :: t) = variableAt (c :: u) := by
  have hnone {t : Text} (h : ∀ d ∈ t.head?, isNameChar d = false) :
      variableAt (c :: t) = false := by
    by_contra hvariable
    obtain ⟨d, rest, heq, hd⟩ := variableAt_eq_true (Bool.not_eq_false _ ▸ hvariable)
    obtain ⟨-, rfl⟩ := List.cons.inj heq
    cases (h d rfl).symm.trans hd
  rw [hnone h, hnone hu]

theorem variableAt_cons_cons (c d : Char) (t u : Text) :
    variableAt (c :: d :: t) = variableAt (c :: d :: u) := by
  by_cases hc : c = '@'
  · subst hc
    rfl
  · rw [variableAt_of_ne hc, variableAt_of_ne hc]

theorem not_isBlank_of_isQuote {c : Char} (h : isQuote c = true) : isBlank c = false := by
  refine Bool.eq_false_iff.mpr fun hblank => ?_
  cases h.symm.trans (not_isQuote_of_isBlank hblank)

theorem not_isNameChar_of_isBlank {c : Char} (h : isBlank c = true) : isNameChar c = false := by
  refine Bool.eq_false_iff.mpr fun hname => ?_
  cases h.symm.trans (isBlank_of_isNameChar hname)

namespace Resembles

variable {t u : Text}

theorem head (h : Resembles t u) : u.head? = t.head? ∨ Halts u := by
  cases h with
  | nil => exact .inl rfl
  | closed => exact .inr (.inr (.inr rfl))
  | blank _ hu => exact .inr hu
  | solid => exact .inl rfl

theorem starts (h : Resembles t u) (ht : Starts t) : Starts u := by
  cases h with
  | nil => exact ht
  | closed =>
      rintro _ ⟨⟩
      rfl
  | blank hc => cases hc.symm.trans (ht _ rfl)
  | solid hc =>
      rintro _ ⟨⟩
      exact hc

theorem begins (h : Resembles t u) (ht : Begins t) : Begins u := by
  cases h with
  | nil | closed => exact ht.elim
  | blank hc => cases hc.symm.trans ht.1
  | solid => exact ht

theorem operatorAt? (h : Resembles t u) (ht : Begins t) (ho : Token.operatorAt? t = none) :
    Token.operatorAt? u = none := by
  cases h with
  | nil | closed => exact ht.elim
  | blank hc => cases hc.symm.trans ht.1
  | solid _ _ hnone => exact hnone ho

theorem endsWord (h : Resembles t u) (ht : Token.endsWord t = true) : Token.endsWord u = true := by
  cases h with
  | nil => rfl
  | closed => rfl
  | blank _ hu => exact hu.endsWord
  | solid _ hvariable => simpa [Token.endsWord, hvariable] using ht

theorem halts (h : Resembles t u) (ht : endsTerm t = true) : Halts u := by
  cases h with
  | nil => trivial
  | closed => exact .inr (.inr rfl)
  | blank _ hu => exact hu
  | solid => exact .inr (by simpa [endsTerm] using ht)

/-- Both go on in the same way behind the same character. -/
theorem cons (h : Resembles t u) {c : Char} (hc : isBlank c = false) :
    Resembles (c :: t) (c :: u) := by
  cases h with
  | nil => exact .solid hc rfl id
  | closed u =>
      exact .solid hc (variableAt_cons nofun fun _ hd => by cases hd; rfl)
        fun _ => operatorAt?_eq_none (.inr fun _ _ heq => by cases heq; rfl)
  | @blank d t u hd hu =>
      refine .solid hc (variableAt_cons (fun _ hd' => ?_) fun _ => hu.not_isNameChar) fun ho => ?_
      · cases hd'
        exact not_isNameChar_of_isBlank hd
      · rw [Token.operatorAt?, if_pos hd] at ho
        exact operatorAt?_eq_none (.inl ho)
  | @solid d t u hd =>
      refine .solid hc (variableAt_cons_cons c d t u) fun _ => operatorAt?_eq_none (.inr ?_)
      rintro _ _ ⟨⟩
      exact hd

theorem append (h : Resembles t u) {c : Char} (hc : isBlank c = false) (w : Text) :
    Resembles (c :: w ++ t) (c :: w ++ u) := by
  cases w with
  | nil => exact h.cons hc
  | cons d w => exact .solid hc (variableAt_cons_cons c d _ _) (by simp [Token.operatorAt?])

theorem variableAt_append (h : Resembles t u) {c : Char} (hc : isBlank c = false) (w : Text) :
    variableAt (c :: (w ++ t)) = variableAt (c :: (w ++ u)) := by
  cases h.append hc w with
  | blank hblank => cases hc.symm.trans hblank
  | solid _ hvariable => exact hvariable

end Resembles

/-- What begins neither a variable nor an operator may be followed by anything. -/
theorem resembles_of_ne {c : Char} (hc : isBlank c = false) (hne : c ≠ '@')
    (ho : Operator.ofChar? c = none) (t u : Text) : Resembles (c :: t) (c :: u) := by
  refine .solid hc ?_ fun _ => operatorAt?_eq_none (.inl ho)
  rw [variableAt_of_ne hne, variableAt_of_ne hne]

/-! ## Reading what is written -/

theorem wordRest_cases {c : Char} {w t : Text} (h : wordRest (c :: w ++ t) = (c :: w, t)) :
    endsWord (c :: w ++ t) = false ∧ wordRest (w ++ t) = (w, t) := by
  rw [List.cons_append, wordRest] at h
  split at h
  · cases congrArg Prod.fst h
  · rename_i hends
    obtain ⟨hfst, hsnd⟩ := Prod.ext_iff.mp h
    exact ⟨by simpa using hends, Prod.ext (List.cons.inj hfst).2 hsnd⟩

theorem endsWord_of_wordRest {t : Text} (h : wordRest t = ([], t)) : endsWord t = true := by
  cases t with
  | nil => rfl
  | cons c t =>
      rw [wordRest] at h
      split at h
      · assumption
      · cases congrArg Prod.fst h

/-- The inside of a word. -/
theorem wordRest_chars {w t : Text} (h : wordRest (w ++ t) = (w, t)) :
    ∀ c ∈ w, isBlank c = false ∧ IsInert c := by
  induction w with
  | nil => exact nofun
  | cons c w ih =>
      obtain ⟨hends, hrest⟩ := wordRest_cases h
      refine List.forall_mem_cons.mpr ⟨?_, ih hrest⟩
      simp only [List.cons_append, endsWord, Bool.or_eq_false_iff, beq_eq_false_iff_ne] at hends
      simp [hends, isQuote, IsInert]

/-- A word ends where the text that resembles it goes on. -/
theorem Resembles.wordRest {t u : Text} (h : Resembles t u) {w : Text}
    (hw : wordRest (w ++ t) = (w, t)) : Token.wordRest (w ++ u) = (w, u) := by
  induction w with
  | nil =>
      have hends := h.endsWord (endsWord_of_wordRest hw)
      cases u with
      | nil => rfl
      | cons c u => rw [List.nil_append, Token.wordRest, if_pos hends]
  | cons c w ih =>
      obtain ⟨hends, hrest⟩ := wordRest_cases hw
      have hc := (wordRest_chars hw c (.head _)).1
      have hends' : Token.endsWord (c :: w ++ u) = false := by
        rw [List.cons_append, Token.endsWord] at hends ⊢
        rwa [← h.variableAt_append hc w]
      rw [List.cons_append, Token.wordRest, ← List.cons_append, hends', ih hrest]
      rfl

theorem BeginsWord.congr {nested first : Bool} {c : Char} {w t u : Text}
    (hbegins : BeginsWord nested first c (w ++ t)) (h : Resembles t u) :
    BeginsWord nested first c (w ++ u) := by
  have hsolid := hbegins.solid
  have hoperator : operatorAt? (c :: (w ++ t)) = none → operatorAt? (c :: (w ++ u)) = none := by
    cases h.append hsolid w with
    | blank hc => cases hsolid.symm.trans hc
    | solid _ _ hoperator => exact hoperator
  exact { hbegins with
    not_variable := h.variableAt_append hsolid w ▸ hbegins.not_variable
    not_operator := fun hfirst => hoperator (hbegins.not_operator hfirst) }

/-- The name of a call leads into no string. -/
theorem BeginsWord.run_name {nested first : Bool} {c : Char} {w t : Text}
    (hbegins : BeginsWord nested first c (w ++ t)) (hword : wordRest (w ++ t) = (w, t)) :
    Quoting.run .outside (c :: w) = .outside :=
  Text.run_of_plain (List.forall_mem_cons.mpr
    ⟨hbegins.not_quote, fun b hb => (wordRest_chars hword b hb).2.1⟩)

namespace Chunk

variable {nested first : Bool} {passed t u : Text} {token : Token}

theorem resembles (h : Chunk nested false passed token t) (hu : Resembles t u) :
    Resembles (passed ++ t) (token.text ++ u) := by
  cases h with
  | space hblanks =>
      obtain ⟨c, rest, rfl, hc, -⟩ := hblanks.exists_cons
      exact .blank hc (.inl rfl)
  | operator hbefore =>
      obtain ⟨c, rest, rfl, hc, -⟩ := hbefore.exists_cons
      exact .blank hc (.inl rfl)
  | leading hfirst => cases hfirst
  | @comma blanks =>
      cases blanks <;> exact resembles_of_ne rfl (by decide) rfl _ _
  | reference => exact hu.append rfl _
  | string hmark | openString hmark => exact hu.append (not_isBlank_of_isQuote hmark) _
  | word hbegins => exact hu.append hbegins.solid _

/-- A token is read from what is written for it, if no string is left open in what it was read
from. -/
theorem written (h : Chunk nested first passed token t)
    (hclosed : Quoting.run .outside passed = .outside) (hu : Resembles t u) :
    Chunk nested first token.text token u := by
  cases h with
  | space hblanks hbegins ho =>
      exact .space .single (hu.begins hbegins) (hu.operatorAt? hbegins ho)
  | operator _ _ ht | leading _ _ ht => exact .operator .single .single (hu.starts ht)
  | @comma blanks _ _ ht =>
      cases blanks with
      | nil => exact .comma (List.forall_mem_nil _) (hu.starts ht)
      | cons => exact .comma IsBlanks.single.2 (hu.starts ht)
  | reference hne hname ht =>
      refine .reference hne hname fun c hc => ?_
      rcases hu.head with hhead | hhalts
      · exact ht c (hhead ▸ hc)
      · exact hhalts.not_isNameChar hc
  | string hmark hcloses => exact .string hmark hcloses
  | openString hmark _ hopen =>
      rw [Quoting.run_cons, Quoting.step, hmark] at hclosed
      exact (hopen hclosed).elim
  | word hbegins hword hopen =>
      refine .word (hbegins.congr hu) (hu.wordRest hword) fun hopen' => ?_
      rcases hu.head with hhead | hhalts
      · exact hopen (hhead ▸ hopen')
      · rcases hhalts.of_mem_head? hopen' with hc | hc | hc <;> cases hc

/-- Only a word can have what matters to a scan. -/
theorem isInert (h : Chunk nested first passed token t) (hword : ∀ w, token ≠ .word w) :
    ∀ c ∈ passed, IsInert c := by
  cases h with
  | space hblanks => exact fun c hc => isInert_of_isBlank (hblanks.2 c hc)
  | @operator o before after _ hbefore hafter =>
      refine List.forall_mem_append.mpr ⟨fun c hc => isInert_of_isBlank (hbefore.2 c hc), ?_⟩
      exact List.forall_mem_cons.mpr
        ⟨o.isInert_char, fun c hc => isInert_of_isBlank (hafter.2 c hc)⟩
  | @leading o after _ _ hafter =>
      exact List.forall_mem_cons.mpr
        ⟨o.isInert_char, fun c hc => isInert_of_isBlank (hafter.2 c hc)⟩
  | comma hblanks =>
      exact List.forall_mem_cons.mpr
        ⟨by decide, fun c hc => isInert_of_isBlank (hblanks c hc)⟩
  | reference _ hname =>
      exact List.forall_mem_cons.mpr
        ⟨by decide, fun c hc => isInert_of_isNameChar (hname c hc)⟩
  | string | openString | word => exact (hword _ rfl).elim

/-- A token does not end in a string, unless the text does. -/
theorem closed (h : Chunk nested first passed token t)
    (hclosed : Quoting.run .outside (passed ++ t) = .outside) :
    Quoting.run .outside passed = .outside := by
  have hinert := h.isInert
  cases h with
  | string hmark hcloses =>
      rw [Quoting.run_cons, Quoting.step, hmark]
      exact run_of_closes hmark hcloses
  | openString => rwa [List.append_nil] at hclosed
  | word hbegins hword =>
      exact hbegins.run_name hword
  | space | operator | leading | comma | reference =>
      exact Text.run_of_plain fun c hc => (hinert (by simp) c hc).1

theorem closed_rest (h : Chunk nested first passed token t)
    (hclosed : Quoting.run .outside (passed ++ t) = .outside) :
    Quoting.run .outside t = .outside := by
  have hpassed := h.closed hclosed
  rwa [Quoting.run_append, hpassed] at hclosed

end Chunk

/-- What is written behind the tokens. -/
def closing (nested : Bool) : Text := if nested then [')'] else []

namespace Lexes

variable {nested first : Bool} {t rest : Text} {tokens : List Token} {n : Nat}

theorem closed (h : Lexes nested first t tokens rest n)
    (hclosed : Quoting.run .outside t = .outside) : Quoting.run .outside rest = .outside := by
  induction h with
  | done | close => exact hclosed
  | silent hblanks _ _ _ ih =>
      rw [hblanks.run_append] at hclosed
      exact ih hclosed
  | chunk hchunk _ ih => exact ih (hchunk.closed_rest hclosed)
  | group _ _ ih ih' => exact ih' (ih hclosed)
  | call hbegins hword _ _ ih ih' =>
      rw [Quoting.run_append, hbegins.run_name hword] at hclosed
      exact ih' (ih hclosed)

/-- What is written for a text resembles it, and it is read turn by turn like the text. -/
theorem written (h : Lexes nested first t tokens rest n)
    (hclosed : Quoting.run .outside t = .outside) :
    ∀ tail : Text, (nested = false → tail = []) →
      (first = false → Resembles t (textOf tokens ++ closing nested ++ tail)) ∧
        ∃ m, Lexes nested first (textOf tokens ++ closing nested ++ tail) tokens tail m := by
  induction h with
  | @done nested first =>
      intro tail htail
      cases nested with
      | true => exact ⟨fun _ => .closed tail, _, .close⟩
      | false =>
          rw [htail rfl]
          exact ⟨fun _ => .nil, _, .done⟩
  | close => exact fun tail _ => ⟨fun _ => resembles_of_ne rfl (by decide) rfl _ _, _, .close⟩
  | silent hblanks _ hends _ ih =>
      intro tail htail
      rw [hblanks.run_append] at hclosed
      obtain ⟨hresembles, hlexes⟩ := ih hclosed tail htail
      obtain ⟨c, blanks, rfl, hc, -⟩ := hblanks.exists_cons
      exact ⟨fun hfirst => .blank hc ((hresembles hfirst).halts hends), hlexes⟩
  | @chunk nested first passed t rest token tokens n hchunk _ ih =>
      intro tail htail
      obtain ⟨hresembles, m, hlexes⟩ := ih (hchunk.closed_rest hclosed) tail htail
      have hwritten := hchunk.written (hchunk.closed hclosed) (hresembles rfl)
      rw [textOf, List.append_assoc, List.append_assoc, ← List.append_assoc (textOf tokens)]
      refine ⟨fun hfirst => ?_, _, .chunk hwritten hlexes⟩
      subst hfirst
      exact hchunk.resembles (hresembles rfl)
  | @group nested first t middle rest inside tokens m n hinside _ ih ih' =>
      intro tail htail
      obtain ⟨-, m', hlexes'⟩ := ih' (hinside.closed hclosed) tail htail
      obtain ⟨-, m, hlexes⟩ := ih hclosed (textOf tokens ++ closing nested ++ tail)
        (fun hnested => by cases hnested)
      rw [show textOf (Token.group inside :: tokens) ++ closing nested ++ tail =
        '(' :: (textOf inside ++ closing true ++ (textOf tokens ++ closing nested ++ tail)) by
          simp [textOf, text, closing]]
      exact ⟨fun _ => resembles_of_ne rfl (by decide) rfl _ _, _, .group hlexes hlexes'⟩
  | @call nested first c w t middle rest inside tokens m n hbegins hword hinside _ ih ih' =>
      intro tail htail
      rw [Quoting.run_append, hbegins.run_name hword] at hclosed
      obtain ⟨-, m', hlexes'⟩ := ih' (hinside.closed hclosed) tail htail
      obtain ⟨-, m, hlexes⟩ := ih hclosed (textOf tokens ++ closing nested ++ tail)
        (fun hnested => by cases hnested)
      rw [show textOf (Token.call (c :: w) inside :: tokens) ++ closing nested ++ tail =
        c :: w ++ '(' ::
          (textOf inside ++ closing true ++ (textOf tokens ++ closing nested ++ tail)) by
          simp [textOf, text, closing]]
      have hresembles (u : Text) : Resembles ('(' :: t) ('(' :: u) :=
        resembles_of_ne rfl (by decide) rfl t u
      exact ⟨fun _ => (hresembles _).append hbegins.solid w, _,
        .call (hbegins.congr (hresembles _)) ((hresembles _).wordRest hword) hlexes hlexes'⟩

end Lexes

/-! ## What is written apart from white space -/

/-- Nothing but parentheses changes how deep a scan is, outside strings. -/
theorem run_of_isInert {t : Text} (h : ∀ c ∈ t, IsInert c) (d : Nat) :
    Nesting.run ⟨d, .outside⟩ t = ⟨d, .outside⟩ := by
  induction t with
  | nil => rfl
  | cons c t ih =>
      obtain ⟨hc, ht⟩ := List.forall_mem_cons.mp h
      rw [Nesting.run_cons, Nesting.step_of_isInert hc rfl, ih ht]

theorem step_of_inside (d : Nat) (mark : Char) (escaped : Bool) (c : Char) :
    Nesting.step ⟨d, .inside mark escaped⟩ c = ⟨d, Quoting.step (.inside mark escaped) c⟩ := by
  cases escaped with
  | true => rfl
  | false =>
      simp only [Nesting.step, Quoting.step]
      split
      · rfl
      · split <;> rfl

/-- Nor does a closed string. -/
theorem run_of_string {mark : Char} (hmark : isQuote mark = true) (d : Nat) {s : Text} :
    ∀ {escaped : Bool}, closes mark escaped s = true →
      Nesting.run ⟨d, .inside mark escaped⟩ s = ⟨d, .outside⟩ := by
  induction s with
  | nil => exact fun h => by cases h
  | cons c s ih =>
      intro escaped h
      have houtside := run_of_closes hmark h
      rw [closes] at h
      rw [Nesting.run_cons, step_of_inside]
      split at h
      · obtain rfl := List.isEmpty_iff.mp h
        exact congrArg (Nesting.mk d) houtside
      · rename_i hopen
        rw [step_inside (Bool.eq_false_iff.mpr hopen)]
        exact ih h

/-- A `)` that closes nothing is part of a word, and no scan counts it. -/
theorem BeginsWord.depth {nested first : Bool} {c : Char} {w t : Text}
    (hbegins : BeginsWord nested first c (w ++ t)) (hword : wordRest (w ++ t) = (w, t)) {d : Nat}
    (hd : nested = false → d = 0) : Nesting.run ⟨d, .outside⟩ (c :: w) = ⟨d, .outside⟩ := by
  have hinert (b : Char) (hb : b ∈ w) := (wordRest_chars hword b hb).2
  by_cases hclose : c = ')'
  · obtain rfl : d = 0 := by
      refine hd (Bool.eq_false_iff.mpr fun hnested => hbegins.not_close hnested hclose)
    rw [hclose]
    exact run_of_isInert hinert 0
  · exact run_of_isInert (List.forall_mem_cons.mpr
      ⟨⟨hbegins.not_quote, hbegins.not_open, hclose⟩, hinert⟩) d

namespace Chunk

variable {nested first : Bool} {passed t : Text} {token : Token}

/-- White space around one character. -/
theorem stripped_around {before after : Text} {c : Char} (hbefore : ∀ b ∈ before, isBlank b = true)
    (hafter : ∀ b ∈ after, isBlank b = true) (hquote : isQuote c = false) (hc : isBlank c = false) :
    (before ++ c :: after).stripped = [c] := by
  have hclosed := Text.run_of_plain fun b hb => not_isQuote_of_isBlank (hbefore b hb)
  rw [Text.stripped_append hclosed, Text.stripped_blanks hbefore, Text.stripped_cons hquote hc,
    Text.stripped_blanks hafter]
  rfl

theorem text_stripped (h : Chunk nested first passed token t) :
    token.text.stripped = passed.stripped := by
  have hspace : ∀ b ∈ [' '], isBlank b = true := IsBlanks.single.2
  cases h with
  | space hblanks => exact (Text.stripped_blanks hspace).trans (Text.stripped_blanks hblanks.2).symm
  | @operator o before after _ hbefore hafter =>
      have ho := o.isInert_char.1
      rw [stripped_around hbefore.2 hafter.2 ho o.isBlank_char]
      exact stripped_around hspace hspace ho o.isBlank_char
  | @leading o after _ _ hafter =>
      have ho := o.isInert_char.1
      refine Eq.trans ?_ (stripped_around (List.forall_mem_nil _) hafter.2 ho o.isBlank_char).symm
      exact stripped_around hspace hspace ho o.isBlank_char
  | @comma blanks _ hblanks =>
      refine Eq.trans ?_ (stripped_around (List.forall_mem_nil _) hblanks rfl rfl).symm
      cases blanks <;> rfl
  | reference | string | openString | word => rfl

theorem text_closed (h : Chunk nested first passed token t)
    (hclosed : Quoting.run .outside passed = .outside) :
    Quoting.run .outside token.text = .outside := by
  cases h with
  | space => rfl
  | @operator o | @leading o => cases o <;> rfl
  | @comma blanks => cases blanks <;> rfl
  | reference | string | openString | word => exact hclosed

/-- A token that has no tokens inside changes nothing of how deep a scan is. -/
theorem depth (h : Chunk nested first passed token t)
    (hclosed : Quoting.run .outside passed = .outside) {d : Nat} (hd : nested = false → d = 0) :
    Nesting.run ⟨d, .outside⟩ passed = ⟨d, .outside⟩ := by
  have hinert := h.isInert
  cases h with
  | @string mark s _ hmark hcloses =>
      have hstep : Nesting.step ⟨d, .outside⟩ mark = ⟨d, .inside mark false⟩ := by
        have hmark' : (mark = '"' || mark = '\'') = true := by simpa [isQuote] using hmark
        rw [Nesting.step, if_pos hmark']
      rw [Nesting.run_cons, hstep]
      exact run_of_string hmark d hcloses
  | openString hmark _ hopen =>
      rw [Quoting.run_cons, Quoting.step, hmark] at hclosed
      exact (hopen hclosed).elim
  | word hbegins hword => exact hbegins.depth hword hd
  | space | operator | leading | comma | reference => exact run_of_isInert (hinert (by simp)) d

end Chunk

section Parentheses

variable {u : Text}

theorem run_parentheses (h : Quoting.run .outside u = .outside) (v : Text) :
    Quoting.run .outside ('(' :: u ++ [')'] ++ v) = Quoting.run .outside v := by
  rw [Quoting.run_append, Quoting.run_append, Quoting.run_cons]
  show Quoting.run (Quoting.run (Quoting.run .outside u) [')']) v = _
  rw [h]
  rfl

theorem stripped_parentheses (h : Quoting.run .outside u = .outside) (v : Text) :
    Text.stripped ('(' :: u ++ [')'] ++ v) = '(' :: (u.stripped ++ ')' :: v.stripped) := by
  rw [List.append_assoc, List.cons_append, Text.stripped_cons rfl rfl, Text.stripped_append h]
  exact congrArg ('(' :: u.stripped ++ ·) (Text.stripped_cons rfl rfl v)

end Parentheses

namespace Lexes

variable {nested first : Bool} {t rest : Text} {tokens : List Token} {n : Nat}

theorem closed_textOf (h : Lexes nested first t tokens rest n)
    (hclosed : Quoting.run .outside t = .outside) :
    Quoting.run .outside (textOf tokens) = .outside := by
  induction h with
  | done | close => rfl
  | silent hblanks _ _ _ ih =>
      rw [hblanks.run_append] at hclosed
      exact ih hclosed
  | chunk hchunk _ ih =>
      rw [textOf, Quoting.run_append, hchunk.text_closed (hchunk.closed hclosed)]
      exact ih (hchunk.closed_rest hclosed)
  | group hinside _ ih ih' =>
      rw [textOf, text, run_parentheses (ih hclosed)]
      exact ih' (hinside.closed hclosed)
  | call hbegins hword hinside _ ih ih' =>
      have hname := hbegins.run_name hword
      rw [Quoting.run_append, hname] at hclosed
      rw [textOf, text, List.append_assoc, List.append_assoc, Quoting.run_append, hname,
        ← List.append_assoc, run_parentheses (ih hclosed)]
      exact ih' (hinside.closed hclosed)

end Lexes

/-- What is written for tokens differs from what was passed for them by white space and by the
parentheses that are still open at the end of the text. -/
structure Balances (nested : Bool) (depth opened : Nat) (tokens : List Token) (t rest : Text) :
    Prop where
  atEnd : opened = 0 ∨ rest = []
  stripped : (textOf tokens).stripped ++ (closing nested ++ rest.stripped) =
    t.stripped ++ List.replicate opened ')'
  depth : Nesting.run ⟨depth + nested.toNat, .outside⟩ t =
    Nesting.run ⟨depth + opened, .outside⟩ rest

namespace Balances

variable {nested : Bool} {d k k' : Nat} {token : Token} {inside tokens : List Token}
  {passed t middle rest : Text}

theorem silent (h : Balances nested d k tokens t rest) {blanks : Text} (hblanks : IsBlanks blanks) :
    Balances nested d k tokens (blanks ++ t) rest where
  atEnd := h.atEnd
  stripped := by
    have hclosed := Text.run_of_plain fun c hc => (isInert_of_isBlank (hblanks.2 c hc)).1
    rw [Text.stripped_append hclosed, Text.stripped_blanks hblanks.2]
    exact h.stripped
  depth := by
    rw [Nesting.run_append, run_of_isInert fun c hc => isInert_of_isBlank (hblanks.2 c hc)]
    exact h.depth

theorem chunk (h : Balances nested d k tokens t rest) {first : Bool}
    (hchunk : Chunk nested first passed token t)
    (hclosed : Quoting.run .outside passed = .outside) (hd : nested = false → d = 0) :
    Balances nested d k (token :: tokens) (passed ++ t) rest where
  atEnd := h.atEnd
  stripped := by
    rw [textOf, Text.stripped_append (hchunk.text_closed hclosed), hchunk.text_stripped,
      List.append_assoc, h.stripped, Text.stripped_append hclosed, List.append_assoc]
  depth := by
    rw [Nesting.run_append, hchunk.depth hclosed, h.depth]
    rintro rfl
    exact hd rfl

/-- What is open inside is open outside. If anything is, nothing follows. -/
theorem group (h : Balances true (d + nested.toNat) k inside t middle)
    (h' : Balances nested d k' tokens middle rest) (hmiddle : middle = [] → rest = [])
    (hclosed : Quoting.run .outside (textOf inside) = .outside) :
    Balances nested d (k + k') (.group inside :: tokens) ('(' :: t) rest where
  atEnd := by
    rcases h.atEnd with rfl | hnil
    · simpa using h'.atEnd
    · exact .inr (hmiddle hnil)
  stripped := by
    have hinside : (textOf inside).stripped ++ ')' :: middle.stripped =
        t.stripped ++ List.replicate k ')' := h.stripped
    have hboth : (textOf inside).stripped ++ ')' :: (middle.stripped ++ List.replicate k' ')') =
        t.stripped ++ List.replicate (k + k') ')' := by
      calc
        _ = ((textOf inside).stripped ++ ')' :: middle.stripped) ++ List.replicate k' ')' := by simp
        _ = t.stripped ++ (List.replicate k ')' ++ List.replicate k' ')') := by
          rw [hinside, List.append_assoc]
        _ = _ := by rw [List.replicate_append_replicate]
    rw [textOf, text, stripped_parentheses hclosed, Text.stripped_cons rfl rfl, List.cons_append,
      List.append_assoc, List.cons_append, h'.stripped, hboth]
    rfl
  depth := by
    show Nesting.run ⟨d + nested.toNat + 1, .outside⟩ t = _
    refine h.depth.trans ?_
    rcases h.atEnd with rfl | rfl
    · rw [Nat.zero_add]
      exact h'.depth
    · obtain rfl := hmiddle rfl
      have hdepth := congrArg Nesting.depth h'.depth
      simp only [Nesting.run_nil] at hdepth ⊢
      rw [show d + nested.toNat + k = d + (k + k') by omega]

theorem call (h : Balances nested d k (.group inside :: tokens) ('(' :: t) rest) {name : Text}
    (hclosed : Quoting.run .outside name = .outside)
    (hdepth : Nesting.run ⟨d + nested.toNat, .outside⟩ name = ⟨d + nested.toNat, .outside⟩) :
    Balances nested d k (.call name inside :: tokens) (name ++ '(' :: t) rest where
  atEnd := h.atEnd
  stripped := by
    rw [show textOf (.call name inside :: tokens) = name ++ textOf (.group inside :: tokens) by
      simp [textOf, text], Text.stripped_append hclosed, Text.stripped_append hclosed,
      List.append_assoc, h.stripped, List.append_assoc]
  depth := by
    rw [Nesting.run_append, hdepth]
    exact h.depth

end Balances

namespace Lexes

variable {nested first : Bool} {t rest : Text} {tokens : List Token} {n : Nat}

theorem exists_balances (h : Lexes nested first t tokens rest n)
    (hclosed : Quoting.run .outside t = .outside) :
    ∀ d, (nested = false → d = 0) → ∃ opened, Balances nested d opened tokens t rest := by
  induction h with
  | @done nested first =>
      intro d hd
      cases nested with
      | true => exact ⟨1, .inr rfl, rfl, rfl⟩
      | false => exact ⟨0, .inl rfl, rfl, rfl⟩
  | @close first t =>
      refine fun d _ => ⟨0, .inl rfl, ?_, rfl⟩
      rw [Text.stripped_cons rfl rfl, List.replicate_zero, List.append_nil]
      rfl
  | @silent nested first blanks t rest tokens n hblanks _ _ _ ih =>
      intro d hd
      rw [hblanks.run_append] at hclosed
      obtain ⟨opened, h⟩ := ih hclosed d hd
      exact ⟨opened, h.silent hblanks⟩
  | @chunk nested first passed t rest token tokens n hchunk _ ih =>
      intro d hd
      obtain ⟨opened, h⟩ := ih (hchunk.closed_rest hclosed) d hd
      exact ⟨opened, h.chunk hchunk (hchunk.closed hclosed) hd⟩
  | group hinside houter ih ih' =>
      intro d hd
      obtain ⟨_, h⟩ := ih hclosed _ nofun
      obtain ⟨_, h'⟩ := ih' (hinside.closed hclosed) d hd
      exact ⟨_, h.group h' houter.rest_of_nil (hinside.closed_textOf hclosed)⟩
  | call hbegins hword hinside houter ih ih' =>
      intro d hd
      have hname := hbegins.run_name hword
      rw [Quoting.run_append, hname] at hclosed
      obtain ⟨_, h⟩ := ih hclosed _ nofun
      obtain ⟨_, h'⟩ := ih' (hinside.closed hclosed) d hd
      have hgroup := h.group h' houter.rest_of_nil (hinside.closed_textOf hclosed)
      exact ⟨_, hgroup.call hname (hbegins.depth hword (by rintro rfl; exact hd rfl))⟩

end Lexes

section

variable {t : Text}

/-- What is written for the tokens of a text has the same tokens. -/
theorem ofText_textOf (hclosed : Quoting.run .outside t = .outside) :
    ofText (textOf (ofText t)) = ofText t := by
  obtain ⟨n, -, h⟩ := exists_lexes_ofText t
  obtain ⟨-, m, hwritten⟩ := h.written hclosed [] fun _ => rfl
  rw [closing, if_neg Bool.false_ne_true, List.append_nil, List.append_nil] at hwritten
  show (scan false true (textOf (ofText t))).val.1 = ofText t
  rw [hwritten.scan_eq]

theorem stripped_textOf (hclosed : Quoting.run .outside t = .outside) :
    (textOf (ofText t)).stripped = t.stripped ++ List.replicate (Nesting.top.run t).depth ')' := by
  obtain ⟨n, -, h⟩ := exists_lexes_ofText t
  obtain ⟨opened, hbalances⟩ := h.exists_balances hclosed 0 fun _ => rfl
  have hopened : (Nesting.top.run t).depth = opened := by
    simpa [Nesting.top] using congrArg Nesting.depth hbalances.depth
  rw [hopened, ← hbalances.stripped]
  simp [closing, Text.stripped, Text.strippedFrom]

end

/-- Reading ends after as many turns as the text has characters, whatever it is. If its strings
are closed, what is written for its tokens is read as the same tokens again and is the text but
for white space outside strings, with a `)` for each parenthesis that the text leaves open. -/
theorem normalForm (t : Text) :
    (∃ n ≤ t.length, Lexes false true t (ofText t) [] n) ∧
      (Quoting.run .outside t = .outside →
        ofText (textOf (ofText t)) = ofText t ∧
          (textOf (ofText t)).stripped =
            t.stripped ++ List.replicate (Nesting.top.run t).depth ')') :=
  ⟨exists_lexes_ofText t, fun hclosed => ⟨ofText_textOf hclosed, stripped_textOf hclosed⟩⟩

/-- Two parentheses are left open, and a string has white space of its own. -/
theorem normalForm_open :
    let t : Text := "a  +  (b ,c 'x  y' f(1 "
    Quoting.run .outside t = .outside ∧ ofText (textOf (ofText t)) = ofText t ∧
      (textOf (ofText t)).stripped = t.stripped ++ [')', ')'] := by
  intro t
  have hclosed : Quoting.run .outside t = .outside := by decide
  obtain ⟨hagain, hstripped⟩ := (normalForm t).2 hclosed
  exact ⟨hclosed, hagain, hstripped⟩

end Token

end Cascade
