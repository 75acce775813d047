import Cascade.Proofs.Braces
import Cascade.Proofs.Bytes
import Cascade.Proofs.Printing
import Cascade.Proofs.Resolution
import Cascade.Proofs.Steady
import Cascade.Proofs.Visible
import Cascade.Proofs.Words

/-!
# Plain style sheets

A plain style sheet uses nothing but what every reader of style sheets knows, and is laid
out in one way only: one rule or at-rule to a line, single spaces, and two more spaces
inside each block. `Plain.IsItems` is that form, as a property of the text.

The rest of the module is about the characters of such a text. All of it is calm: it has
no quotes, no parentheses and no slashes, and its only line ends are line feeds, so that
nothing in it is a string, a group or a comment and a search for a stop or a separator
finds the first there is. No prelude and no value has a character that ends a statement,
preludes are collapsed already, and a plain value is the text that it comes to in any scope.
-/

namespace Cascade

/-! ## Calm text -/

/-- A character that neither changes the nesting nor can begin a comment or a line end
that is spelled otherwise. -/
def isCalm (c : Char) : Bool := c ∉ ['/', '"', '\'', '(', ')', '\r', '\x0c']

theorem Nesting.step_of_isCalm {c : Char} (h : isCalm c = true) : step .top c = .top := by
  simp only [isCalm, decide_eq_true_eq, List.mem_cons, not_or] at h
  simp [step, top, h]

theorem isShown_of_isCalm {c : Char} (h : isCalm c = true) : IsShown c :=
  isShown_of ⟨rfl, rfl, rfl⟩ h

namespace Text

def IsCalm (t : Text) : Prop := ∀ c ∈ t, isCalm c = true

instance (t : Text) : Decidable (IsCalm t) := List.decidableBAll (fun c => isCalm c = true) t

namespace IsCalm

variable {t u : Text} {c : Char}

theorem nil : IsCalm [] := fun _ => List.not_mem_nil.elim

theorem append (h : IsCalm t) (h' : IsCalm u) : IsCalm (t ++ u) :=
  List.forall_mem_append.mpr ⟨h, h'⟩

theorem cons (hc : isCalm c = true) (h : IsCalm t) : IsCalm (c :: t) :=
  List.forall_mem_cons.mpr ⟨hc, h⟩

theorem of_cons (h : IsCalm (c :: t)) : isCalm c = true ∧ IsCalm t := List.forall_mem_cons.mp h

theorem run (h : IsCalm t) : Nesting.top.run t = .top := by
  induction t with
  | nil => rfl
  | cons c t ih =>
      obtain ⟨hc, ht⟩ := h.of_cons
      rw [Nesting.run_cons, Nesting.step_of_isCalm hc, ih ht]

theorem visible (h : IsCalm t) : Glyph.visible t = t := by
  have hshown : ∀ c ∈ t, IsShown c := fun c hc => isShown_of_isCalm (h c hc)
  have happend := Glyph.visibleFrom_append_of_isShown (s := .top) hshown []
  rwa [List.append_nil, show Glyph.visibleFrom (Nesting.top.run t) [] = [] from rfl,
    List.append_nil] at happend

/-- There is no group at the end. -/
theorem lastGroup?_eq_none (h : IsCalm t) : lastGroup? t = none := by
  unfold lastGroup?
  split
  · rename_i hreverse
    have hclose : ')' ∈ t := List.mem_reverse.mp (hreverse ▸ List.mem_cons_self ..)
    cases h _ hclose
  · rfl

end IsCalm

end Text

namespace Plain

/-! ## The form -/

/-- Among the characters beyond ASCII are the letters and digits of all other alphabets.
Those that are not white space will do. -/
def isBeyond (c : Char) : Bool := 0x80 ≤ c.toNat && !isBlank c

/-- A word of letters, digits, hyphens, underscores and the given marks. -/
structure IsWord (marks w : Text) : Prop where
  ne_nil : w ≠ []
  chars : ∀ c ∈ w, isNameChar c = true ∨ isBeyond c = true ∨ c ∈ marks

instance (marks w : Text) : Decidable (IsWord marks w) :=
  have := List.decidableBAll
    (fun c => isNameChar c = true ∨ isBeyond c = true ∨ c ∈ marks) w
  decidable_of_iff (w ≠ [] ∧ ∀ c ∈ w, isNameChar c = true ∨ isBeyond c = true ∨ c ∈ marks)
    ⟨fun h => ⟨h.1, h.2⟩, fun h => ⟨h.ne_nil, h.chars⟩⟩

def selectorMarks : Text := ['.', '#', '*', '>', '+', '~', ':']

def valueMarks : Text := ['.', '#', '%', '!']

/-- A selector, of words with single spaces between them. -/
def IsSelector (t : Text) : Prop :=
  ∃ words, words ≠ [] ∧ (∀ w ∈ words, IsWord selectorMarks w) ∧ t = Text.join [' '] words

/-- A list of selectors, at least one. -/
def IsSelectors (t : Text) : Prop :=
  ∃ selectors, selectors ≠ [] ∧ (∀ s ∈ selectors, IsSelector s) ∧
    t = Text.join [',', ' '] selectors

/-- A value, of words with a space or a comma and a space between them. A hyphen alone is
no word. -/
inductive IsValue : Text → Prop
  | word {w : Text} : IsWord valueMarks w → w ≠ ['-'] → IsValue w
  | space {t u : Text} : IsValue t → IsValue u → IsValue (t ++ ' ' :: u)
  | comma {t u : Text} : IsValue t → IsValue u → IsValue (t ++ ',' :: ' ' :: u)

/-- A line of declarations, at least one. -/
def IsDeclarations (t : Text) : Prop :=
  ∃ declarations : List Css.Declaration, declarations ≠ [] ∧
    (∀ d ∈ declarations, IsWord [] d.name ∧ IsValue d.value) ∧
    t = Text.join [' '] (declarations.map fun d => d.name ++ ':' :: ' ' :: d.value ++ [';'])

/-- An at-rule up to its block or its semicolon: a name other than `import` and `else`,
in any case, and words after it. -/
def IsHeading (t : Text) : Prop :=
  ∃ (name : Text) (words : List Text), name ≠ [] ∧ (∀ c ∈ name, isNameChar c = true) ∧
    name.map Char.toLower ≠ "import".toList ∧ name.map Char.toLower ≠ "else".toList ∧
    (∀ w ∈ words, w ≠ [] ∧ ∀ c ∈ w, isNameChar c = true ∨ c = '.') ∧
    t = Text.join [' '] (('@' :: name) :: words)

open Css.Node (line)

/-- Items that stand so far in, one after the other. -/
inductive IsItems : (indentation : Nat) → Text → Prop
  | nil {n : Nat} : IsItems n []
  | rule {n : Nat} {selectors declarations rest : Text} :
      IsSelectors selectors → IsDeclarations declarations → IsItems n rest →
      IsItems n (line n (selectors ++ " \x7b " ++ declarations ++ " \x7d") ++ rest)
  | directive {n : Nat} {heading rest : Text} :
      IsHeading heading → IsItems n rest → IsItems n (line n (heading ++ ";") ++ rest)
  | inline {n : Nat} {heading declarations rest : Text} :
      IsHeading heading → IsDeclarations declarations → IsItems n rest →
      IsItems n (line n (heading ++ " \x7b " ++ declarations ++ " \x7d") ++ rest)
  | block {n : Nat} {heading own inside rest : Text} :
      IsHeading heading →
      own = [] ∨ (∃ declarations, IsDeclarations declarations ∧ own = line (n + 2) declarations) →
      inside ≠ [] → IsItems (n + 2) inside → IsItems n rest →
      IsItems n (line n (heading ++ " \x7b") ++ own ++ inside ++ line n "\x7d" ++ rest)

/-! ## Characters -/

/-- The signs that mean something wherever they stand. -/
def signs : Text := ['/', '"', '\'', '(', ')', ',', ';', '\x7b', '\x7d', '@']

/-- A character that is part of a word wherever it stands. -/
def IsMild (c : Char) : Prop := isBlank c = false ∧ c ∉ signs

instance (c : Char) : Decidable (IsMild c) := inferInstanceAs (Decidable (_ ∧ _))

namespace IsMild

variable {c : Char}

theorem of_isNameChar (h : isNameChar c = true) : IsMild c := by
  refine ⟨isBlank_of_isNameChar h, fun hmem => ?_⟩
  have hall : ∀ b ∈ signs, isNameChar b = false := Text.forall_mem_of_all (by decide)
  rw [hall c hmem] at h
  cases h

theorem of_isBeyond (h : isBeyond c = true) : IsMild c := by
  simp only [isBeyond, Bool.and_eq_true, decide_eq_true_eq, Bool.not_eq_true'] at h
  have hall : ∀ b ∈ signs, b.toNat < 0x80 := Text.forall_mem_of_all (by decide)
  exact ⟨h.2, fun hmem => Nat.not_lt.mpr h.1 (hall c hmem)⟩

theorem isCalm (h : IsMild c) : isCalm c = true := by
  have hall : ∀ b ∈ ['/', '"', '\'', '(', ')', '\r', '\x0c'], ¬IsMild b :=
    Text.forall_mem_of_all (by decide)
  exact decide_eq_true fun hmem => hall c hmem h

theorem ne (h : IsMild c) {b : Char} (hb : ¬IsMild b) : c ≠ b := fun heq => hb (heq ▸ h)

theorem ends (h : IsMild c) : Statement.ends c = false := by
  simp [Statement.ends, Statement.endsDefinition, h.ne (b := '\x7b') (by decide),
    h.ne (b := '\x7d') (by decide), h.ne (b := ';') (by decide)]

theorem isWordChar (h : IsMild c) : Token.isWordChar c = true := by
  simp [Token.isWordChar, h.1, h.ne (b := ',') (by decide), h.ne (b := '(') (by decide),
    h.ne (b := ')') (by decide), h.ne (b := '"') (by decide), h.ne (b := '\'') (by decide),
    h.ne (b := '@') (by decide)]

end IsMild

theorem IsWord.mild {marks w : Text} (hmarks : ∀ c ∈ marks, IsMild c) (h : IsWord marks w) :
    ∀ c ∈ w, IsMild c := by
  intro c hc
  rcases h.chars c hc with hname | hbeyond | hmark
  · exact .of_isNameChar hname
  · exact .of_isBeyond hbeyond
  · exact hmarks c hmark

/-- Nothing in the text ends a statement, nor hides the end of one. -/
def IsSmooth (t : Text) : Prop := ∀ c ∈ t, isCalm c = true ∧ Statement.ends c = false

namespace IsSmooth

variable {t u : Text}

theorem of_mild (h : ∀ c ∈ t, IsMild c ∨ c = ' ' ∨ c = ',') : IsSmooth t := by
  intro c hc
  rcases h c hc with hmild | rfl | rfl
  · exact ⟨hmild.isCalm, hmild.ends⟩
  · exact ⟨rfl, rfl⟩
  · exact ⟨rfl, rfl⟩

theorem append (h : IsSmooth t) (h' : IsSmooth u) : IsSmooth (t ++ u) :=
  List.forall_mem_append.mpr ⟨h, h'⟩

theorem calm (h : IsSmooth t) : t.IsCalm := fun c hc => (h c hc).1

end IsSmooth

/-! ## Selectors and headings -/

theorem mild_selectorMarks : ∀ c ∈ selectorMarks, IsMild c := Text.forall_mem_of_all (by decide)

theorem IsWord.solid {marks w : Text} (hmarks : ∀ c ∈ marks, IsMild c) (h : IsWord marks w) :
    w.IsSolid :=
  ⟨h.ne_nil, fun c hc => (h.mild hmarks c hc).1⟩

/-- What a prelude is to those who look for a condition at its end or a signature. -/
structure IsPrelude (t : Text) : Prop where
  smooth : IsSmooth t
  spaced : t.IsSpaced
  no_at : '@' ∉ t.tail
  ne_else : t ≠ "@else".toList

theorem IsSelector.spaced {t : Text} (h : IsSelector t) : t.IsSpaced := by
  obtain ⟨words, hne, hwords, rfl⟩ := h
  exact .join hne fun w hw => (hwords w hw).solid mild_selectorMarks

theorem IsSelector.mild {t : Text} (h : IsSelector t) : ∀ c ∈ t, IsMild c ∨ c = ' ' := by
  obtain ⟨words, hne, hwords, rfl⟩ := h
  intro c hc
  rcases Text.mem_join hc with hspace | ⟨w, hw, hc⟩
  · exact .inr (List.mem_singleton.mp hspace)
  · exact .inl ((hwords w hw).mild mild_selectorMarks c hc)

theorem IsSelector.cons {t : Text} (h : IsSelector t) : ∃ c rest, t = c :: rest ∧ IsMild c := by
  obtain ⟨words, hne, hwords, rfl⟩ := h
  obtain ⟨w, rest, rfl⟩ := List.exists_cons_of_ne_nil hne
  have hw := hwords w (List.mem_cons_self ..)
  obtain ⟨c, w, rfl⟩ := List.exists_cons_of_ne_nil hw.ne_nil
  obtain ⟨after, hafter⟩ := Text.join_cons [' '] (c :: w) rest
  exact ⟨c, w ++ after, hafter, hw.mild mild_selectorMarks c (List.mem_cons_self ..)⟩

/-- A list of selectors is cut at its commas, and the spaces after them are left. -/
theorem splitTop_join : ∀ {s : Text} {rest : List Text},
    (∀ t ∈ s :: rest, t.IsCalm ∧ ',' ∉ t) →
    Text.splitTop ',' .top (Text.join [',', ' '] (s :: rest)) = s :: rest.map (' ' :: ·)
  | s, [], h => by
      obtain ⟨hcalm, hcomma⟩ := h s (List.mem_cons_self ..)
      rw [Text.join_singleton, Text.splitTop_eq_singleton (Text.ne_of_mem_outer hcomma)]
      rfl
  | s, s' :: rest, h => by
      obtain ⟨hcalm, hcomma⟩ := h s (List.mem_cons_self ..)
      have hrest : ∀ t ∈ (' ' :: s') :: rest, Text.IsCalm t ∧ ',' ∉ t := by
        refine List.forall_mem_cons.mpr ⟨?_, fun t ht => h t (by simp [ht])⟩
        obtain ⟨hcalm', hcomma'⟩ := h s' (by simp)
        exact ⟨.cons rfl hcalm', by simp [hcomma']⟩
      rw [Text.join_cons_cons, List.append_assoc]
      show Text.splitTop ',' .top (s ++ ',' :: ' ' :: Text.join [',', ' '] (s' :: rest)) = _
      rw [Text.cons_join, Text.splitTop_append (Text.ne_of_mem_outer hcomma) hcalm.run,
        splitTop_join hrest, List.map_cons]

namespace IsSelectors

variable {t : Text}

theorem mild (h : IsSelectors t) : ∀ c ∈ t, IsMild c ∨ c = ' ' ∨ c = ',' := by
  obtain ⟨selectors, -, hselectors, rfl⟩ := h
  intro c hc
  rcases Text.mem_join hc with hseparator | ⟨s, hs, hc⟩
  · rcases List.mem_cons.mp hseparator with rfl | hspace
    · exact .inr (.inr rfl)
    · exact .inr (.inl (List.mem_singleton.mp hspace))
  · exact ((hselectors s hs).mild c hc).imp_right .inl

theorem cons (h : IsSelectors t) : ∃ c rest, t = c :: rest ∧ IsMild c := by
  obtain ⟨selectors, hne, hselectors, rfl⟩ := h
  obtain ⟨s, others, rfl⟩ := List.exists_cons_of_ne_nil hne
  obtain ⟨c, rest, rfl, hc⟩ := (hselectors s (List.mem_cons_self ..)).cons
  obtain ⟨after, hafter⟩ := Text.join_cons [',', ' '] (c :: rest) others
  exact ⟨c, rest ++ after, hafter, hc⟩

theorem spaced (h : IsSelectors t) : t.IsSpaced := by
  obtain ⟨selectors, hne, hselectors, rfl⟩ := h
  induction selectors with
  | nil => exact (hne rfl).elim
  | cons s rest ih =>
      have hs := (hselectors s (List.mem_cons_self ..)).spaced
      cases rest with
      | nil => rwa [Text.join_singleton]
      | cons s' rest =>
          have hrest := ih (List.cons_ne_nil s' rest)
            fun t ht => hselectors t (List.mem_cons_of_mem s ht)
          have hjoin : Text.join [',', ' '] (s :: s' :: rest) =
              (s ++ [',']) ++ ' ' :: Text.join [',', ' '] (s' :: rest) := by
            rw [Text.join_cons_cons, List.append_assoc, List.append_assoc]
            rfl
          rw [hjoin]
          exact (hs.append_solid (List.forall_mem_singleton.mpr rfl)).append hrest

theorem isPrelude (h : IsSelectors t) : IsPrelude t where
  smooth := .of_mild h.mild
  spaced := h.spaced
  no_at hat := by
    rcases h.mild '@' (List.mem_of_mem_tail hat) with hmild | hspace | hcomma
    · exact absurd hmild (by decide)
    · cases hspace
    · cases hcomma
  ne_else := by
    rintro rfl
    obtain ⟨c, rest, heq, hc⟩ := h.cons
    cases heq
    exact absurd hc (by decide)

end IsSelectors

theorem IsSelector.calm {s : Text} (h : IsSelector s) : s.IsCalm ∧ ',' ∉ s := by
  refine ⟨(IsSmooth.of_mild fun c hc => (h.mild c hc).imp_right .inl).calm, fun hcomma => ?_⟩
  rcases h.mild ',' hcomma with hmild | hspace
  · exact absurd hmild (by decide)
  · cases hspace

/-- A list of selectors is read as those that were written. -/
theorem ofList_join {selectors : List Text} (hne : selectors ≠ [])
    (h : ∀ s ∈ selectors, IsSelector s) :
    Selector.ofList (Text.join [',', ' '] selectors) = selectors := by
  obtain ⟨s, rest, rfl⟩ := List.exists_cons_of_ne_nil hne
  have hcollapse : ∀ t ∈ s :: rest, t.collapse = t := fun t ht => (h t ht).spaced.collapse
  have hmap : (rest.map (' ' :: ·)).map Text.collapse = rest := by
    rw [List.map_map]
    refine (List.map_congr_left fun t ht => ?_).trans (List.map_id rest)
    exact (Text.collapse_cons_space t).trans (hcollapse t (List.mem_cons_of_mem s ht))
  rw [Selector.ofList, splitTop_join fun t ht => (h t ht).calm, List.map_cons, hmap,
    hcollapse s (List.mem_cons_self ..), List.filter_eq_self]
  intro t ht
  simp [(h t ht).spaced.ne_nil]

namespace IsHeading

variable {t : Text}

/-- The name of an at-rule ends where its words begin, or at its end. -/
theorem parts (h : IsHeading t) : ∃ name tail, t = '@' :: (name ++ tail) ∧
    (∀ c ∈ name, isNameChar c = true) ∧ name.map Char.toLower ≠ "import".toList ∧
    name.map Char.toLower ≠ "else".toList ∧ (tail = [] ∨ ∃ u, tail = ' ' :: u) ∧
    ∀ c ∈ tail, isNameChar c = true ∨ c = '.' ∨ c = ' ' := by
  obtain ⟨name, words, -, hname, himport, helse, hwords, rfl⟩ := h
  cases words with
  | nil => exact ⟨name, [], by simp, hname, himport, helse, .inl rfl, nofun⟩
  | cons w rest =>
      refine ⟨name, ' ' :: Text.join [' '] (w :: rest), ?_, hname, himport, helse,
        .inr ⟨_, rfl⟩, List.forall_mem_cons.mpr ⟨.inr (.inr rfl), fun c hc => ?_⟩⟩
      · rw [Text.join_cons_cons, List.append_assoc]
        rfl
      · rcases Text.mem_join hc with hspace | ⟨v, hv, hc⟩
        · exact .inr (.inr (List.mem_singleton.mp hspace))
        · exact ((hwords v hv).2 c hc).imp_right .inl

theorem chars (h : IsHeading t) :
    ∃ rest, t = '@' :: rest ∧ ∀ c ∈ rest, isNameChar c = true ∨ c = '.' ∨ c = ' ' := by
  obtain ⟨name, tail, rfl, hname, -, -, -, htail⟩ := h.parts
  exact ⟨name ++ tail, rfl, List.forall_mem_append.mpr ⟨fun c hc => .inl (hname c hc), htail⟩⟩

theorem no_colon (h : IsHeading t) : ':' ∉ t := by
  obtain ⟨rest, rfl, hrest⟩ := h.chars
  refine List.not_mem_cons_of_ne_of_not_mem (by decide) fun hcolon => ?_
  rcases hrest ':' hcolon with hc | hc | hc <;> cases hc

theorem spaced (h : IsHeading t) : t.IsSpaced := by
  obtain ⟨name, words, -, hname, -, -, hwords, rfl⟩ := h
  have hfirst : Text.IsSolid ('@' :: name) := ⟨List.cons_ne_nil '@' name,
    List.forall_mem_cons.mpr ⟨rfl, fun c hc => isBlank_of_isNameChar (hname c hc)⟩⟩
  refine .join (List.cons_ne_nil _ words)
    (List.forall_mem_cons.mpr ⟨hfirst, fun w hw => ?_⟩)
  refine ⟨(hwords w hw).1, fun c hc => ?_⟩
  rcases (hwords w hw).2 c hc with hc | rfl
  · exact isBlank_of_isNameChar hc
  · rfl

theorem isPrelude (h : IsHeading t) : IsPrelude t where
  smooth := by
    obtain ⟨rest, rfl, hrest⟩ := h.chars
    refine List.forall_mem_cons.mpr ⟨⟨rfl, rfl⟩, IsSmooth.of_mild fun c hc => ?_⟩
    rcases hrest c hc with hc | rfl | rfl
    · exact .inl (.of_isNameChar hc)
    · exact .inl (by decide)
    · exact .inr (.inl rfl)
  spaced := h.spaced
  no_at hat := by
    obtain ⟨rest, rfl, hrest⟩ := h.chars
    rcases hrest '@' hat with hc | hc | hc <;> cases hc
  ne_else heq := by
    obtain ⟨name, tail, rfl, -, -, helse, rfl | ⟨u, rfl⟩, -⟩ := h.parts
    · rw [List.append_nil] at heq
      exact helse ((List.cons.inj heq).2 ▸ by decide)
    · have hspace : ' ' ∈ "@else".toList := heq ▸ by simp
      exact absurd hspace (by decide)

end IsHeading

namespace IsPrelude

variable {t : Text}

/-- A prelude ends in no condition. -/
theorem split (h : IsPrelude t) (span : Span) : Condition.split t span = (t, none) := by
  have helse : Text.before? " @else" t = none := by
    refine Option.eq_none_iff_forall_ne_some.mpr fun before hbefore => h.no_at ?_
    rw [Text.before?_eq_some_iff.mp hbefore]
    cases before <;> simp
  rw [Condition.split, if_neg h.ne_else, helse, h.smooth.calm.lastGroup?_eq_none]

/-- A prelude is no signature. -/
theorem signature (h : IsPrelude t) (span : Span) : Signature.read? t span = .ok none := by
  have hgroup (u : Text) (hu : ∀ c ∈ u, c ∈ t) : Text.lastGroup? u = none :=
    Text.IsCalm.lastGroup?_eq_none fun c hc => h.smooth.calm c (hu c hc)
  unfold Signature.read?
  split
  · rfl
  · rename_i rest hrest
    obtain rfl := Text.eq_append_of_after? hrest
    simp only
    split
    · rfl
    · rw [hgroup _ fun c hc => ?_]
      have hdrop := (List.dropWhile_sublist isBlank).subset hc
      exact List.mem_append_right _ (List.mem_of_mem_drop hdrop)

end IsPrelude

/-! ## How statements begin -/

/-- Whatever ends the statement that the text is, it is neither an import nor a
definition. -/
def IsOrdinary (t : Text) : Prop :=
  ∀ c rest, Statement.ends c = true → Statement.beginsImport (t ++ c :: rest) = false ∧
    Statement.beginsDefinition? (t ++ c :: rest) = none

theorem toLower_eq_or (c : Char) :
    c.toLower = c ∨ isNameChar c = true ∧ isNameChar c.toLower = true := by
  by_cases hupper : 'A'.toNat ≤ c.toNat ∧ c.toNat ≤ 'Z'.toNat
  · have hall : ∀ n ≤ 'Z'.toNat, 'A'.toNat ≤ n →
        isNameChar (Char.ofNat n) = true ∧ isNameChar (Char.ofNat n).toLower = true := by decide
    rw [← Char.ofNat_toNat c]
    exact .inr (hall c.toNat hupper.2 hupper.1)
  · exact .inl (dif_neg hupper)

theorem isNameChar_of_toLower {c : Char} (h : isNameChar c.toLower = true) :
    isNameChar c = true := by
  rcases toLower_eq_or c with hlower | ⟨hname, -⟩
  · rwa [hlower] at h
  · exact hname

theorem IsMild.ordinary {c : Char} (h : IsMild c) (t : Text) : IsOrdinary (c :: t) := by
  intro d rest _
  have hne : '@' ≠ c := (h.ne (by decide)).symm
  have hlower : '@'.toLower ≠ c.toLower := by
    intro heq
    rcases toLower_eq_or c with hlower | ⟨-, hname⟩
    · exact hne (heq.trans hlower)
    · rw [← heq] at hname
      cases hname
  constructor
  · show Statement.beginsImport (c :: (t ++ d :: rest)) = false
    have hnone : Text.afterIgnoringCase? "@import" (c :: (t ++ d :: rest)) = none := if_neg hlower
    rw [Statement.beginsImport, hnone]
  · unfold Statement.beginsDefinition?
    split
    · rename_i heq
      exact (hne (List.cons.inj heq).1.symm).elim
    · rfl

/-- A name is all of the name characters at the start, whatever it ends at. -/
theorem takeWhile_name {name tail : Text} (hname : ∀ c ∈ name, isNameChar c = true)
    (htail : ∀ c ∈ tail.head?, isNameChar c = false) :
    (name ++ tail).takeWhile isNameChar = name := by
  rw [List.takeWhile_append_of_pos hname]
  cases tail with
  | nil => exact List.append_nil name
  | cons c tail =>
      rw [List.takeWhile_cons_of_neg (by simp [htail c rfl]), List.append_nil]

theorem beginsImport_eq_false {name tail : Text} (hname : ∀ c ∈ name, isNameChar c = true)
    (htail : ∀ c ∈ tail.head?, isNameChar c = false)
    (hne : name.map Char.toLower ≠ "import".toList) :
    Statement.beginsImport ('@' :: (name ++ tail)) = false := by
  refine Bool.eq_false_iff.mpr fun himport => hne ?_
  obtain ⟨rest, hrest, hends⟩ : ∃ rest,
      Text.afterIgnoringCase? "@import" ('@' :: (name ++ tail)) = some rest ∧
        ∀ c ∈ rest.head?, isNameChar c = false := by
    unfold Statement.beginsImport at himport
    split at himport
    · rename_i c rest hafter
      exact ⟨_, hafter, by simpa using himport⟩
    · rename_i hafter
      exact ⟨_, hafter, nofun⟩
    · cases himport
  obtain ⟨head, hhead, hlower⟩ := Text.of_afterIgnoringCase? hrest
  cases head with
  | nil => cases hlower
  | cons c head =>
      have hlower' : head.map Char.toLower = "import".toList := (List.cons.inj hlower).2
      have hall : ∀ c ∈ "import".toList, isNameChar c = true :=
        Text.forall_mem_of_all (by decide)
      have hchars : ∀ c ∈ head, isNameChar c = true := fun c hc =>
        isNameChar_of_toLower (hall _ (hlower' ▸ List.mem_map_of_mem hc))
      have heq : name ++ tail = head ++ rest := (List.cons.inj hhead).2
      rw [← takeWhile_name hname htail, heq, takeWhile_name hchars hends, hlower']

/-- A definition has a colon before anything in it ends a statement. -/
theorem beginsDefinition?_eq_none {t : Text} (ht : ':' ∉ t) {c : Char}
    (hc : Statement.ends c = true) (rest : Text) :
    Statement.beginsDefinition? (t ++ c :: rest) = none := by
  refine Option.eq_none_iff_forall_ne_some.mpr fun found hfound => ?_
  obtain ⟨gap, after, heq, -, hname, hgap⟩ := Statement.of_beginsDefinition? hfound
  generalize found.1 = name at heq hname
  have hbefore : ∀ d ∈ '@' :: (name ++ gap), d ≠ c := by
    rintro d hd rfl
    rcases List.mem_cons.mp hd with rfl | hd
    · cases hc
    rcases List.mem_append.mp hd with hd | hd
    · rw [(IsMild.of_isNameChar (hname d hd)).ends] at hc
      cases hc
    · have hmem := hgap d hd
      simp only [isGap, Bool.or_eq_true, beq_iff_eq] at hmem
      rcases hmem with (rfl | rfl) | rfl <;> cases hc
  have heq' : t ++ c :: rest = '@' :: (name ++ gap) ++ ':' :: after := by simp [heq]
  rcases List.append_eq_append_iff.mp heq' with ⟨between, hgap, hrest⟩ | ⟨between, rfl, hrest⟩
  · cases between with
    | nil => cases (List.cons.inj hrest).1; cases hc
    | cons d between =>
        obtain ⟨rfl, -⟩ := List.cons.inj hrest
        exact hbefore c (hgap ▸ by simp) rfl
  · cases between with
    | nil => cases (List.cons.inj hrest).1; cases hc
    | cons d between =>
        obtain ⟨rfl, -⟩ := List.cons.inj hrest
        exact ht (by simp)

/-- An at-rule is neither an import nor a definition, with and without a space after it. -/
theorem IsHeading.ordinary {t : Text} (h : IsHeading t) {space : Text}
    (hspace : space = [] ∨ space = [' ']) : IsOrdinary (t ++ space) := by
  obtain ⟨name, tail, rfl, hname, himport, -, htail, -⟩ := h.parts
  intro c rest hc
  constructor
  · have hends : ∀ d ∈ (tail ++ (space ++ c :: rest)).head?, isNameChar d = false := by
      intro d hd
      rcases htail with rfl | ⟨u, rfl⟩
      · rcases hspace with rfl | rfl
        · cases hd
          refine Bool.eq_false_iff.mpr fun hname => ?_
          rw [(IsMild.of_isNameChar hname).ends] at hc
          cases hc
        · cases hd
          rfl
      · cases hd
        rfl
    have heq : '@' :: (name ++ tail) ++ space ++ c :: rest =
        '@' :: (name ++ (tail ++ (space ++ c :: rest))) := by simp
    rw [heq]
    exact beginsImport_eq_false hname hends himport
  · refine beginsDefinition?_eq_none (fun hcolon => ?_) hc rest
    rcases List.mem_append.mp hcolon with hcolon | hcolon
    · exact h.no_colon hcolon
    · rcases hspace with rfl | rfl
      · cases hcolon
      · cases List.mem_singleton.mp hcolon

/-! ## Values -/

theorem mild_valueMarks : ∀ c ∈ valueMarks, IsMild c := Text.forall_mem_of_all (by decide)

theorem IsWord.token {w : Text} (h : IsWord valueMarks w) (hne : w ≠ ['-']) : Token.IsWord w := by
  refine .name ⟨h.ne_nil, fun c hc => (h.mild mild_valueMarks c hc).isWordChar⟩ fun o ho => ?_
  have hsign := h.chars o.char (ho ▸ List.mem_singleton_self _)
  cases o with
  | minus => exact hne ho
  | times | dividedBy | plus => exact absurd hsign (by decide)

/-- The token is the same whatever variables stand for. -/
def IsFixed (token : Token) : Prop :=
  ∀ replacement : Text → Except Fault (List Token),
    token.substitute replacement = .ok [token]

theorem substituteAll_of_isFixed {tokens : List Token} (h : ∀ token ∈ tokens, IsFixed token)
    (replacement : Text → Except Fault (List Token)) :
    Token.substituteAll replacement tokens = .ok tokens := by
  induction tokens with
  | nil => rfl
  | cons token rest ih =>
      rw [Token.substituteAll, h token (List.mem_cons_self ..) replacement,
        ih fun token htoken => h token (List.mem_cons_of_mem _ htoken)]
      rfl

theorem isFixed_separator (s : Separator) : IsFixed s.token := by
  cases s <;> exact fun _ => rfl

namespace IsValue

variable {t : Text}

theorem mild (h : IsValue t) : ∀ c ∈ t, IsMild c ∨ c = ' ' ∨ c = ',' := by
  induction h with
  | word hw => exact fun c hc => .inl (hw.mild mild_valueMarks c hc)
  | space _ _ ih ih' =>
      exact List.forall_mem_append.mpr ⟨ih, List.forall_mem_cons.mpr ⟨.inr (.inl rfl), ih'⟩⟩
  | comma _ _ ih ih' =>
      exact List.forall_mem_append.mpr ⟨ih, List.forall_mem_cons.mpr ⟨.inr (.inr rfl),
        List.forall_mem_cons.mpr ⟨.inr (.inl rfl), ih'⟩⟩⟩

theorem settled (h : IsValue t) : Token.Settled t := by
  induction h with
  | @word w hw hne =>
      refine ⟨[.word w], .term (.ofText (.ofWord w) w), [], .word (hw.token hne), rfl, trivial,
        nofun, ?_⟩
      exact congrArg Except.ok (Value.css_ofWord w)
  | space _ _ ih ih' => exact ih.append .space ih'
  | comma _ _ ih ih' => exact ih.append (.comma true) ih'

theorem reads (h : IsValue t) :
    ∃ tokens, Token.Reads t tokens ∧ ∀ token ∈ tokens, IsFixed token := by
  have hjoin {t u : Text} (s : Separator)
      (h : ∃ tokens, Token.Reads t tokens ∧ ∀ token ∈ tokens, IsFixed token)
      (h' : ∃ tokens, Token.Reads u tokens ∧ ∀ token ∈ tokens, IsFixed token) :
      ∃ tokens, Token.Reads (t ++ (s.text ++ u)) tokens ∧ ∀ token ∈ tokens, IsFixed token := by
    obtain ⟨tokens, hreads, hfixed⟩ := h
    obtain ⟨tokens', hreads', hfixed'⟩ := h'
    rw [← s.text_token]
    exact ⟨tokens ++ s.token :: tokens', hreads.join s.isJoint_token hreads',
      List.forall_mem_append.mpr
        ⟨hfixed, List.forall_mem_cons.mpr ⟨isFixed_separator s, hfixed'⟩⟩⟩
  induction h with
  | word hw hne =>
      exact ⟨_, .word (hw.token hne), List.forall_mem_singleton.mpr fun _ => rfl⟩
  | space _ _ ih ih' => exact hjoin .space ih ih'
  | comma _ _ ih ih' => exact hjoin (.comma true) ih ih'

/-- A plain value comes to itself in any scope. -/
theorem evaluate (h : IsValue t) (idle : List DefinitionKey) (s : Scope) (span : Span) :
    s.evaluate idle ⟨t, span⟩ = .ok t := by
  obtain ⟨tokens, hreads, hfixed⟩ := h.reads
  obtain ⟨tokens', v, hreads', hvalue, hcss⟩ := h.settled.value
  obtain rfl := hreads.ofText_eq.symm.trans hreads'.ofText_eq
  rw [Scope.evaluate_eq, hreads.ofText_eq, substituteAll_of_isFixed hfixed]
  show (blame span (Token.value tokens)).bind (fun v => .ok v.css) = _
  rw [hvalue]
  exact congrArg Except.ok hcss

/-- The white space in front of a value is not part of it. -/
theorem trim_cons_space (h : IsValue t) : Text.trim (' ' :: t) = t := by
  obtain ⟨tokens, hreads, -⟩ := h.reads
  have hblank : ∀ c ∈ [' '], isBlank c = true := fun _ hc => List.mem_singleton.mp hc ▸ rfl
  exact (Text.trim_blank_append hblank t).trans hreads.trim_eq

end IsValue

/-! ## Whole texts -/

theorem IsDeclarations.calm {t : Text} (h : IsDeclarations t) : t.IsCalm := by
  obtain ⟨declarations, -, hdeclarations, rfl⟩ := h
  intro c hc
  rcases Text.mem_join hc with hspace | ⟨w, hw, hc⟩
  · exact List.mem_singleton.mp hspace ▸ rfl
  · obtain ⟨d, hd, rfl⟩ := List.mem_map.mp hw
    obtain ⟨hname, hvalue⟩ := hdeclarations d hd
    have hmild := hname.mild fun _ => List.not_mem_nil.elim
    have hsmooth : IsSmooth d.name := .of_mild fun c hc => .inl (hmild c hc)
    have hcalm : Text.IsCalm (d.name ++ ':' :: ' ' :: d.value ++ [';']) :=
      (hsmooth.calm.append
        (.cons rfl (.cons rfl (IsSmooth.of_mild hvalue.mild).calm))).append (by decide)
    exact hcalm c hc

theorem calm_line {t : Text} (n : Nat) (h : t.IsCalm) : Text.IsCalm (line n t) := by
  refine .append (.append (fun c hc => ?_) h) (by decide)
  exact List.eq_of_mem_replicate hc ▸ rfl

theorem IsItems.calm {n : Nat} {t : Text} (h : IsItems n t) : t.IsCalm := by
  induction h with
  | nil => exact .nil
  | rule hselectors hdeclarations _ ih =>
      exact .append (calm_line _ (((hselectors.isPrelude.smooth.calm.append (by decide)).append
        hdeclarations.calm).append (by decide))) ih
  | directive hheading _ ih =>
      exact .append (calm_line _ (hheading.isPrelude.smooth.calm.append (by decide))) ih
  | inline hheading hdeclarations _ ih =>
      exact .append (calm_line _ (((hheading.isPrelude.smooth.calm.append (by decide)).append
        hdeclarations.calm).append (by decide))) ih
  | @block n heading own inside rest hheading hown _ _ _ ih ih' =>
      have hopening : Text.IsCalm (line n (heading ++ " \x7b")) :=
        calm_line n (hheading.isPrelude.smooth.calm.append (by decide))
      have hcalm : own.IsCalm := by
        rcases hown with rfl | ⟨declarations, hdeclarations, rfl⟩
        · exact .nil
        · exact calm_line _ hdeclarations.calm
      exact .append (.append (.append (.append hopening hcalm) ih) (calm_line n (by decide))) ih'

end Plain

end Cascade
