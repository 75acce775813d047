import Cascade.Proofs.Arguments
import Cascade.Proofs.Lone
import Cascade.Proofs.Strings

/-!
# Comparisons

A condition is decided if its sides count as numbers that go together or as two colors
(`Comparison.decide_exact`). A side that is neither a number nor a color still counts
as the number it begins with, so two keywords are equal like two zeros. Only a text that is
not shaped like a comparison is no condition (`Comparison.split?_eq_none_iff`).

Two colors compare however they came about, as long as they are written without blanks
(`Comparison.decide_colors`). A computed color with an alpha channel never is.
-/

namespace Cascade

/-! ## Sides -/

namespace Color

theorem of_callParts? {opening t : Text} {parts : List Text}
    (h : callParts? opening t = some parts) :
    ∃ inside, t = opening ++ (inside ++ [')']) ∧
      parts = (inside.splitOnP (· == ',')).map Text.trim := by
  obtain ⟨after, hafter, h⟩ := Option.bind_eq_some_iff.mp h
  obtain ⟨inside, hinside, h⟩ := Option.bind_eq_some_iff.mp h
  cases h
  rw [Text.before?_eq_some_iff] at hinside
  exact ⟨inside, hinside ▸ Text.eq_append_of_after? hafter, rfl⟩

/-- The parts of a color that is written as a call are numbers. -/
theorem of_ofCall? {t : Text} {c : Color} (h : ofCall? t = some c) :
    ∃ opening parts, (opening = "rgba(".toList ∨ opening = "rgb(".toList) ∧
      callParts? opening t = some parts ∧
      ∀ part ∈ parts, (∃ x, channel? part = some x) ∨ ∃ x, Decimal.float? part = some x := by
  unfold ofCall? at h
  split at h
  · rename_i hparts
    obtain ⟨alpha, ha, h⟩ := Option.bind_eq_some_iff.mp h
    obtain ⟨x, hr, h⟩ := Option.bind_eq_some_iff.mp h
    obtain ⟨y, hg, h⟩ := Option.bind_eq_some_iff.mp h
    obtain ⟨z, hb, -⟩ := Option.bind_eq_some_iff.mp h
    refine ⟨_, _, .inl rfl, hparts, ?_⟩
    simp only [List.forall_mem_cons]
    exact ⟨.inl ⟨x, hr⟩, .inl ⟨y, hg⟩, .inl ⟨z, hb⟩, .inr ⟨alpha, ha⟩, nofun⟩
  · rename_i hparts _
    obtain ⟨x, hr, h⟩ := Option.bind_eq_some_iff.mp h
    obtain ⟨y, hg, h⟩ := Option.bind_eq_some_iff.mp h
    obtain ⟨z, hb, -⟩ := Option.bind_eq_some_iff.mp h
    refine ⟨_, _, .inr rfl, hparts, ?_⟩
    simp only [List.forall_mem_cons]
    exact ⟨.inl ⟨x, hr⟩, .inl ⟨y, hg⟩, .inl ⟨z, hb⟩, nofun⟩
  · cases h

theorem begins_of_ofCall? {t : Text} {c : Color} (h : ofCall? t = some c) :
    ∃ rest, t = 'r' :: rest := by
  obtain ⟨opening, parts, hopening, hparts, -⟩ := of_ofCall? h
  obtain ⟨inside, rfl, -⟩ := of_callParts? hparts
  rcases hopening with rfl | rfl
  · exact ⟨_, rfl⟩
  · exact ⟨_, rfl⟩

theorem ofCall?_eq_none {c : Char} {rest : Text} (h : c ≠ 'r') : ofCall? (c :: rest) = none := by
  rw [Option.eq_none_iff_forall_ne_some]
  intro color hcolor
  obtain ⟨rest', hrest⟩ := begins_of_ofCall? hcolor
  exact h (List.cons.inj hrest).1

theorem begins_of_ofHex? {t : Text} {c : Color} (h : ofHex? t = some c) :
    ∃ digits, t = '#' :: digits := by
  unfold ofHex? at h
  split at h
  · exact ⟨_, rfl⟩
  · cases h

end Color

/-- A number begins with a digit, a point or a sign. -/
theorem Quantity.begins_of_read? {t : Text} {q : Quantity} (h : read? t = some q) :
    ∃ c rest, t = c :: rest ∧ c ≠ 'r' ∧ c ≠ '#' := by
  cases t with
  | nil => cases h
  | cons c rest =>
      refine ⟨c, rest, rfl, ?_, ?_⟩
      · rintro rfl
        cases h
      · rintro rfl
        cases h

theorem Value.ofWord_of_head?_ne {t : Text} (h : t.head? ≠ some '#') :
    ofWord t = match Quantity.read? t with
      | some q => quantity q
      | none => text t := by
  unfold ofWord
  split
  · exact absurd rfl h
  · rfl

namespace Comparison

/-- What a side of a condition counts as, and the kind it brings along. -/
inductive Side (t : Text) : Argument → Option Kind → Prop
  | call {c : Color} : Color.ofCall? t = some c → Side t (.color c) (some .color)
  | hex {c : Color} : Color.ofHex? t = some c → Side t (.color c) (some .color)
  | number {q : Quantity} :
      Quantity.read? t = some q → Side t (.number q.magnitude) (Value.quantity q).kind?
  /-- Any other text, which counts as the number it begins with, or as zero. -/
  | other : Color.ofCall? t = none → Quantity.read? t = none → t.head? ≠ some '#' →
      Side t (.number (Decimal.leading t)) none

theorem side_iff {t : Text} {a : Argument} {kind : Option Kind} :
    Side t a kind ↔ Argument.of? (side t) = some a ∧ (side t).kind? = kind := by
  constructor
  · intro h
    cases h with
    | call h =>
        rw [side, h]
        exact ⟨rfl, rfl⟩
    | hex h =>
        obtain ⟨digits, rfl⟩ := Color.begins_of_ofHex? h
        rw [side, Color.ofCall?_eq_none (by decide), Value.ofWord, h]
        exact ⟨rfl, rfl⟩
    | number h =>
        obtain ⟨c, rest, rfl, hr, hhash⟩ := Quantity.begins_of_read? h
        rw [side, Color.ofCall?_eq_none hr, Value.ofWord_of_head?_ne (by simpa using hhash), h]
        exact ⟨rfl, rfl⟩
    | other hcall hnumber hhash =>
        rw [side, hcall, Value.ofWord_of_head?_ne hhash, hnumber]
        exact ⟨if_neg hhash, rfl⟩
  · rintro ⟨hof, hkind⟩
    cases hcall : Color.ofCall? t with
    | some c =>
        rw [side, hcall] at hof hkind
        cases hof
        cases hkind
        exact .call hcall
    | none =>
        rw [side, hcall] at hof hkind
        by_cases hhash : t.head? = some '#'
        · obtain ⟨digits, rfl⟩ : ∃ digits, t = '#' :: digits :=
            ⟨t.tail, List.eq_cons_of_mem_head? hhash⟩
          cases hhex : Color.ofHex? ('#' :: digits) with
          | none =>
              rw [Value.ofWord, hhex] at hof
              cases hof
          | some c =>
              rw [Value.ofWord, hhex] at hof hkind
              cases hof
              cases hkind
              exact .hex hhex
        · rw [Value.ofWord_of_head?_ne hhash] at hof hkind
          cases hnumber : Quantity.read? t with
          | some q =>
              rw [hnumber] at hof hkind
              cases hof
              cases hkind
              exact .number hnumber
          | none =>
              rw [hnumber] at hof hkind
              cases (if_neg hhash).symm.trans hof
              cases hkind
              exact .other hcall hnumber hhash

/-- The outcome of a comparison, if both sides are of one sort. -/
def outcome? (comparison : Comparison) : Argument → Argument → Option Bool
  | .number x, .number y => some (comparison.holds (order? x y))
  | .color c, .color d => some (comparison.holds (lexicographic? c.components d.components))
  | .number _, .color _ | .color _, .number _ => none

/-- A condition is decided exactly if it has the form of one and its sides are of one sort
and do not have different units. -/
theorem decide_eq_some_iff {t : Text} {b : Bool} :
    decide t = .ok (some b) ↔ ∃ left comparison right,
      split? t = some (left, comparison, right) ∧
        ∃ a a' kind kind', Side left a kind ∧ Side right a' kind' ∧
          (∀ k ∈ kind, ∀ k' ∈ kind', k = k') ∧ outcome? comparison a a' = some b := by
  unfold decide
  constructor
  · intro h
    split at h
    · cases h
    · rename_i left comparison right hsplit
      obtain ⟨⟨a, kind⟩, ha, h⟩ := bind_eq_ok h
      obtain ⟨⟨a', kind'⟩, ha', h⟩ := bind_eq_ok h
      obtain ⟨hof, -, hkind⟩ := Argument.ofValue_eq_ok_iff.mp ha
      obtain ⟨hof', hkind', -⟩ := Argument.ofValue_eq_ok_iff.mp ha'
      rw [Option.or_none] at hkind
      refine ⟨left, comparison, right, hsplit, a, a', _, _, side_iff.mpr ⟨hof, rfl⟩,
        side_iff.mpr ⟨hof', rfl⟩, hkind ▸ hkind', ?_⟩
      cases a <;> cases a' <;> cases h <;> rfl
  · rintro ⟨left, comparison, right, hsplit, a, a', kind, kind', hside, hside', hkinds, houtcome⟩
    obtain ⟨hof, hkind⟩ := side_iff.mp hside
    obtain ⟨hof', hkind'⟩ := side_iff.mp hside'
    have ha : Argument.ofValue none (side left) = .ok (a, kind) :=
      Argument.ofValue_eq_ok_iff.mpr ⟨hof, nofun, by rw [hkind, Option.or_none]⟩
    have ha' : Argument.ofValue kind (side right) = .ok (a', kind'.or kind) :=
      Argument.ofValue_eq_ok_iff.mpr ⟨hof', by rwa [hkind'], by rw [hkind']⟩
    simp only [hsplit, ha, ha', bind, Except.bind]
    cases a <;> cases a' <;> cases houtcome <;> rfl

/-- A text is no condition exactly if it has not the form of one, and it is decided exactly
if both sides count as numbers without different units, or both are colors. -/
theorem decide_exact (t : Text) :
    (decide t = .ok none ↔ split? t = none) ∧
      ∀ b, decide t = .ok (some b) ↔ ∃ left comparison right,
        split? t = some (left, comparison, right) ∧
          ∃ a a' kind kind', Side left a kind ∧ Side right a' kind' ∧
            (∀ k ∈ kind, ∀ k' ∈ kind', k = k') ∧ outcome? comparison a a' = some b :=
  ⟨decide_eq_none_iff, fun _ => decide_eq_some_iff⟩

/-- Two keywords are compared, and equal. -/
theorem decide_keywords :
    split? "auto = none" = some ("auto".toList, equal, "none".toList) ∧
      decide "auto = none" = .ok (some true) ∧
      ∀ side ∈ ["auto".toList, "none".toList], Quantity.read? side = none ∧
        Color.ofHex? side = none ∧ Color.ofCall? side = none := by
  refine ⟨by decide, eq_ok_of_toOption (by decide +kernel), ?_⟩
  intro side hside
  simp only [List.mem_cons, List.not_mem_nil, or_false] at hside
  rcases hside with rfl | rfl
  · exact ⟨rfl, rfl, rfl⟩
  · exact ⟨rfl, rfl, rfl⟩

end Comparison

/-! ## Text without marks -/

open Comparison (isMark)

namespace Comparison

theorem isMark_eq_true_iff {c : Char} :
    isMark c = true ↔ c = '<' ∨ c = '>' ∨ c = '=' ∨ c = '!' := by
  simp [isMark, or_assoc]

/-- A class of characters that none of the marks is in. -/
theorem not_isMark_of {p : Char → Bool} (hp : ['<', '>', '=', '!'].all (!p ·) = true) {c : Char}
    (h : p c = true) : isMark c = false := by
  by_contra hmark
  rw [Bool.not_eq_false, isMark_eq_true_iff] at hmark
  have hnot : (!p c) = true := List.all_eq_true.mp hp c (by simpa using hmark)
  rw [h] at hnot
  cases hnot

theorem not_isMark_of_isAlphanum {c : Char} (h : c.isAlphanum = true) : isMark c = false :=
  not_isMark_of (by decide) h

theorem not_isMark_of_isDigit {c : Char} (h : c.isDigit = true) : isMark c = false :=
  not_isMark_of (by decide) h

theorem not_isMark_of_isBlank {c : Char} (h : isBlank c = true) : isMark c = false :=
  not_isMark_of (by decide) h

end Comparison

namespace Decimal

/-- What the text of a number is made of, with a sign, a point, an exponent or a unit of
letters. -/
def isNumeral (c : Char) : Bool := c.isAlphanum || c == '.' || c == '-' || c == '+'

theorem isNumeral_of_isAlphanum {c : Char} (h : c.isAlphanum = true) : isNumeral c = true := by
  simp [isNumeral, h]

theorem isNumeral_of_isDigit {c : Char} (h : c.isDigit = true) : isNumeral c = true :=
  isNumeral_of_isAlphanum (by simp [Char.isAlphanum, h])

/-- A letter is one in either case. -/
theorem isNumeral_of_toLower {c : Char} (h : c.toLower.isAlphanum = true) : isNumeral c = true := by
  by_cases hupper : 'A'.toNat ≤ c.toNat ∧ c.toNat ≤ 'Z'.toNat
  · have hall : ∀ n ≤ 'Z'.toNat, 'A'.toNat ≤ n → isNumeral (Char.ofNat n) = true := by decide
    rw [← Char.ofNat_toNat c]
    exact hall c.toNat hupper.2 hupper.1
  · rw [show c.toLower = c from dif_neg hupper] at h
    exact isNumeral_of_isAlphanum h

/-- `t` begins with digits and a point with digits after it, if there are any, and goes on with the
rest. -/
structure Literal.Begins (l : Literal) (t : Text) : Prop where
  text : t = l.digits ++ ((if l.fraction.isEmpty then [] else '.' :: l.fraction) ++ l.rest)
  digits : ∀ c ∈ l.digits, c.isDigit = true
  fraction : ∀ c ∈ l.fraction, c.isDigit = true
  nonempty : l.digits ≠ [] ∨ l.fraction ≠ []

theorem begins_of_literal? {t : Text} {l : Literal} (h : literal? t = some l) : l.Begins t := by
  have hsplit := List.takeWhile_append_dropWhile (p := Char.isDigit) (l := t)
  have hdigits : ∀ c ∈ t.takeWhile Char.isDigit, c.isDigit = true := fun _ => List.mem_takeWhile_imp
  unfold literal? at h
  simp only at h
  generalize t.takeWhile Char.isDigit = digits at h hsplit hdigits
  generalize t.dropWhile Char.isDigit = rest at h hsplit
  subst hsplit
  have hwhole
      (h : (if digits.isEmpty then none else some (⟨digits, [], rest⟩ : Literal)) = some l) :
      l.Begins (digits ++ rest) := by
    split at h
    · cases h
    · rename_i hne
      cases h
      exact ⟨rfl, hdigits, nofun, .inl fun hnil => hne (List.isEmpty_iff.mpr hnil)⟩
  split at h
  · rename_i u
    have hsplit := List.prefix_iff_eq_append.mp (List.takeWhile_prefix (l := u) Char.isDigit)
    by_cases hfraction : (!(u.takeWhile Char.isDigit).isEmpty) = true
    · rw [if_pos hfraction] at h
      cases h
      have hne : (u.takeWhile Char.isDigit).isEmpty = false := by simpa using hfraction
      refine ⟨?_, hdigits, fun _ => List.mem_takeWhile_imp, .inr (List.isEmpty_eq_false_iff.mp hne)⟩
      simp only [hne, Bool.false_eq_true, if_false, Nat.add_comm 1, List.drop_succ_cons,
        List.cons_append, hsplit]
    · rw [if_neg hfraction] at h
      exact hwhole h
  · exact hwhole h

/-- What is not part of a number follows it. -/
theorem of_mem_literal? {t : Text} {l : Literal} (h : literal? t = some l) {c : Char} (hc : c ∈ t) :
    c.isDigit = true ∨ c = '.' ∨ c ∈ l.rest := by
  have hbegins := begins_of_literal? h
  rw [hbegins.text, List.mem_append, List.mem_append] at hc
  rcases hc with hc | hc | hc
  · exact .inl (hbegins.digits c hc)
  · split at hc
    · cases hc
    · exact (List.mem_cons.mp hc).elim (.inr ∘ .inl) (.inl ∘ hbegins.fraction c)
  · exact .inr (.inr hc)

/-- A sign may come before. -/
theorem isNumeral_of_sign {c : Char} {t : Text} (h : c = '-' ∨ c = '+' ∨ c ∈ t)
    (ht : c ∈ t → isNumeral c = true) : isNumeral c = true := by
  rcases h with rfl | rfl | h
  · rfl
  · rfl
  · exact ht h

theorem isNumeral_of_map_toLower {t word : Text} (h : t.map Char.toLower = word)
    (hword : word.all Char.isAlphanum = true) {c : Char} (hc : c ∈ t) : isNumeral c = true := by
  subst h
  exact isNumeral_of_toLower (List.all_eq_true.mp hword _ (List.mem_map_of_mem hc))

theorem isNumeral_of_exponent {digits : Text} {x y : Float}
    (h : (if digits.isEmpty ∨ ¬ digits.all Char.isDigit then none else some y) = some x)
    {c : Char} (hc : c ∈ digits) : isNumeral c = true := by
  split at h
  · cases h
  · rename_i hall
    exact isNumeral_of_isDigit (List.all_eq_true.mp (not_not.mp (not_or.mp hall).2) c hc)

/-- A number with a sign and an exponent is made of numerals. -/
theorem of_mem_float? {t : Text} {x : Float} (h : float? t = some x) :
    ∀ c ∈ t, isNumeral c = true := by
  intro c hc
  unfold float? at h
  split at h
  rename_i negative u hsigned
  have hmem : c = '-' ∨ c = '+' ∨ c ∈ u := by
    split at hsigned
    · cases hsigned
      exact (List.mem_cons.mp hc).imp_right .inr
    · cases hsigned
      exact .inr (List.mem_cons.mp hc)
    · cases hsigned
      exact .inr (.inr hc)
  refine isNumeral_of_sign hmem fun hc => ?_
  simp only at h
  split at h
  · rename_i hu
    rcases hu with hu | hu
    · exact isNumeral_of_map_toLower hu (by decide) hc
    · exact isNumeral_of_map_toLower hu (by decide) hc
  split at h
  · rename_i hu
    exact isNumeral_of_map_toLower hu (by decide) hc
  obtain ⟨l, hl, h⟩ := Option.bind_eq_some_iff.mp h
  rcases of_mem_literal? hl hc with hc | rfl | hc
  · exact isNumeral_of_isDigit hc
  · rfl
  generalize hpoint : ite (l.fraction.isEmpty = true) _ l.rest = rest at h
  have hc : c = '.' ∨ c ∈ rest := by
    split at hpoint
    · split at hpoint
      · rename_i hrest
        subst hpoint
        rw [hrest] at hc
        exact List.mem_cons.mp hc
      · exact .inr (hpoint ▸ hc)
    · exact .inr (hpoint ▸ hc)
  clear hpoint
  rcases hc with rfl | hc
  · rfl
  split at h
  · cases hc
  · split at h
    · cases h
    rename_i he
    rcases List.mem_cons.mp hc with rfl | hc
    · exact isNumeral_of_toLower (by rw [not_not.mp he]; rfl)
    split at h
    · exact isNumeral_of_sign ((List.mem_cons.mp hc).imp_right .inr) (isNumeral_of_exponent h)
    · exact isNumeral_of_sign (.inr (List.mem_cons.mp hc)) (isNumeral_of_exponent h)
    · exact isNumeral_of_exponent h hc

end Decimal

theorem mem_or_of_splitOnP {α : Type} {p : α → Bool} {a : α} :
    ∀ {l : List α}, a ∈ l → p a = true ∨ ∃ part ∈ l.splitOnP p, a ∈ part
  | b :: rest, h => by
      obtain ⟨first, others, hsplit⟩ := List.exists_cons_of_ne_nil (List.splitOnP_ne_nil p rest)
      rw [List.splitOnP_cons_eq_if_modifyHead, hsplit]
      rcases List.mem_cons.mp h with rfl | h
      · by_cases hb : p a = true
        · exact .inl hb
        · rw [if_neg hb]
          exact .inr ⟨_, List.mem_cons_self .., List.mem_cons_self ..⟩
      rcases mem_or_of_splitOnP h with ha | ⟨part, hpart, ha⟩
      · exact .inl ha
      rw [hsplit] at hpart
      refine .inr ?_
      split
      · exact ⟨part, List.mem_cons_of_mem _ hpart, ha⟩
      · rcases List.mem_cons.mp hpart with rfl | hpart
        · exact ⟨_, List.mem_cons_self .., List.mem_cons_of_mem b ha⟩
        · exact ⟨part, List.mem_cons_of_mem _ hpart, ha⟩

namespace Color

theorem isAlphanum_of_hexDigit? {c : Char} {n : Nat} (h : hexDigit? c = some n) :
    c.isAlphanum = true := by
  have hlower (h : 'a' ≤ c ∧ c ≤ 'f') : c.isLower = true := by
    obtain ⟨ha, hf⟩ := h
    unfold Char.isLower
    simp only [Bool.and_eq_true, decide_eq_true_eq]
    exact ⟨ha, Char.le_trans hf (by decide)⟩
  have hupper (h : 'A' ≤ c ∧ c ≤ 'F') : c.isUpper = true := by
    obtain ⟨ha, hf⟩ := h
    unfold Char.isUpper
    simp only [decide_eq_true_eq]
    exact ⟨ha, Char.le_trans hf (by decide)⟩
  unfold hexDigit? at h
  unfold Char.isAlphanum Char.isAlpha
  split at h
  · rename_i hdigit
    simp [hdigit]
  split at h
  · rename_i hletter
    simp [hlower hletter]
  split at h
  · rename_i hletter
    simp [hupper hletter]
  · cases h

theorem hexDigit?_of_mem {digits : Text} {values : List Nat}
    (h : digits.mapM hexDigit? = some values) {c : Char} (hc : c ∈ digits) :
    ∃ n, hexDigit? c = some n := by
  induction digits generalizing values with
  | nil => cases hc
  | cons d rest ih =>
      rw [List.mapM_cons] at h
      obtain ⟨n, hn, h⟩ := Option.bind_eq_some_iff.mp h
      obtain ⟨others, hothers, -⟩ := Option.bind_eq_some_iff.mp h
      rcases List.mem_cons.mp hc with rfl | hc
      · exact ⟨n, hn⟩
      · exact ih hothers hc

/-- The text of a hexadecimal color has no other characters. -/
theorem of_mem_hex {t : Text} {color : Color} (h : ofHex? t = some color) :
    ∀ c ∈ t, c = '#' ∨ c.isAlphanum = true := by
  unfold ofHex? at h
  split at h
  · rename_i digits
    obtain ⟨values, hvalues, -⟩ := Option.bind_eq_some_iff.mp h
    intro c hc
    refine (List.mem_cons.mp hc).imp_right fun hc => ?_
    obtain ⟨n, hn⟩ := hexDigit?_of_mem hvalues hc
    exact isAlphanum_of_hexDigit? hn
  · cases h

theorem isDigit_of_channel? {t : Text} {x : Float} (h : channel? t = some x) :
    ∀ c ∈ t, c.isDigit = true := by
  unfold channel? at h
  split at h
  · cases h
  · rename_i hdigits
    exact List.all_eq_true.mp (not_not.mp (not_or.mp hdigits).2)

/-- Between the parentheses of a color stand numbers, blanks and commas. -/
theorem inside_of_ofCall? {t : Text} {color : Color} (h : ofCall? t = some color) :
    ∃ opening inside, (opening = "rgba(".toList ∨ opening = "rgb(".toList) ∧
      t = opening ++ (inside ++ [')']) ∧
        ∀ c ∈ inside, c = ',' ∨ isBlank c = true ∨ Decimal.isNumeral c = true := by
  obtain ⟨opening, parts, hopening, hparts, hread⟩ := of_ofCall? h
  obtain ⟨inside, rfl, rfl⟩ := of_callParts? hparts
  refine ⟨opening, inside, hopening, rfl, fun c hc => ?_⟩
  rcases mem_or_of_splitOnP (p := (· == ',')) hc with hcomma | ⟨part, hpart, hc⟩
  · exact .inl (beq_iff_eq.mp hcomma)
  rcases Text.mem_trim_or_isBlank hc with hc | hblank
  · rcases hread _ (List.mem_map_of_mem hpart) with ⟨x, hx⟩ | ⟨x, hx⟩
    · exact .inr (.inr (Decimal.isNumeral_of_isDigit (isDigit_of_channel? hx c hc)))
    · exact .inr (.inr (Decimal.of_mem_float? hx c hc))
  · exact .inr (.inl hblank)

theorem not_isMark_of_ofCall? {t : Text} {color : Color} (h : ofCall? t = some color) :
    ∀ c ∈ t, isMark c = false := by
  obtain ⟨opening, inside, hopening, rfl, hinside⟩ := inside_of_ofCall? h
  intro c hc
  rcases List.mem_append.mp hc with hc | hc
  · have hall : ∀ opening ∈ ["rgba(".toList, "rgb(".toList], ∀ c ∈ opening, isMark c = false := by
      simp [isMark]
    exact hall opening (by simpa using hopening) c hc
  rcases List.mem_append.mp hc with hc | hc
  · rcases hinside c hc with rfl | hblank | hnumeral
    · rfl
    · exact Comparison.not_isMark_of_isBlank hblank
    · exact Comparison.not_isMark_of (by decide) hnumeral
  · rw [List.mem_singleton.mp hc]
    rfl

end Color

/-! ## Sides of a condition -/

namespace Comparison

/-- A text that can be a side of a condition if it has no blanks: it holds no mark and has
something else than blanks at both ends. -/
structure Bounded (t : Text) : Prop where
  no_mark : ∀ c ∈ t, isMark c = false
  first : ∃ c rest, t = c :: rest ∧ isBlank c = false
  last : ∃ before c, t = before ++ [c] ∧ isBlank c = false

theorem Bounded.trim_eq {t : Text} (h : Bounded t) {gap gap' : Text}
    (hgap : ∀ c ∈ gap, isBlank c = true) (hgap' : ∀ c ∈ gap', isBlank c = true) :
    Text.trim (gap ++ (t ++ gap')) = t := by
  obtain ⟨c, rest, hfirst, hc⟩ := h.first
  obtain ⟨before, d, hlast, hd⟩ := h.last
  have hstart : Text.trimStart (gap ++ (t ++ gap')) = t ++ gap' := by
    rw [Text.trimStart, List.dropWhile_append_of_pos hgap, hfirst, List.cons_append,
      List.dropWhile_cons_of_neg (by simp [hc])]
  rw [Text.trim, hstart, Text.trimEnd, List.reverse_append,
    List.dropWhile_append_of_pos fun c hc => hgap' c (List.mem_reverse.mp hc), hlast,
    List.reverse_concat, List.dropWhile_cons_of_neg (by simp [hd]), ← List.reverse_concat,
    List.reverse_reverse]

/-! ## The shape of a condition -/

/-- How a comparison can be written. -/
inductive Spells : Comparison → Text → Prop
  | greater : Spells .greater ">"
  | greaterOrEqual : Spells .greaterOrEqual ">="
  | less : Spells .less "<"
  | lessOrEqual : Spells .lessOrEqual "<="
  | equal : Spells .equal "="
  | twice : Spells .equal "=="
  | notEqual : Spells .notEqual "!="

theorem Spells.begins {comparison : Comparison} {mark : Text} (h : Spells comparison mark) :
    ∃ c rest, mark = c :: rest ∧ isMark c = true := by
  cases h <;> exact ⟨_, _, rfl, rfl⟩

theorem Spells.read?_eq {comparison : Comparison} {mark : Text} (h : Spells comparison mark)
    {rest : Text} (hrest : rest.head? ≠ some '=') :
    read? (mark ++ rest) = some (comparison, rest) := by
  cases rest with
  | nil => cases h <;> rfl
  | cons c rest =>
      have hc : c ≠ '=' := by simpa using hrest
      cases h <;> simp [read?, hc]

/-- What is read is an operator, and no longer one could be read there. -/
theorem read?_eq_some_iff {t rest : Text} {comparison : Comparison} :
    read? t = some (comparison, rest) ↔ ∃ mark, Spells comparison mark ∧ t = mark ++ rest ∧
      (mark.length = 1 → rest.head? ≠ some '=') := by
  constructor
  · intro h
    unfold read? at h
    split at h
    · cases h
      exact ⟨_, .greaterOrEqual, rfl, nofun⟩
    · cases h
      exact ⟨_, .lessOrEqual, rfl, nofun⟩
    · cases h
      exact ⟨_, .twice, rfl, nofun⟩
    · cases h
      exact ⟨_, .notEqual, rfl, nofun⟩
    · rename_i hlong
      cases h
      exact ⟨_, .greater, rfl, fun _ hrest => hlong _ (List.eq_cons_of_mem_head? hrest)⟩
    · rename_i hlong
      cases h
      exact ⟨_, .less, rfl, fun _ hrest => hlong _ (List.eq_cons_of_mem_head? hrest)⟩
    · rename_i hlong
      cases h
      exact ⟨_, .equal, rfl, fun _ hrest => hlong _ (List.eq_cons_of_mem_head? hrest)⟩
    · cases h
  · rintro ⟨mark, hmark, rfl, hlong⟩
    cases hmark with
    | greaterOrEqual | lessOrEqual | twice | notEqual => rfl
    | greater => exact Spells.greater.read?_eq (hlong rfl)
    | less => exact Spells.less.read?_eq (hlong rfl)
    | equal => exact Spells.equal.read?_eq (hlong rfl)

/-- A text shaped like a comparison: two words, up to white space around them, and between
them the longest operator at the first character that one could begin with. -/
def IsShaped (t : Text) : Prop :=
  ∃ (left mark right : Text) (comparison : Comparison), t = left ++ mark ++ right ∧
    (∀ c ∈ left, c ∉ ['<', '>', '=', '!']) ∧ Spells comparison mark ∧
    (mark.length = 1 → right.head? ≠ some '=') ∧ left.trim.IsSolid ∧ right.trim.IsSolid

theorem not_isMark_iff {c : Char} : isMark c = false ↔ c ∉ ['<', '>', '=', '!'] := by
  rw [← Bool.not_eq_true, isMark_eq_true_iff]
  simp

/-- A text is split at the first operator, if there is one word on either side. -/
theorem split?_append {left mark right : Text} {comparison : Comparison}
    (hleft : ∀ c ∈ left, isMark c = false) (hmark : Spells comparison mark)
    (hlong : mark.length = 1 → right.head? ≠ some '=') :
    split? (left ++ mark ++ right) =
      if left.trim.isEmpty ∨ right.trim.isEmpty ∨ left.trim.any isBlank ∨ right.trim.any isBlank
      then none else some (left.trim, comparison, right.trim) := by
  obtain ⟨c, rest, hbegins, hc⟩ := hmark.begins
  have hno_mark : ∀ c ∈ left, (!isMark c) = true := fun c hc => by
    rw [hleft c hc]
    rfl
  have htake : (left ++ mark ++ right).takeWhile (!isMark ·) = left := by
    rw [List.append_assoc, List.takeWhile_append_of_pos hno_mark, hbegins, List.cons_append,
      List.takeWhile_cons_of_neg (by simp [hc]), List.append_nil]
  have hread : read? (mark ++ right) = some (comparison, right) :=
    read?_eq_some_iff.mpr ⟨mark, hmark, rfl, hlong⟩
  rw [split?, htake, List.append_assoc, List.drop_left, hread]
  rfl

/-- Exactly the texts that are shaped like a comparison are split. -/
theorem split?_eq_none_iff {t : Text} : split? t = none ↔ ¬IsShaped t := by
  rw [← not_iff_not, not_not]
  constructor
  · intro h
    cases hread : read? (t.drop (t.takeWhile (!isMark ·)).length) with
    | none =>
        rw [split?, hread] at h
        exact (h rfl).elim
    | some found =>
        obtain ⟨comparison, right⟩ := found
        obtain ⟨mark, hmark, hrest, hlong⟩ := read?_eq_some_iff.mp hread
        rw [split?, hread] at h
        simp only [Option.bind_eq_bind, Option.bind_some, ite_eq_left_iff, not_forall,
          exists_prop, not_or] at h
        obtain ⟨⟨hne, hne', hblank, hblank'⟩, -⟩ := h
        have htext : t = t.takeWhile (!isMark ·) ++ (mark ++ right) := by
          rw [← hrest]
          exact (List.prefix_iff_eq_append.mp (List.takeWhile_prefix _)).symm
        refine ⟨t.takeWhile (!isMark ·), mark, right, comparison, by rwa [List.append_assoc],
          fun c hc => ?_, hmark, hlong, Text.isSolid_iff.mpr ⟨hne, hblank⟩,
          Text.isSolid_iff.mpr ⟨hne', hblank'⟩⟩
        have hc := List.mem_takeWhile_imp hc
        exact not_isMark_iff.mp (by simpa using hc)
  · rintro ⟨left, mark, right, comparison, rfl, hleft, hmark, hlong, hsolid, hsolid'⟩
    obtain ⟨hne, hblank⟩ := Text.isSolid_iff.mp hsolid
    obtain ⟨hne', hblank'⟩ := Text.isSolid_iff.mp hsolid'
    rw [split?_append (fun c hc => not_isMark_iff.mpr (hleft c hc)) hmark hlong,
      if_neg (not_or.mpr ⟨hne, not_or.mpr ⟨hne', not_or.mpr ⟨hblank, hblank'⟩⟩⟩)]
    exact nofun

theorem split?_eq {left right mark gap gap' : Text} {comparison : Comparison}
    (hleft : Bounded left) (hright : Bounded right) (hmark : Spells comparison mark)
    (hgap : ∀ c ∈ gap, isBlank c = true) (hgap' : ∀ c ∈ gap', isBlank c = true) :
    split? (left ++ gap ++ (mark ++ (gap' ++ right))) =
      if left.any isBlank || right.any isBlank then none else some (left, comparison, right) := by
  have hno_mark : ∀ d ∈ left ++ gap, isMark d = false := by
    intro d hd
    rcases List.mem_append.mp hd with hd | hd
    · exact hleft.no_mark d hd
    · exact not_isMark_of_isBlank (hgap d hd)
  have hrest : (gap' ++ right).head? ≠ some '=' := by
    intro hhead
    rcases List.mem_append.mp (List.mem_of_mem_head? hhead) with hd | hd
    · cases hgap' _ hd
    · cases hright.no_mark _ hd
  have hne {t : Text} (h : Bounded t) : t.isEmpty = false := by
    obtain ⟨d, rest, rfl, -⟩ := h.first
    rfl
  have hnil : ∀ c ∈ ([] : Text), isBlank c = true := nofun
  have htrim : Text.trim (left ++ gap) = left := hleft.trim_eq hnil hgap
  have htrim' : Text.trim (gap' ++ right) = right := by
    have h := hright.trim_eq hgap' hnil
    rwa [List.append_nil] at h
  rw [← List.append_assoc, split?_append hno_mark hmark fun _ => hrest, htrim, htrim',
    hne hleft, hne hright]
  simp

end Comparison

/-! ## Colors as sides -/

namespace Color

/-- Reads a color as it can be written in the source. -/
def read? (t : Text) : Option Color := (ofCall? t).or (ofHex? t)

theorem read?_of_ofHex? {t : Text} {c : Color} (h : ofHex? t = some c) : read? t = some c := by
  obtain ⟨digits, rfl⟩ := begins_of_ofHex? h
  rw [read?, ofCall?_eq_none (by decide), h]
  rfl

theorem read?_of_ofCall? {t : Text} {c : Color} (h : ofCall? t = some c) : read? t = some c := by
  rw [read?, h]
  rfl

/-- The colors there are: those that were written in the source, and computed ones. -/
inductive Written : Color → Prop
  | hex {t : Text} {c : Color} : ofHex? t = some c → Written c
  | call {t : Text} {c : Color} : ofCall? t = some c → Written c
  | computed (rgb : Rgb Float) (alpha : Option Float) : Written (.computed rgb alpha)

theorem bounded_of_ofHex? {t : Text} {c : Color} (h : ofHex? t = some c) :
    Comparison.Bounded t := by
  have hmem := of_mem_hex h
  obtain ⟨digits, rfl⟩ := begins_of_ofHex? h
  have hne : '#' :: digits ≠ [] := nofun
  refine ⟨fun d hd => ?_, ⟨_, _, rfl, rfl⟩, ⟨_, _, (List.dropLast_concat_getLast hne).symm, ?_⟩⟩
  · rcases hmem d hd with rfl | hd
    · rfl
    · exact Comparison.not_isMark_of_isAlphanum hd
  · rcases hmem _ (List.getLast_mem hne) with hd | hd
    · rw [hd]
      rfl
    · exact isBlank_of_isNameChar (by simp [isNameChar, hd])

theorem bounded_of_ofCall? {t : Text} {c : Color} (h : ofCall? t = some c) :
    Comparison.Bounded t := by
  obtain ⟨rest, hfirst⟩ := begins_of_ofCall? h
  obtain ⟨opening, parts, -, hparts, -⟩ := of_ofCall? h
  obtain ⟨inside, hlast, -⟩ := of_callParts? hparts
  rw [← List.append_assoc] at hlast
  exact ⟨not_isMark_of_ofCall? h, ⟨_, _, hfirst, rfl⟩, ⟨_, _, hlast, rfl⟩⟩

/-- A computed color with an alpha channel is written with blanks. -/
theorem any_isBlank_computed (rgb : Rgb Float) (alpha : Float) :
    (computed rgb (some alpha)).text.any isBlank = true := by
  rw [text_computed_some, List.any_eq_true]
  exact ⟨' ', by simp [rgbaText], rfl⟩

theorem bounded_computed (rgb : Rgb Float) (alpha : Float) :
    Comparison.Bounded (computed rgb (some alpha)).text := by
  have hseparator : ∀ d ∈ ", ".toList, isMark d = false := by simp [isMark]
  have hdigits (n : Nat) : ∀ d ∈ Nat.toDigits 10 n, isMark d = false := by
    intro d hd
    exact Comparison.not_isMark_of_isDigit
      (Nat.isDigit_of_mem_toDigits (by decide) (by decide) hd)
  have hrender (x : Float) : ∀ d ∈ Decimal.render x, isMark d = false := by
    intro d hd
    rcases Decimal.of_mem_render hd with hd | rfl | rfl
    · exact Comparison.not_isMark_of_isAlphanum hd
    · rfl
    · rfl
  rw [text_computed_some]
  refine ⟨fun d hd => ?_, ⟨_, _, rfl, rfl⟩, ⟨_, _, rfl, rfl⟩⟩
  simp only [rgbaText, List.mem_append, List.mem_cons, List.not_mem_nil, or_false] at hd
  rcases hd with (hd | rfl | hd | hd | hd | hd | hd | hd | hd) | rfl
  · have hname : ∀ d ∈ "rgba".toList, isMark d = false := by simp [isMark]
    exact hname d hd
  · rfl
  · exact hdigits _ d hd
  · exact hseparator d hd
  · exact hdigits _ d hd
  · exact hseparator d hd
  · exact hdigits _ d hd
  · exact hseparator d hd
  · exact hrender _ d hd
  · rfl

/-- The text of a color is bounded; if it has no blanks, it reads back as a color. -/
theorem Written.text_cases {c : Color} (h : c.Written) :
    Comparison.Bounded c.text ∧ (c.text.any isBlank = false → ∃ c', read? c.text = some c' ∧
      Comparison.Side c.text (.color c') (some .color)) := by
  cases h with
  | @hex t c h =>
      have htext : c.text = t := by simp [text, written_of_ofHex? h]
      rw [htext]
      exact ⟨bounded_of_ofHex? h, fun _ => ⟨c, read?_of_ofHex? h, .hex h⟩⟩
  | @call t c h =>
      have htext : c.text = t := by simp [text, written_of_ofCall? h]
      rw [htext]
      exact ⟨bounded_of_ofCall? h, fun _ => ⟨c, read?_of_ofCall? h, .call h⟩⟩
  | computed rgb alpha =>
      cases alpha with
      | none =>
          have htext : (Color.computed rgb none).text = '#' :: hexText rgb := rfl
          obtain ⟨c, hc⟩ := ofHex?_hexText rgb
          rw [htext]
          exact ⟨bounded_of_ofHex? hc, fun _ => ⟨c, read?_of_ofHex? hc, .hex hc⟩⟩
      | some alpha =>
          refine ⟨bounded_computed rgb alpha, fun h => ?_⟩
          cases (any_isBlank_computed rgb alpha).symm.trans h

end Color

namespace Comparison

/-- Two colors compare by the channels that their texts spell if no blank is in them, and
make no condition otherwise. -/
theorem decide_colors {c d : Color} (hc : c.Written) (hd : d.Written) {comparison : Comparison}
    {mark : Text} (hmark : Spells comparison mark) {gap gap' : Text}
    (hgap : ∀ b ∈ gap, isBlank b = true) (hgap' : ∀ b ∈ gap', isBlank b = true) :
    (c.text.any isBlank = false → d.text.any isBlank = false →
      ∃ c' d', Color.read? c.text = some c' ∧ Color.read? d.text = some d' ∧
        decide (c.text ++ gap ++ (mark ++ (gap' ++ d.text))) =
          .ok (some (comparison.holds (lexicographic? c'.components d'.components)))) ∧
      (c.text.any isBlank = true ∨ d.text.any isBlank = true →
        decide (c.text ++ gap ++ (mark ++ (gap' ++ d.text))) = .ok none) := by
  obtain ⟨hbounded, hside⟩ := hc.text_cases
  obtain ⟨hbounded', hside'⟩ := hd.text_cases
  have hsplit := split?_eq hbounded hbounded' hmark hgap hgap'
  refine ⟨fun hblank hblank' => ?_, fun hblank => ?_⟩
  · obtain ⟨c', hread, hside⟩ := hside hblank
    obtain ⟨d', hread', hside'⟩ := hside' hblank'
    rw [hblank, hblank', Bool.or_false, if_neg Bool.false_ne_true] at hsplit
    exact ⟨c', d', hread, hread', decide_eq_some_iff.mpr
      ⟨_, _, _, hsplit, _, _, _, _, hside, hside', by simp, rfl⟩⟩
  · rw [if_pos (Bool.or_eq_true_iff.mpr hblank)] at hsplit
    exact decide_eq_none_iff.mpr hsplit

/-- A color in digits and one in a call. -/
theorem decide_colors_hex_call :
    ∃ c' d', Color.read? "#abc" = some c' ∧ Color.read? "rgb(1,2,3)" = some d' ∧
      decide "#abc >= rgb(1,2,3)" =
        .ok (some (greaterOrEqual.holds (lexicographic? c'.components d'.components))) := by
  obtain ⟨c, hc⟩ : ∃ c, Color.ofHex? "#abc" = some c := ⟨_, rfl⟩
  obtain ⟨d, hd⟩ : ∃ d, Color.ofCall? "rgb(1,2,3)" = some d := ⟨_, rfl⟩
  have htext : c.text = "#abc" := by simp [Color.text, Color.written_of_ofHex? hc]
  have htext' : d.text = "rgb(1,2,3)" := by simp [Color.text, Color.written_of_ofCall? hd]
  have hgap : ∀ b ∈ [' '], isBlank b = true := by simp [isBlank]
  have h := (decide_colors (.hex hc) (.call hd) .greaterOrEqual hgap hgap).1
  rw [htext, htext'] at h
  exact h (by decide) (by decide)

/-- A computed color with an alpha channel makes no condition, not even with itself. -/
theorem decide_colors_alpha :
    (Color.computed ⟨20.0, 30.0, 40.0⟩ (some 0.5)).Written ∧
      (Color.computed ⟨20.0, 30.0, 40.0⟩ (some 0.5)).text = "rgba(20, 30, 40, 0.5)" ∧
      decide "rgba(20, 30, 40, 0.5) = rgba(20, 30, 40, 0.5)" = .ok none :=
  ⟨.computed _ _, by decide +kernel, eq_ok_of_toOption (by decide +kernel)⟩

end Comparison

end Cascade
