import Cascade.Proofs.Nearest
import Cascade.Proofs.Numerals

/-!
# Number words

The words that are numbers, as a grammar beside the reader: a minus sign or none, digits with or
without a fraction, and a suffix that is nothing, `%` or letters (`NumberWord`). A word is read as
a number exactly if the grammar has it, and what it is read as is the one number that is nearest
to the decimal, with the unit of the suffix (`Quantity.read?_numberWord`).

The suffix of a word says what its number counts whichever case it is in, and letters that the
language does not know are a unit of their own (`NumberUnit.read?_eq_some_iff`).
-/

namespace Cascade

/-! ## Units -/

namespace KnownUnit

/-- Known units differ in more than their case. -/
theorem eq_of_toLower {u v : KnownUnit}
    (h : u.text.map Char.toLower = v.text.map Char.toLower) : u = v := by
  have hnodup : (all.map fun u => u.text.map Char.toLower).Nodup := by decide
  exact List.inj_on_of_nodup_map hnodup (mem_all u) (mem_all v) h

theorem toLower_of_ofLetters? {letters : Text} {u : KnownUnit} (h : ofLetters? letters = some u) :
    letters.map Char.toLower = u.text.map Char.toLower := by
  have hfound := List.find?_some h
  exact (eq_of_beq hfound).symm

theorem ofLetters?_eq_some_iff {letters : Text} {u : KnownUnit} :
    ofLetters? letters = some u ↔ letters.map Char.toLower = u.text.map Char.toLower := by
  refine ⟨toLower_of_ofLetters?, fun h => ?_⟩
  obtain ⟨v, hv⟩ : ∃ v, ofLetters? letters = some v :=
    Option.isSome_iff_exists.mp (List.find?_isSome.mpr ⟨u, mem_all u, beq_iff_eq.mpr h.symm⟩)
  rw [hv, eq_of_toLower ((toLower_of_ofLetters? hv).symm.trans h)]

end KnownUnit

namespace NumberUnit

/-- What the suffixes of numbers say: letters are a known unit in either case, and one of their own
if no known unit has them. -/
inductive Spells : Text → NumberUnit → Prop
  | plain : Spells [] plain
  | percent : Spells ['%'] percent
  | known {letters : Text} {u : KnownUnit}
      (h : letters.map Char.toLower = u.text.map Char.toLower) : Spells letters (known u)
  | other {letters : Text} (hne : letters ≠ []) (hletters : ∀ c ∈ letters, c.isAlpha = true)
      (hnew : ∀ u : KnownUnit, letters.map Char.toLower ≠ u.text.map Char.toLower) :
      Spells letters (other letters)

/-- Letters are a unit, whether or not the language knows it. -/
theorem read?_letters {letters : Text} (hne : letters ≠ [])
    (hletters : ∀ c ∈ letters, c.isAlpha = true) :
    read? letters = some ((KnownUnit.ofLetters? letters).elim (other letters) known) := by
  have hpercent : letters ≠ ['%'] := by
    rintro rfl
    cases hletters _ (List.mem_singleton_self _)
  rw [read?, if_neg (by simpa using hne), if_neg hpercent,
    if_pos (List.all_eq_true.mpr hletters)]
  cases KnownUnit.ofLetters? letters <;> rfl

theorem isAlpha_of_toLower {letters : Text} {u : KnownUnit}
    (h : letters.map Char.toLower = u.text.map Char.toLower) : ∀ c ∈ letters, c.isAlpha = true := by
  have hunit : (u.text.map Char.toLower).all Char.isAlpha = true := by cases u <;> rfl
  intro c hc
  rw [← Char.isAlpha_toLower_eq_isAlpha]
  exact List.all_eq_true.mp hunit _ (h ▸ List.mem_map_of_mem hc)

theorem spells_of_read? {t : Text} {unit : NumberUnit} (h : read? t = some unit) :
    Spells t unit := by
  rcases isSuffix_of_read? h with rfl | rfl | hletters
  · cases h
    exact .plain
  · cases h
    exact .percent
  rcases eq_or_ne t [] with rfl | hne
  · cases h
    exact .plain
  rw [read?_letters hne hletters] at h
  cases hknown : KnownUnit.ofLetters? t with
  | some u =>
      rw [hknown] at h
      cases h
      exact .known (KnownUnit.ofLetters?_eq_some_iff.mp hknown)
  | none =>
      rw [hknown] at h
      cases h
      refine .other hne hletters fun u hu => ?_
      rw [KnownUnit.ofLetters?_eq_some_iff.mpr hu] at hknown
      cases hknown

theorem Spells.read?_eq {t : Text} {unit : NumberUnit} (h : Spells t unit) :
    read? t = some unit := by
  cases h with
  | plain | percent => rfl
  | known h =>
      rename_i u
      have hne : t ≠ [] := by
        rintro rfl
        cases u <;> cases h
      rw [read?_letters hne (isAlpha_of_toLower h), KnownUnit.ofLetters?_eq_some_iff.mpr h]
      rfl
  | other hne hletters hnew =>
      have hunknown : KnownUnit.ofLetters? t = none :=
        Option.eq_none_iff_forall_ne_some.mpr fun u hu =>
          hnew u (KnownUnit.ofLetters?_eq_some_iff.mp hu)
      rw [read?_letters hne hletters, hunknown]
      rfl

theorem read?_eq_some_iff {t : Text} {unit : NumberUnit} :
    read? t = some unit ↔ Spells t unit := ⟨spells_of_read?, Spells.read?_eq⟩

theorem exists_read?_of_isSuffix {t : Text} (h : IsSuffix t) : ∃ unit, read? t = some unit := by
  rcases h with rfl | rfl | hletters
  · exact ⟨_, rfl⟩
  · exact ⟨_, rfl⟩
  · rcases eq_or_ne t [] with rfl | hne
    · exact ⟨_, rfl⟩
    · exact ⟨_, read?_letters hne hletters⟩

end NumberUnit

/-! ## Words -/

/-- A number as the language spells it: digits before the point, or after it, or both. There is a
point only where digits follow it. -/
structure NumberWord where
  negative : Bool
  digits : Text
  fraction : Text
  suffix : Text
  isDigit_digits : ∀ c ∈ digits, c.isDigit = true
  isDigit_fraction : ∀ c ∈ fraction, c.isDigit = true
  nonempty : digits ≠ [] ∨ fraction ≠ []
  isSuffix : NumberUnit.IsSuffix suffix

namespace NumberWord

variable (w : NumberWord)

/-- What comes after the sign. -/
def unsigned : Text :=
  w.digits ++ ((if w.fraction.isEmpty then [] else '.' :: w.fraction) ++ w.suffix)

def text : Text := if w.negative then '-' :: w.unsigned else w.unsigned

/-- The value of the decimal without its sign. -/
def absolute : ℚ :=
  Nat.ofDigitChars 10 w.digits 0 + Nat.ofDigitChars 10 w.fraction 0 / 10 ^ w.fraction.length

theorem absolute_eq : w.absolute =
    Decimal.value (w.digits ++ w.fraction) * 10 ^ (0 - w.fraction.length : ℤ) := by
  have hpos : (10 : ℚ) ^ w.fraction.length ≠ 0 := by positivity
  rw [absolute, ← Decimal.value_eq, ← Decimal.value_eq, Decimal.value_append, zero_sub, zpow_neg,
    zpow_natCast]
  push_cast
  field_simp

/-- What a word is read as: the one number that is nearest to its value, of the unit that its suffix
says, which is written as the word that it was and whose unit is read back. -/
structure IsReadAs (q : Quantity) : Prop where
  magnitude : ∀ x, Decimal.IsNearest x w.negative w.absolute ↔ x = q.magnitude
  unit : NumberUnit.read? w.suffix = some q.unit
  spells : NumberUnit.Spells w.suffix q.unit
  text : q.text = w.text
  read?_unit : NumberUnit.read? q.unit.text = some q.unit

/-- Words of the same value are the same number, with however many digits they are written. -/
theorem IsReadAs.magnitude_eq {w v : NumberWord} {q p : Quantity} (hq : w.IsReadAs q)
    (hp : v.IsReadAs p) (hsign : w.negative = v.negative) (hvalue : w.absolute = v.absolute) :
    q.magnitude = p.magnitude := by
  have hnearest := (hq.magnitude q.magnitude).mpr rfl
  rw [hsign, hvalue] at hnearest
  exact (hp.magnitude q.magnitude).mp hnearest

theorem literal?_unsigned :
    Decimal.literal? w.unsigned = some ⟨w.digits, w.fraction, w.suffix⟩ :=
  Decimal.literal?_append w.nonempty w.isDigit_digits w.isDigit_fraction w.isSuffix.endsNumber

/-- Without its sign a word does not begin with one. -/
theorem unsigned_ne_minus (rest : Text) : w.unsigned ≠ '-' :: rest := by
  intro h
  unfold unsigned at h
  cases hdigits : w.digits with
  | nil =>
      -- it begins with the point
      have hfraction : w.fraction.isEmpty = false := by
        simpa [hdigits] using w.nonempty
      rw [hdigits, hfraction] at h
      cases h
  | cons c digits =>
      have hdigit := w.isDigit_digits c (hdigits ▸ List.mem_cons_self ..)
      rw [hdigits] at h
      cases h
      cases hdigit

/-- The digits as they are read, with the sign put before them afterwards. -/
def number : Float :=
  if w.negative then -Decimal.toFloat w.digits w.fraction 0
  else Decimal.toFloat w.digits w.fraction 0

theorem isNearest_number : Decimal.IsNearest w.number w.negative w.absolute := by
  have hholds := Decimal.holds_toFloat w.isDigit_digits w.isDigit_fraction 0
  rw [← absolute_eq] at hholds
  unfold number
  cases w.negative with
  | false =>
      rw [if_neg Bool.false_ne_true]
      exact Decimal.Holds.isNearest hholds
  | true =>
      rw [if_pos rfl]
      exact Decimal.Holds.isNearest hholds.neg

theorem isNearest_iff (x : Float) :
    Decimal.IsNearest x w.negative w.absolute ↔ x = w.number := by
  refine ⟨fun hx => hx.unique w.isNearest_number, ?_⟩
  rintro rfl
  exact w.isNearest_number

theorem read?_text {unit : NumberUnit} (hunit : NumberUnit.read? w.suffix = some unit) :
    Quantity.read? w.text = some ⟨w.number, unit, some w.text⟩ := by
  unfold text number
  cases w.negative with
  | false =>
      rw [if_neg Bool.false_ne_true, if_neg Bool.false_ne_true,
        Quantity.read?_of_unsigned w.unsigned_ne_minus, literal?_unsigned, Option.bind_some, hunit,
        Option.bind_some]
  | true =>
      rw [if_pos rfl, if_pos rfl]
      show ((Decimal.literal? w.unsigned).bind fun l => (NumberUnit.read? l.rest).bind fun unit =>
        some (⟨-Decimal.toFloat l.digits l.fraction 0, unit, _⟩ : Quantity)) = _
      rw [literal?_unsigned, Option.bind_some, hunit, Option.bind_some]

theorem exists_isReadAs : ∃ q, Quantity.read? w.text = some q ∧ w.IsReadAs q := by
  obtain ⟨unit, hunit⟩ := NumberUnit.exists_read?_of_isSuffix w.isSuffix
  refine ⟨_, w.read?_text hunit, ?_⟩
  exact {
    magnitude := w.isNearest_iff
    unit := hunit
    spells := NumberUnit.read?_eq_some_iff.mp hunit
    text := rfl
    read?_unit := NumberUnit.read?_text ⟨w.suffix, hunit⟩ }

/-- Whatever is read as a number is a word of the grammar. -/
theorem exists_of_read? {word : Text} {q : Quantity} (h : Quantity.read? word = some q) :
    ∃ w : NumberWord, w.text = word := by
  unfold Quantity.read? at h
  split at h
  rename_i negative unsigned hsigned
  obtain ⟨l, hliteral, h⟩ := Option.bind_eq_some_iff.mp h
  obtain ⟨unit, hunit, -⟩ := Option.bind_eq_some_iff.mp h
  have hbegins := Decimal.begins_of_literal? hliteral
  refine ⟨⟨negative, l.digits, l.fraction, l.rest, hbegins.digits, hbegins.fraction,
    hbegins.nonempty, NumberUnit.isSuffix_of_read? hunit⟩, ?_⟩
  rw [text, NumberWord.unsigned, ← hbegins.text]
  split at hsigned
  · cases hsigned
    rfl
  · cases hsigned
    rfl

end NumberWord

/-- A word is read as a number exactly if it is one of the grammar, and then as the one that is
nearest to its value, with the unit of its suffix. -/
theorem Quantity.read?_numberWord :
    (∀ word, (read? word).isSome = true ↔ ∃ w : NumberWord, w.text = word) ∧
      ∀ w : NumberWord, ∃ q, read? w.text = some q ∧ w.IsReadAs q := by
  refine ⟨fun word => ⟨fun h => ?_, ?_⟩, NumberWord.exists_isReadAs⟩
  · obtain ⟨q, hq⟩ := Option.isSome_iff_exists.mp h
    exact NumberWord.exists_of_read? hq
  · rintro ⟨w, rfl⟩
    obtain ⟨q, hq, -⟩ := w.exists_isReadAs
    exact Option.isSome_iff_exists.mpr ⟨q, hq⟩

theorem Quantity.read?_minus_half_px : ∃ q, read? "-.5PX".toList = some q ∧
    Decimal.IsNearest q.magnitude true (1 / 2) ∧ q.unit = .known .px ∧
    q.text = "-.5PX".toList := by
  let w : NumberWord := ⟨true, [], ['5'], "PX".toList, nofun, List.all_eq_true.mp rfl,
    .inr (List.cons_ne_nil _ _), .inr (.inr (List.all_eq_true.mp rfl))⟩
  obtain ⟨q, hread, h⟩ := read?_numberWord.2 w
  have hvalue : w.absolute = 1 / 2 := by
    show ((0 : ℕ) + (5 : ℕ) / 10 ^ 1 : ℚ) = 1 / 2
    norm_num
  have hunit : some (NumberUnit.known .px) = some q.unit := h.unit
  exact ⟨q, hread, hvalue ▸ (h.magnitude _).mpr rfl, (Option.some.inj hunit).symm, h.text⟩

example : ["", "-", ".", "1.", "1.px", "-.px", "1e3", ".5.5", "--1", "+1", "1%%", "１px", "1µ"].all
    (fun word => (Quantity.read? word).isNone) = true := by
  decide +kernel

end Cascade
