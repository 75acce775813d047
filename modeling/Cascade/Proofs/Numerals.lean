import Cascade.Proofs.Components

/-!
# Numbers and colors that are read as they are written

The text of a finite number reads back as a number with its unit (`Quantity.read?_render`), and
the text of a computed color as a color that has an alpha channel if that one had
(`Color.ofHex?_hexText`, `Color.ofCall?_computed`). What an alpha channel is written as is read
whether or not it is finite (`Decimal.float?_render`).
-/

namespace Cascade

/-! ## Numbers -/

namespace Decimal

/-- What does not go on with the digits before it. -/
def EndsDigits (t : Text) : Prop := ∀ c ∈ t.head?, c.isDigit = false

/-- What does not go on with the number before it. -/
def EndsNumber (t : Text) : Prop := ∀ c ∈ t.head?, c.isDigit = false ∧ c ≠ '.'

variable {digits fraction rest : Text}

theorem takeWhile_isDigit (hdigits : ∀ c ∈ digits, c.isDigit = true) (hrest : EndsDigits rest) :
    (digits ++ rest).takeWhile Char.isDigit = digits := by
  rw [List.takeWhile_append_of_pos hdigits]
  cases rest with
  | nil => rw [List.takeWhile_nil, List.append_nil]
  | cons c rest => rw [List.takeWhile_cons_of_neg (by simp [hrest c rfl]), List.append_nil]

theorem dropWhile_isDigit (hdigits : ∀ c ∈ digits, c.isDigit = true) (hrest : EndsDigits rest) :
    (digits ++ rest).dropWhile Char.isDigit = rest := by
  rw [List.dropWhile_append_of_pos hdigits]
  cases rest with
  | nil => rfl
  | cons c rest => exact List.dropWhile_cons_of_neg (by simp [hrest c rfl])

/-- Digits, and more of them after a point if there are any, are read up to what ends them. -/
theorem literal?_append (hne : digits ≠ [] ∨ fraction ≠ [])
    (hdigits : ∀ c ∈ digits, c.isDigit = true) (hfraction : ∀ c ∈ fraction, c.isDigit = true)
    (hrest : EndsNumber rest) :
    literal? (digits ++ ((if fraction.isEmpty then [] else '.' :: fraction) ++ rest)) =
      some ⟨digits, fraction, rest⟩ := by
  have hends : EndsDigits rest := fun c hc => (hrest c hc).1
  cases hfractions : fraction.isEmpty with
  | true =>
      obtain rfl := List.isEmpty_iff.mp hfractions
      have hempty : digits.isEmpty = false := by simpa using hne
      show literal? (digits ++ rest) = _
      simp only [literal?, takeWhile_isDigit hdigits hends, dropWhile_isDigit hdigits hends, hempty]
      split
      · exact absurd rfl (hrest '.' rfl).2
      · rfl
  | false =>
      have hpoint : EndsDigits ('.' :: (fraction ++ rest)) := fun c hc => by
        cases hc
        rfl
      simp only [literal?, Bool.false_eq_true, if_false, List.cons_append,
        takeWhile_isDigit hdigits hpoint, dropWhile_isDigit hdigits hpoint,
        takeWhile_isDigit hfraction hends, hfractions, Bool.not_false, if_true, Nat.add_comm 1,
        List.drop_succ_cons, List.drop_left]

theorem isDigit_of_mem_toDigits {n : Nat} {c : Char} (h : c ∈ Nat.toDigits 10 n) :
    c.isDigit = true :=
  Nat.isDigit_of_mem_toDigits (by decide) (by decide) h

theorem literal?_magnitudeText (n : Nat) (hrest : EndsNumber rest) :
    ∃ l, literal? (magnitudeText n ++ rest) = some l ∧ l.rest = rest := by
  have hfraction : ∀ c ∈ (if n % one = 0 then [] else fractionText (n % one)),
      c.isDigit = true := by
    intro c hc
    split at hc
    · cases hc
    · exact isDigit_of_mem_fractionText hc
  have hliteral := literal?_append (.inl (Nat.toDigits_ne_nil (n := n / one)))
    (fun _ => isDigit_of_mem_toDigits) hfraction hrest
  rw [magnitudeText, List.append_assoc]
  exact ⟨_, hliteral, rfl⟩

/-- A magnitude begins with a digit. -/
theorem exists_magnitudeText (n : Nat) :
    ∃ c t, magnitudeText n = c :: t ∧ c.isDigit = true := by
  obtain ⟨c, t, hdigits⟩ :=
    List.exists_cons_of_ne_nil (Nat.toDigits_ne_nil (n := n / one) (b := 10))
  refine ⟨c, _, by rw [magnitudeText, hdigits]; rfl, ?_⟩
  exact isDigit_of_mem_toDigits (hdigits ▸ List.mem_cons_self ..)

/-- A finite number is a magnitude, with or without a sign. -/
theorem render_cases {x : Float} (hnan : x.isNaN = false) (hinf : x.isInf = false) :
    ∃ n, render x = '-' :: magnitudeText n ∨ render x = magnitudeText n := by
  refine ⟨tenthPlaces x, ?_⟩
  simp only [render, hnan, hinf, Bool.false_eq_true, if_false]
  split
  · exact .inl rfl
  · exact .inr rfl

end Decimal

namespace NumberUnit

variable {unit : NumberUnit}

theorem read?_text (h : unit.IsRead) : read? unit.text = some unit := by
  cases unit with
  | plain | percent => rfl
  | known u => exact read?_text_known u
  | other letters => exact (of_isRead_other h).1

/-- Nothing, `%` or letters. -/
def IsSuffix (t : Text) : Prop := t = [] ∨ t = ['%'] ∨ ∀ c ∈ t, c.isAlpha = true

theorem isSuffix_of_read? {t : Text} (h : read? t = some unit) : IsSuffix t := by
  unfold read? at h
  split at h
  · rename_i hempty
    exact .inl (List.isEmpty_iff.mp hempty)
  split at h
  · rename_i hpercent
    exact .inr (.inl hpercent)
  split at h
  · rename_i hletters
    exact .inr (.inr (List.all_eq_true.mp hletters))
  · cases h

/-- A suffix does not go on with the number before it. -/
theorem IsSuffix.endsNumber {t : Text} (h : IsSuffix t) : Decimal.EndsNumber t := by
  intro c hc
  rcases h with rfl | rfl | hletters
  · cases hc
  · cases hc
    exact ⟨rfl, by decide⟩
  · have hletter := hletters c (List.mem_of_mem_head? hc)
    refine ⟨Bool.eq_false_iff.mpr fun hdigit => ?_, ?_⟩
    · have hall : ∀ n ≤ '9'.toNat, '0'.toNat ≤ n → (Char.ofNat n).isAlpha = false := by decide
      obtain ⟨hzero, hnine⟩ := Char.isDigit_iff_toNat.mp hdigit
      rw [← Char.ofNat_toNat c, hall c.toNat hnine hzero] at hletter
      cases hletter
    · rintro rfl
      cases hletter

theorem endsNumber_text (h : unit.IsRead) : Decimal.EndsNumber unit.text :=
  (isSuffix_of_read? (read?_text h)).endsNumber

end NumberUnit

/-! ## Numbers that are computed -/

/-- A number without a minus sign. -/
theorem Quantity.read?_of_unsigned {t : Text} (ht : ∀ rest, t ≠ '-' :: rest) :
    read? t = (Decimal.literal? t).bind fun l =>
      (NumberUnit.read? l.rest).bind fun unit =>
        some ⟨Decimal.toFloat l.digits l.fraction 0, unit, some t⟩ := by
  unfold read?
  split
  rename_i negative unsigned hsigned
  split at hsigned
  · exact absurd rfl (ht _)
  · cases hsigned
    simp only [Bool.false_eq_true, if_false]
    rfl

theorem Quantity.read?_render {x : Float} {unit : NumberUnit} (hnan : x.isNaN = false)
    (hinf : x.isInf = false) (h : unit.IsRead) :
    ∃ y, read? (Decimal.render x ++ unit.text) =
      some ⟨y, unit, some (Decimal.render x ++ unit.text)⟩ := by
  obtain ⟨n, hrender⟩ := Decimal.render_cases hnan hinf
  obtain ⟨l, hliteral, hrest⟩ := Decimal.literal?_magnitudeText n (NumberUnit.endsNumber_text h)
  have hunit := NumberUnit.read?_text h
  rcases hrender with hrender | hrender
  · refine ⟨-Decimal.toFloat l.digits l.fraction 0, ?_⟩
    rw [hrender]
    show (do
      let l ← Decimal.literal? (Decimal.magnitudeText n ++ unit.text)
      let unit ← NumberUnit.read? l.rest
      some (⟨-Decimal.toFloat l.digits l.fraction 0, unit, _⟩ : Quantity)) = _
    rw [hliteral, Option.bind_eq_bind, Option.bind_some, hrest, hunit]
    rfl
  · obtain ⟨c, t, hmagnitude, hdigit⟩ := Decimal.exists_magnitudeText n
    refine ⟨Decimal.toFloat l.digits l.fraction 0, ?_⟩
    have hunsigned : ∀ rest, Decimal.magnitudeText n ++ unit.text ≠ '-' :: rest := fun rest h => by
      rw [hmagnitude] at h
      cases h
      cases hdigit
    rw [hrender, read?_of_unsigned hunsigned, hliteral, Option.bind_some, hrest, hunit,
      Option.bind_some]

namespace Decimal

/-- A number with or without a minus sign, and nothing after it. -/
theorem exists_float? {t magnitude : Text} (ht : t = '-' :: magnitude ∨ t = magnitude)
    (hfirst : ∃ c rest, magnitude = c :: rest ∧ c.isDigit = true) {l : Literal}
    (hliteral : literal? magnitude = some l) (hrest : l.rest = []) :
    ∃ y, float? t = some y := by
  unfold float?
  split
  rename_i negative unsigned hsigned
  obtain rfl : magnitude = unsigned := by
    rcases ht with rfl | rfl
    · cases hsigned
      rfl
    · obtain ⟨c, rest, rfl, hc⟩ := hfirst
      split at hsigned
      · rename_i hsign
        cases hsign
        cases hc
      · rename_i hsign
        cases hsign
        cases hc
      · cases hsigned
        rfl
  simp only
  split
  · exact ⟨_, rfl⟩
  split
  · exact ⟨_, rfl⟩
  rw [hliteral, Option.bind_eq_bind, Option.bind_some, hrest]
  simp only [ite_self]
  exact ⟨_, rfl⟩

/-- What an alpha channel is written as is read, whether or not it is finite. -/
theorem float?_render (x : Float) : ∃ y, float? (render x) = some y := by
  have hnames : ∀ name ∈ ["NaN".toList, "-Infinity".toList, "Infinity".toList],
      ∃ y, float? name = some y := by
    rw [List.forall_mem_cons, List.forall_mem_cons, List.forall_mem_singleton]
    exact ⟨⟨_, rfl⟩, ⟨_, rfl⟩, ⟨_, rfl⟩⟩
  cases hnan : x.isNaN with
  | true =>
      rw [render, if_pos hnan]
      exact hnames _ (.head _)
  | false =>
      have hnumber : ¬ x.isNaN = true := Bool.eq_false_iff.mp hnan
      cases hinf : x.isInf with
      | true =>
          rw [render, if_neg hnumber, if_pos hinf]
          split
          · exact hnames _ (.tail _ (.head _))
          · exact hnames _ (.tail _ (.tail _ (.head _)))
      | false =>
          obtain ⟨n, hrender⟩ := render_cases hnan hinf
          have hends : EndsNumber [] := nofun
          obtain ⟨l, hliteral, hrest⟩ := literal?_magnitudeText n hends
          rw [List.append_nil] at hliteral
          exact exists_float? hrender (exists_magnitudeText n) hliteral hrest

end Decimal

/-! ## Colors that are computed -/

namespace Color

theorem alpha_of_ofHex? {t : Text} {c : Color} (h : ofHex? t = some c) : c.alpha = none := by
  unfold ofHex? at h
  split at h
  · obtain ⟨digits, -, h⟩ := Option.bind_eq_some_iff.mp h
    split at h
    all_goals
      cases h
      try rfl
  · cases h

theorem exists_channel? (n : Nat) : ∃ x, channel? (Nat.toDigits 10 n) = some x := by
  have hdigits : (Nat.toDigits 10 n).all Char.isDigit = true :=
    List.all_eq_true.mpr fun _ => Decimal.isDigit_of_mem_toDigits
  refine ⟨_, if_neg ?_⟩
  simp [hdigits, Nat.toDigits_ne_nil]

variable (rgb : Rgb Float) (alpha : Float)

/-- The components of a color that is computed with an alpha channel. -/
def rgbaParts : List Text :=
  [Nat.toDigits 10 (shown rgb.red), ' ' :: Nat.toDigits 10 (shown rgb.green),
    ' ' :: Nat.toDigits 10 (shown rgb.blue), ' ' :: Decimal.render alpha]

theorem callText_rgbaParts : callText "rgba" (rgbaParts rgb alpha) =
    "rgba" ++ '(' :: rgbaText rgb alpha ++ [')'] := by
  rw [callText, rgbaParts, join_comma]
  simp [rgbaText]

theorem trim_rgbaParts : (rgbaParts rgb alpha).map Text.trim =
    [Nat.toDigits 10 (shown rgb.red), Nat.toDigits 10 (shown rgb.green),
      Nat.toDigits 10 (shown rgb.blue), Decimal.render alpha] := by
  have htrim {t : Text} (h : Token.IsWord t) : Text.trim t = t ∧ Text.trim (' ' :: t) = t := by
    have ht := (Token.Reads.word h).trim_eq
    exact ⟨ht, ht⟩
  have halpha : Token.IsWord (Decimal.render alpha) := by
    have h := Token.isWord_render alpha [] nofun
    rwa [List.append_nil] at h
  simp only [rgbaParts, List.map_cons, List.map_nil, htrim (Token.isWord_toDigits _),
    htrim halpha]

theorem isComponent_of_mem_rgbaParts : ∀ p ∈ rgbaParts rgb alpha, IsComponent p := by
  intro p hp
  have hmem := List.mem_map_of_mem (f := Text.trim) hp
  rw [trim_rgbaParts] at hmem
  have hread : (∃ n, Text.trim p = Nat.toDigits 10 n) ∨ Text.trim p = Decimal.render alpha := by
    simp only [List.mem_cons, List.not_mem_nil, or_false] at hmem
    rcases hmem with h | h | h | h
    · exact .inl ⟨_, h⟩
    · exact .inl ⟨_, h⟩
    · exact .inl ⟨_, h⟩
    · exact .inr h
  rcases hread with ⟨n, hn⟩ | halpha
  · obtain ⟨x, hx⟩ := exists_channel? n
    exact .of_channel? (hn.symm ▸ hx)
  · obtain ⟨x, hx⟩ := Decimal.float?_render alpha
    exact .of_float? (halpha.symm ▸ hx)

theorem callParts?_rgbaText :
    callParts? "rgba(" ("rgba" ++ '(' :: rgbaText rgb alpha ++ [')']) =
      some [Nat.toDigits 10 (shown rgb.red), Nat.toDigits 10 (shown rgb.green),
        Nat.toDigits 10 (shown rgb.blue), Decimal.render alpha] := by
  rw [← callText_rgbaParts, ← trim_rgbaParts]
  exact callParts?_callText "rgba" (List.cons_ne_nil _ _) (isComponent_of_mem_rgbaParts rgb alpha)

theorem ofCall?_rgbaText :
    ∃ c, ofCall? ("rgba" ++ '(' :: rgbaText rgb alpha ++ [')']) = some c ∧
      c.alpha.isSome = true := by
  obtain ⟨r, hr⟩ := exists_channel? (shown rgb.red)
  obtain ⟨g, hg⟩ := exists_channel? (shown rgb.green)
  obtain ⟨b, hb⟩ := exists_channel? (shown rgb.blue)
  obtain ⟨x, hx⟩ := Decimal.float?_render alpha
  have hcall : ofCall? ("rgba" ++ '(' :: rgbaText rgb alpha ++ [')']) =
      some ⟨⟨r, g, b⟩, some x, some ("rgba" ++ '(' :: rgbaText rgb alpha ++ [')'])⟩ := by
    simp only [ofCall?, callParts?_rgbaText, hr, hg, hb, hx, Option.bind_eq_bind, Option.bind_some]
  exact ⟨_, hcall, rfl⟩

end Color

end Cascade
