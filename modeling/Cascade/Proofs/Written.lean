import Cascade.Evaluation
import Cascade.Proofs.Tokens

/-!
# How computed values are written

A computed number is written as a single word, and so is a computed color that has no
alpha channel; with one it is a call of `rgba`. Either way the text reads back as one
token, whatever the value is: nothing here depends on the arithmetic.
-/

namespace Cascade

namespace Token

theorem isWordChar_of_isNameChar {c : Char} (h : isNameChar c = true) : isWordChar c = true := by
  have hne (b : Char) (hb : isNameChar b = false) : (c == b) = false := by
    refine beq_eq_false_iff_ne.mpr ?_
    rintro rfl
    rw [h] at hb
    cases hb
  simp [isWordChar, isBlank_of_isNameChar h, hne ',' (by decide), hne '(' (by decide),
    hne ')' (by decide), hne '"' (by decide), hne '\'' (by decide), hne '@' (by decide)]

/-- With a letter or a digit in it, a name cannot be the sign of an operation. -/
theorem IsWord.of_isAlphanum {t : Text} (h : ∀ c ∈ t, isWordChar c = true) {c : Char}
    (hc : c ∈ t) (halphanum : c.isAlphanum = true) : IsWord t := by
  refine .name ⟨List.ne_nil_of_mem hc, h⟩ fun o ho => ?_
  rw [ho] at hc
  obtain rfl := List.mem_singleton.mp hc
  cases o <;> cases halphanum

theorem IsWord.of_all {t : Text} (h : t.all isWordChar = true)
    (halphanum : t.any Char.isAlphanum = true) : IsWord t := by
  obtain ⟨c, hc, halphanum⟩ := List.any_eq_true.mp halphanum
  exact .of_isAlphanum (List.all_eq_true.mp h) hc halphanum

end Token

/-! ## Numbers -/

namespace Decimal

theorem isDigit_of_mem_fractionText {n : Nat} {c : Char} (h : c ∈ fractionText n) :
    c.isDigit = true := by
  have hsub := (List.dropWhile_sublist (· == '0')).subset (List.mem_reverse.mp h)
  rcases List.mem_append.mp (List.mem_reverse.mp hsub) with hzero | hdigit
  · rw [List.eq_of_mem_replicate hzero]
    rfl
  · exact Nat.isDigit_of_mem_toDigits (by decide) (by decide) hdigit

theorem of_mem_magnitudeText {n : Nat} {c : Char} (h : c ∈ magnitudeText n) :
    c.isDigit = true ∨ c = '.' := by
  have hplaces : ∀ c ∈ (if n % one = 0 then [] else fractionText (n % one)), c.isDigit = true := by
    intro c hc
    split at hc
    · cases hc
    · exact isDigit_of_mem_fractionText hc
  unfold magnitudeText at h
  generalize (if n % one = 0 then [] else fractionText (n % one)) = fraction at h hplaces
  rcases List.mem_append.mp h with hdigit | hfraction
  · exact .inl (Nat.isDigit_of_mem_toDigits (by decide) (by decide) hdigit)
  · split at hfraction
    · cases hfraction
    · rcases List.mem_cons.mp hfraction with rfl | hfraction
      · exact .inr rfl
      · exact .inl (hplaces c hfraction)

theorem exists_isDigit_magnitudeText (n : Nat) : ∃ c ∈ magnitudeText n, c.isDigit = true := by
  have hne : Nat.toDigits 10 (n / one) ≠ [] := Nat.toDigits_ne_nil
  obtain ⟨c, rest, hdigits⟩ := List.exists_cons_of_ne_nil hne
  have hc : c ∈ Nat.toDigits 10 (n / one) := hdigits ▸ List.mem_cons_self ..
  exact ⟨c, List.mem_append_left _ hc, Nat.isDigit_of_mem_toDigits (by decide) (by decide) hc⟩

/-- A number is written with letters, digits, a sign and a point. -/
theorem of_mem_render {x : Float} {c : Char} (h : c ∈ render x) :
    c.isAlphanum = true ∨ c = '-' ∨ c = '.' := by
  have hmagnitude {n : Nat} (h : c ∈ magnitudeText n) :
      c.isAlphanum = true ∨ c = '-' ∨ c = '.' := by
    rcases of_mem_magnitudeText h with hdigit | rfl
    · exact .inl (by simp [Char.isAlphanum, hdigit])
    · exact .inr (.inr rfl)
  unfold render at h
  split at h
  · have hall : ∀ c ∈ "NaN".toList, c.isAlphanum = true := List.all_eq_true.mp (by decide)
    exact .inl (hall c h)
  split at h
  · split at h
    · have hall : ∀ c ∈ "-Infinity".toList, c.isAlphanum = true ∨ c = '-' :=
        List.forall_mem_cons.mpr ⟨.inr rfl, fun c hc => .inl (List.all_eq_true.mp (by decide) c hc)⟩
      rcases hall c h with h | h
      · exact .inl h
      · exact .inr (.inl h)
    · have hall : ∀ c ∈ "Infinity".toList, c.isAlphanum = true :=
        List.all_eq_true.mp (by decide)
      exact .inl (hall c h)
  simp only at h
  split at h
  · rcases List.mem_cons.mp h with rfl | h
    · exact .inr (.inl rfl)
    · exact hmagnitude h
  · exact hmagnitude h

theorem exists_isAlphanum_render (x : Float) : ∃ c ∈ render x, c.isAlphanum = true := by
  have hmagnitude (n : Nat) : ∃ c ∈ magnitudeText n, c.isAlphanum = true := by
    obtain ⟨c, hc, hdigit⟩ := exists_isDigit_magnitudeText n
    exact ⟨c, hc, by simp [Char.isAlphanum, hdigit]⟩
  unfold render
  split
  · exact ⟨'N', by decide, rfl⟩
  split
  · split
    · exact ⟨'I', by decide, rfl⟩
    · exact ⟨'I', by decide, rfl⟩
  simp only
  split
  · obtain ⟨c, hc, halphanum⟩ := hmagnitude (tenthPlaces x)
    exact ⟨c, List.mem_cons_of_mem _ hc, halphanum⟩
  · exact hmagnitude (tenthPlaces x)

end Decimal

namespace Token

theorem isWordChar_of_isAlphanum {c : Char} (h : c.isAlphanum = true) : isWordChar c = true :=
  isWordChar_of_isNameChar (by simp [isNameChar, h])

/-- A number is a word, with whatever follows it without a gap. -/
theorem isWord_render (x : Float) (unit : Text) (h : ∀ c ∈ unit, isWordChar c = true) :
    IsWord (Decimal.render x ++ unit) := by
  obtain ⟨c, hc, halphanum⟩ := Decimal.exists_isAlphanum_render x
  refine .of_isAlphanum (fun b hb => ?_) (List.mem_append_left _ hc) halphanum
  rcases List.mem_append.mp hb with hb | hb
  · rcases Decimal.of_mem_render hb with hb | rfl | rfl
    · exact isWordChar_of_isAlphanum hb
    · decide
    · decide
  · exact h b hb

theorem isWord_toDigits (n : Nat) : IsWord (Nat.toDigits 10 n) := by
  obtain ⟨c, rest, hdigits⟩ := List.exists_cons_of_ne_nil (Nat.toDigits_ne_nil (n := n) (b := 10))
  have halphanum : ∀ c ∈ Nat.toDigits 10 n, c.isAlphanum = true := fun c hc => by
    simp [Char.isAlphanum, Nat.isDigit_of_mem_toDigits (by decide) (by decide) hc]
  have hc : c ∈ Nat.toDigits 10 n := hdigits ▸ List.mem_cons_self ..
  exact .of_isAlphanum (fun b hb => isWordChar_of_isAlphanum (halphanum b hb)) hc (halphanum c hc)

end Token

/-! ## Colors -/

namespace Color

theorem shown_lt (channel : Float) : shown channel < 256 := UInt8.toNat_lt _

/-- The digits of a channel are hexadecimal digits. -/
theorem hexDigit?_digitChar {n : Nat} (h : n < 16) :
    (Nat.digitChar n).isAlphanum = true ∧ hexDigit? (Nat.digitChar n) = some n := by
  have hall : ∀ n < 16, (Nat.digitChar n).isAlphanum = true ∧
      hexDigit? (Nat.digitChar n) = some n := by decide
  exact hall n h

theorem of_mem_hexPair {n : Nat} (h : n < 256) :
    (∀ c ∈ hexPair n, c.isAlphanum = true) ∧
      (hexPair n).mapM hexDigit? = some [n / 16, n % 16] := by
  have hhigh := hexDigit?_digitChar (Nat.div_lt_of_lt_mul h : n / 16 < 16)
  have hlow := hexDigit?_digitChar (Nat.mod_lt n (by decide) : n % 16 < 16)
  refine ⟨fun c hc => ?_, ?_⟩
  · rcases List.mem_cons.mp hc with rfl | hc
    · exact hhigh.1
    · rw [List.mem_singleton.mp hc]
      exact hlow.1
  · simp [hexPair, hhigh.2, hlow.2]

variable (rgb : Rgb Float)

/-- The digits of a color without an alpha channel. -/
def hexText : Text :=
  hexPair (shown rgb.red) ++ hexPair (shown rgb.green) ++ hexPair (shown rgb.blue)

theorem isWord_hexText : Token.IsWord ('#' :: hexText rgb) := by
  have hall : ∀ c ∈ hexText rgb, c.isAlphanum = true := by
    intro c hc
    rcases List.mem_append.mp hc with hc | hc
    · rcases List.mem_append.mp hc with hc | hc
      · exact (of_mem_hexPair (shown_lt _)).1 c hc
      · exact (of_mem_hexPair (shown_lt _)).1 c hc
    · exact (of_mem_hexPair (shown_lt _)).1 c hc
  have hfirst : Nat.digitChar (shown rgb.red / 16) ∈ hexText rgb := List.mem_cons_self ..
  refine .of_isAlphanum (fun c hc => ?_) (List.mem_cons_of_mem _ hfirst) (hall _ hfirst)
  rcases List.mem_cons.mp hc with rfl | hc
  · decide
  · exact Token.isWordChar_of_isAlphanum (hall c hc)

theorem ofHex?_hexText : ∃ c, ofHex? ('#' :: hexText rgb) = some c := by
  have hdigits : (hexText rgb).mapM hexDigit? = some
      [shown rgb.red / 16, shown rgb.red % 16, shown rgb.green / 16, shown rgb.green % 16,
        shown rgb.blue / 16, shown rgb.blue % 16] := by
    simp [hexText, List.mapM_append, (of_mem_hexPair (shown_lt _)).2]
  exact ⟨_, by rw [ofHex?, hdigits]; rfl⟩

/-- What stands between the parentheses of a color with an alpha channel. -/
def rgbaText (alpha : Float) : Text :=
  Nat.toDigits 10 (shown rgb.red) ++ (", " ++ (Nat.toDigits 10 (shown rgb.green) ++ (", " ++
    (Nat.toDigits 10 (shown rgb.blue) ++ (", " ++ Decimal.render alpha)))))

def rgbaTokens (alpha : Float) : List Token :=
  [.word (Nat.toDigits 10 (shown rgb.red)), .comma true,
    .word (Nat.toDigits 10 (shown rgb.green)), .comma true,
    .word (Nat.toDigits 10 (shown rgb.blue)), .comma true, .word (Decimal.render alpha)]

theorem reads_rgbaText (alpha : Float) :
    Token.Reads (rgbaText rgb alpha) (rgbaTokens rgb alpha) := by
  have halpha : Token.IsWord (Decimal.render alpha) := by
    have h := Token.isWord_render alpha [] fun _ h => by cases h
    rwa [List.append_nil] at h
  have hword (n : Nat) := Token.Reads.word (Token.isWord_toDigits n)
  have hcomma : (Token.comma true).IsJoint := trivial
  exact (hword _).join hcomma ((hword _).join hcomma ((hword _).join hcomma (.word halpha)))

theorem verbatims_rgbaTokens (alpha : Float) :
    Piece.verbatims (Token.computeAll (rgbaTokens rgb alpha)) = .ok (rgbaText rgb alpha) := by
  show Except.ok _ = _
  simp [rgbaText, Separator.text]

theorem text_computed_some (alpha : Float) :
    (computed rgb (some alpha)).text =
      "rgba" ++ '(' :: rgbaText rgb (Scalar.clamp 0.0 1.0 alpha) ++ [')'] := by
  simp [text, computed, rgbaText]

end Color

end Cascade
