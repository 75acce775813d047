/-!
# Text

Text is a list of characters, so that every function on it is a structural
recursion and every rule about it can be proved by induction. Strings appear
only where text enters or leaves the library.

The module holds the character classes of the stylesheet language and the few
operations on text that are not already operations on lists:

- `isBlank` is the white space that trimming, collapsing and the value grammar
  know; `isGap` is the narrower white space between statements;
- `Text.collapse` is the normal form of a selector or a prelude: words joined by
  single spaces;
- `Text.after?` and `Text.before?` take a known beginning or ending off a text;
- `Text.lastGroup?` finds the parenthesis that a final `)` closes.
-/

namespace Cascade

abbrev Text := List Char

instance : Coe String Text := ⟨String.toList⟩

/-! ## Character classes -/

/-- White space in the Unicode sense: the characters with the property
`White_Space`. -/
def isBlank (c : Char) : Bool :=
  (0x09 ≤ c.toNat && c.toNat ≤ 0x0D) || c.toNat == 0x20 || c.toNat == 0x85 ||
    c.toNat == 0xA0 || c.toNat == 0x1680 || (0x2000 ≤ c.toNat && c.toNat ≤ 0x200A) ||
    c.toNat == 0x2028 || c.toNat == 0x2029 || c.toNat == 0x202F || c.toNat == 0x205F ||
    c.toNat == 0x3000

/-- The white space that may stand between statements. Other blanks belong to
the statement they touch. -/
def isGap (c : Char) : Bool :=
  c == ' ' || c == '\t' || c == '\n'

/-- Characters of the names of variables, mixins and parameters: ASCII letters
and digits, `_` and `-`. -/
def isNameChar (c : Char) : Bool :=
  c.isAlphanum || c == '_' || c == '-'

theorem isBlank_of_isGap {c : Char} (h : isGap c = true) : isBlank c = true := by
  simp only [isGap, Bool.or_eq_true, beq_iff_eq] at h
  rcases h with (rfl | rfl) | rfl <;> rfl

namespace Text

/-! ## Trimming and collapsing -/

def trimStart (t : Text) : Text := t.dropWhile isBlank

def trimEnd (t : Text) : Text := (t.reverse.dropWhile isBlank).reverse

def trim (t : Text) : Text := trimEnd (trimStart t)

/-- The maximal runs of characters that are not blank. -/
def words (t : Text) : List Text := (t.splitOnP isBlank).filter (!·.isEmpty)

def join (separator : Text) (parts : List Text) : Text := List.intercalate separator parts

/-- Every run of blanks becomes one space, and none is left at the ends. -/
def collapse (t : Text) : Text := join [' '] (words t)

/-! ## Beginnings and endings -/

/-- What follows `lead` in a text that begins with it. -/
def after? : (lead t : Text) → Option Text
  | [], t => some t
  | _ :: _, [] => none
  | a :: lead, c :: t => if a = c then after? lead t else none

/-- As `after?`, but ASCII letters match in either case. -/
def afterIgnoringCase? : (lead t : Text) → Option Text
  | [], t => some t
  | _ :: _, [] => none
  | a :: lead, c :: t => if a.toLower = c.toLower then afterIgnoringCase? lead t else none

/-- What precedes `tail` in a text that ends with it. -/
def before? (tail t : Text) : Option Text :=
  (after? tail.reverse t.reverse).map List.reverse

theorem after?_append (lead t : Text) : after? lead (lead ++ t) = some t := by
  induction lead with
  | nil => rfl
  | cons a lead ih => simp [after?, ih]

theorem eq_append_of_after? {lead t rest : Text} (h : after? lead t = some rest) :
    t = lead ++ rest := by
  induction lead generalizing t with
  | nil => simpa [after?] using h
  | cons a lead ih =>
      cases t with
      | nil => simp [after?] at h
      | cons c t =>
          by_cases hac : a = c
          · simp only [after?, hac, if_true] at h
            simp [hac, ih h]
          · simp [after?, hac] at h

theorem after?_eq_some_iff {lead t rest : Text} :
    after? lead t = some rest ↔ t = lead ++ rest :=
  ⟨eq_append_of_after?, fun h => h ▸ after?_append lead rest⟩

theorem before?_eq_some_iff {tail t rest : Text} :
    before? tail t = some rest ↔ t = rest ++ tail := by
  simp only [before?, Option.map_eq_some_iff, after?_eq_some_iff]
  constructor
  · rintro ⟨r, h, rfl⟩
    have := congrArg List.reverse h
    simpa using this
  · rintro rfl
    exact ⟨rest.reverse, by simp, by simp⟩

/-! ## The group at the end -/

/-- Walks backwards from a `)` to the `(` it closes. `further` counts the
parentheses closed since, `inside` is what has been passed over. -/
def openBackwards : (further : Nat) → (inside reversed : Text) → Option (Text × Text)
  | _, _, [] => none
  | further, inside, c :: rest =>
    if c = ')' then openBackwards (further + 1) (c :: inside) rest
    else if c = '(' then
      match further with
      | 0 => some (rest.reverse, inside)
      | further + 1 => openBackwards further (c :: inside) rest
    else openBackwards further (c :: inside) rest

/-- For a text that ends in `)`: what precedes the `(` that it closes, and what
stands between the two. -/
def lastGroup? (t : Text) : Option (Text × Text) :=
  match t.reverse with
  | ')' :: rest => openBackwards 0 [] rest
  | _ => none

end Text

end Cascade
