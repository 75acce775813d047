import Cascade.Proofs.Strings
import Cascade.Proofs.Tokens

/-!
# Reading turn by turn

`Token.Lexes` says how the tokens of a text are read: one rule for each turn that the loop can
take, with what the turn passes, the token it gives and what follows. The turns are counted.

Every text is read so (`Token.exists_lexes`), and what `Token.scan` gives is what the turns give
(`Token.Lexes.scan_eq`). A turn passes a character at least, so reading ends after as many turns
as the text has characters, whether or not its parentheses and strings are closed
(`Token.Lexes.turns_le`).

Tokens that have no tokens inside are read in one turn (`Token.Chunk`), and what is true of
all of them is said of a chunk.
-/

namespace Cascade

/-- A run of white space that is not empty. -/
def IsBlanks (t : Text) : Prop := t ≠ [] ∧ ∀ c ∈ t, isBlank c = true

/-- No white space at the beginning. -/
def Starts (t : Text) : Prop := ∀ c ∈ t.head?, isBlank c = false

theorem starts_char (o : Operator) (t : Text) : Starts (o.char :: t) := by
  rintro c ⟨⟩
  exact o.isBlank_char

theorem starts_dropWhile (t : Text) : Starts (t.dropWhile isBlank) := by
  intro c hc
  have hnot := List.head?_dropWhile_not isBlank t
  rw [hc] at hnot
  simpa using hnot

theorem Starts.dropWhile {t : Text} (h : Starts t) : t.dropWhile isBlank = t := by
  cases t with
  | nil => rfl
  | cons c t => exact List.dropWhile_cons_of_neg (by simp [h c rfl])

theorem dropWhile_blanks {blanks t : Text} (h : ∀ c ∈ blanks, isBlank c = true) (ht : Starts t) :
    (blanks ++ t).dropWhile isBlank = t := by
  rw [List.dropWhile_append_of_pos h, ht.dropWhile]

theorem decide_length_lt {blanks t : Text} (h : ∀ c ∈ blanks, isBlank c = true) (ht : Starts t) :
    decide ((List.dropWhile isBlank (blanks ++ t)).length < (blanks ++ t).length) =
      !blanks.isEmpty := by
  rw [dropWhile_blanks h ht]
  cases blanks with
  | nil => simp
  | cons c blanks =>
      simp only [List.cons_append, List.length_cons, List.length_append, List.isEmpty_cons]
      exact decide_eq_true (by omega)

theorem isBlanks_takeWhile {c : Char} (h : isBlank c = true) (t : Text) :
    IsBlanks (c :: t.takeWhile isBlank) :=
  ⟨List.cons_ne_nil _ _, List.forall_mem_cons.mpr ⟨h, fun _ hd => List.mem_takeWhile_imp hd⟩⟩

namespace IsBlanks

variable {blanks : Text}

theorem exists_cons (h : IsBlanks blanks) :
    ∃ c rest, blanks = c :: rest ∧ isBlank c = true ∧ ∀ d ∈ rest, isBlank d = true := by
  obtain ⟨c, rest, rfl⟩ := List.exists_cons_of_ne_nil h.1
  exact ⟨c, rest, rfl, List.forall_mem_cons.mp h.2⟩

/-- White space changes nothing of a scan. -/
theorem run_append (h : IsBlanks blanks) (t : Text) :
    Quoting.run .outside (blanks ++ t) = Quoting.run .outside t := by
  rw [Quoting.run_append, Text.run_of_plain fun c hc => not_isQuote_of_isBlank (h.2 c hc)]

theorem single : IsBlanks [' '] := ⟨List.cons_ne_nil _ _, List.forall_mem_singleton.mpr rfl⟩

end IsBlanks

namespace Token

/-- A word begins with the character: it is not the beginning of anything else. -/
structure BeginsWord (nested first : Bool) (c : Char) (rest : Text) : Prop where
  solid : isBlank c = false
  not_comma : c ≠ ','
  not_open : c ≠ '('
  not_close : nested = true → c ≠ ')'
  not_variable : variableAt (c :: rest) = false
  not_quote : isQuote c = false
  not_operator : first = true → operatorAt? (c :: rest) = none

/-- What is passed for a token that has no tokens inside, and what follows. -/
inductive Chunk (nested first : Bool) : Text → Token → Text → Prop
  | space {blanks t : Text} : IsBlanks blanks → Begins t → operatorAt? t = none →
      Chunk nested first blanks space t
  | operator {o : Operator} {before after t : Text} : IsBlanks before → IsBlanks after → Starts t →
      Chunk nested first (before ++ o.char :: after) (operator o) t
  | leading {o : Operator} {after t : Text} : first = true → IsBlanks after → Starts t →
      Chunk nested first (o.char :: after) (operator o) t
  | comma {blanks t : Text} : (∀ c ∈ blanks, isBlank c = true) → Starts t →
      Chunk nested first (',' :: blanks) (comma !blanks.isEmpty) t
  | reference {name t : Text} : name ≠ [] → (∀ c ∈ name, isNameChar c = true) →
      (∀ c ∈ t.head?, isNameChar c = false) →
      Chunk nested first ('@' :: name) (reference name) t
  | string {mark : Char} {s t : Text} : isQuote mark = true → closes mark false s = true →
      Chunk nested first (mark :: s) (word (mark :: s)) t
  | openString {mark : Char} {s : Text} : isQuote mark = true → quotedRest mark false s = (s, []) →
      Quoting.run (.inside mark false) s ≠ .outside →
      Chunk nested first (mark :: s) (word (mark :: s)) []
  | word {c : Char} {w t : Text} : BeginsWord nested first c (w ++ t) →
      wordRest (w ++ t) = (w, t) → t.head? ≠ some '(' →
      Chunk nested first (c :: w) (word (c :: w)) t

/-- How a text is read: the tokens, what is left of it behind the closing parenthesis, and the
number of turns. -/
inductive Lexes : (nested first : Bool) → Text → List Token → Text → Nat → Prop
  | done {nested first : Bool} : Lexes nested first [] [] [] 0
  | close {first : Bool} {t : Text} : Lexes true first (')' :: t) [] t 1
  | silent {nested first : Bool} {blanks t rest : Text} {tokens : List Token} {n : Nat} :
      IsBlanks blanks → Starts t → endsTerm t = true → Lexes nested first t tokens rest n →
      Lexes nested first (blanks ++ t) tokens rest (n + 1)
  | chunk {nested first : Bool} {passed t rest : Text} {token : Token} {tokens : List Token}
      {n : Nat} : Chunk nested first passed token t → Lexes nested false t tokens rest n →
      Lexes nested first (passed ++ t) (token :: tokens) rest (n + 1)
  | group {nested first : Bool} {t middle rest : Text} {inside tokens : List Token} {m n : Nat} :
      Lexes true true t inside middle m → Lexes nested false middle tokens rest n →
      Lexes nested first ('(' :: t) (group inside :: tokens) rest (m + n + 1)
  | call {nested first : Bool} {c : Char} {w t middle rest : Text} {inside tokens : List Token}
      {m n : Nat} : BeginsWord nested first c (w ++ '(' :: t) →
      wordRest (w ++ '(' :: t) = (w, '(' :: t) →
      Lexes true true t inside middle m → Lexes nested false middle tokens rest n →
      Lexes nested first (c :: w ++ '(' :: t) (call (c :: w) inside :: tokens) rest (m + n + 1)

theorem Begins.starts {t : Text} (h : Begins t) : Starts t := by
  cases t with
  | nil => exact h.elim
  | cons c t =>
      rintro _ ⟨⟩
      exact h.1

/-! ## Every text is read so -/

theorem operatorAt?_eq_some {t : Text} {o : Operator} (h : operatorAt? t = some o) :
    ∃ d rest, t = o.char :: d :: rest ∧ isBlank d = true := by
  match t with
  | [] => cases h
  | [_] => cases h
  | c :: d :: rest =>
      rw [operatorAt?] at h
      split at h
      · rename_i hd
        exact ⟨d, rest, by rw [eq_char_of_ofChar? h], hd⟩
      · cases h

theorem operatorAt?_char (o : Operator) {after : Text} (h : IsBlanks after) (t : Text) :
    operatorAt? (o.char :: (after ++ t)) = some o := by
  obtain ⟨d, rest, rfl, hd, -⟩ := h.exists_cons
  rw [List.cons_append, operatorAt?, if_pos hd]
  cases o <;> rfl

theorem wordRest_append_eq (t : Text) : (wordRest t).1 ++ (wordRest t).2 = t := by
  induction t with
  | nil => rfl
  | cons c t ih =>
      rw [wordRest]
      split
      · rfl
      · exact congrArg (c :: ·) ih

theorem wordRest_append_self {w t u : Text} (h : wordRest t = (w, u)) : w ++ u = t := by
  simpa [h] using wordRest_append_eq t

theorem variableAt_eq_true {t : Text} (h : variableAt t = true) :
    ∃ d rest, t = '@' :: d :: rest ∧ isNameChar d = true := by
  unfold variableAt at h
  split at h
  · exact ⟨_, _, rfl, h⟩
  · cases h

/-- A character that does not close a string only matters as an escape. -/
theorem step_inside {mark c : Char} {escaped : Bool} (h : (!escaped && c == mark) = false) :
    Quoting.step (.inside mark escaped) c = .inside mark (!escaped && c == '\\') := by
  cases escaped with
  | true => rfl
  | false =>
      have hne : c ≠ mark := by simpa using h
      by_cases hescape : c = '\\' <;> simp [Quoting.step, hescape, hne]

/-- A string that is read is closed, or it takes everything. -/
theorem quotedRest_cases (mark : Char) (t : Text) : ∀ escaped : Bool,
    (∃ s u, t = s ++ u ∧ closes mark escaped s = true) ∨
      quotedRest mark escaped t = (t, []) ∧
        Quoting.run (.inside mark escaped) t ≠ .outside := by
  induction t with
  | nil => exact fun _ => .inr ⟨rfl, nofun⟩
  | cons c t ih =>
      intro escaped
      cases hclose : !escaped && c == mark with
      | true => exact .inl ⟨[c], t, rfl, by rw [closes, if_pos hclose]; rfl⟩
      | false =>
          rcases ih (!escaped && c == '\\') with ⟨s, u, rfl, hcloses⟩ | ⟨hopen, hrun⟩
          · exact .inl ⟨c :: s, u, rfl, by rw [closes, hclose]; exact hcloses⟩
          · exact .inr ⟨by rw [quotedRest, hclose, hopen]; rfl,
              by rw [Quoting.run_cons, step_inside hclose]; exact hrun⟩

theorem run_of_closes {mark : Char} (hmark : isQuote mark = true) {s : Text} :
    ∀ {escaped : Bool}, closes mark escaped s = true →
      Quoting.run (.inside mark escaped) s = .outside := by
  induction s with
  | nil => exact fun h => by cases h
  | cons c s ih =>
      intro escaped h
      rw [closes] at h
      rw [Quoting.run_cons]
      cases hclose : !escaped && c == mark with
      | true =>
          rw [hclose] at h
          obtain ⟨hescaped, hc⟩ : escaped = false ∧ c = mark := by simpa using hclose
          have hne : mark ≠ '\\' := by
            rintro rfl
            cases hmark
          rw [List.isEmpty_iff.mp h, hescaped, hc]
          simp [Quoting.step, hne]
      | false =>
          rw [hclose] at h
          rw [step_inside hclose]
          exact ih h

theorem Chunk.ne_nil {nested first : Bool} {passed t : Text} {token : Token}
    (h : Chunk nested first passed token t) : passed ≠ [] := by
  cases h with
  | space hblanks => exact hblanks.1
  | operator => exact List.append_ne_nil_of_right_ne_nil _ (List.cons_ne_nil _ _)
  | leading | comma | reference | string | openString | word => exact List.cons_ne_nil _ _

namespace Lexes

variable {nested first : Bool} {t rest : Text} {tokens : List Token} {n : Nat}

theorem turns_le (h : Lexes nested first t tokens rest n) : n + rest.length ≤ t.length := by
  induction h with
  | done => exact Nat.le_refl _
  | close => simp [Nat.add_comm]
  | silent hblanks _ _ _ ih =>
      have hpos := List.length_pos_of_ne_nil hblanks.1
      rw [List.length_append]
      omega
  | chunk hchunk _ ih =>
      have hpos := List.length_pos_of_ne_nil hchunk.ne_nil
      rw [List.length_append]
      omega
  | group _ _ ih ih' =>
      rw [List.length_cons]
      omega
  | call _ _ _ _ ih ih' =>
      simp only [List.cons_append, List.length_cons, List.length_append]
      omega

end Lexes

/-- A text can be read if all that are shorter can: white space is passed in one turn, with an
operator that it stands before. -/
theorem exists_lexes_blank {nested first : Bool} {c : Char} {rest : Text}
    (hblank : isBlank c = true) (hshorter : ∀ first t, t.length < (c :: rest).length →
      ∃ tokens last n, Lexes nested first t tokens last n) :
    ∃ tokens last n, Lexes nested first (c :: rest) tokens last n := by
  have hblanks := isBlanks_takeWhile hblank rest
  have hstarts := starts_dropWhile rest
  have hlength := length_dropBlank_lt c rest
  rw [show c :: rest = (c :: rest.takeWhile isBlank) ++ rest.dropWhile isBlank by
    rw [List.cons_append, List.takeWhile_append_dropWhile]]
  generalize c :: rest.takeWhile isBlank = blanks at hblanks
  generalize rest.dropWhile isBlank = after at hstarts hlength
  cases ho : operatorAt? after with
  | some o =>
      obtain ⟨d, behind, rfl, hd⟩ := operatorAt?_eq_some ho
      have hbehind := length_dropBlank_lt o.char (d :: behind)
      rw [List.dropWhile_cons_of_pos hd] at hbehind
      obtain ⟨tokens, last, n, hlexes⟩ := hshorter false _ (Nat.lt_trans hbehind hlength)
      rw [show blanks ++ o.char :: d :: behind =
        (blanks ++ o.char :: (d :: behind.takeWhile isBlank)) ++ behind.dropWhile isBlank by simp]
      exact ⟨_, _, _, .chunk
        (.operator hblanks (isBlanks_takeWhile hd behind) (starts_dropWhile behind)) hlexes⟩
  | none =>
      cases hends : endsTerm after with
      | true =>
          obtain ⟨tokens, last, n, hlexes⟩ := hshorter first _ hlength
          exact ⟨_, _, _, .silent hblanks hstarts hends hlexes⟩
      | false =>
          have hbegins : Begins after := by
            cases after with
            | nil => cases hends
            | cons d behind => simpa [Begins, endsTerm, hstarts d rfl] using hends
          obtain ⟨tokens, last, n, hlexes⟩ := hshorter false _ hlength
          exact ⟨_, _, _, .chunk (.space hblanks hbegins ho) hlexes⟩

theorem length_lt_cons_append (c : Char) (w t : Text) : t.length < (c :: (w ++ t)).length := by
  rw [List.length_cons, List.length_append]
  omega

/-- The same for a word, which may turn out to be the name of a call. -/
theorem exists_lexes_word {nested first : Bool} {c : Char} {rest : Text}
    (hbegins : BeginsWord nested first c rest)
    (hshorter : ∀ nested first t, t.length < (c :: rest).length →
      ∃ tokens last n, Lexes nested first t tokens last n) :
    ∃ tokens last n, Lexes nested first (c :: rest) tokens last n := by
  obtain ⟨w, after, hword⟩ : ∃ w after, wordRest rest = (w, after) := ⟨_, _, rfl⟩
  obtain rfl := wordRest_append_self hword
  have hafter := length_lt_cons_append c w after
  by_cases hopen : after.head? = some '('
  · obtain ⟨t, rfl⟩ := List.head?_eq_some_iff.mp hopen
    have ht := Nat.lt_trans (Nat.lt_succ_self t.length) hafter
    obtain ⟨inside, middle, m, hinside⟩ := hshorter true true t ht
    have hmiddle : middle.length ≤ t.length := Nat.le_trans (Nat.le_add_left _ _) hinside.turns_le
    obtain ⟨tokens, last, n, hlexes⟩ := hshorter nested false middle (Nat.lt_of_le_of_lt hmiddle ht)
    exact ⟨_, _, _, .call hbegins hword hinside hlexes⟩
  · obtain ⟨tokens, last, n, hlexes⟩ := hshorter nested false after hafter
    exact ⟨_, _, _, .chunk (.word hbegins hword hopen) hlexes⟩

theorem exists_lexes_reference {nested first : Bool} {c : Char} {rest : Text}
    (hvariable : variableAt (c :: rest) = true) (hshorter : ∀ t, t.length < (c :: rest).length →
      ∃ tokens last n, Lexes nested false t tokens last n) :
    ∃ tokens last n, Lexes nested first (c :: rest) tokens last n := by
  obtain ⟨d, name, hname, hd⟩ := variableAt_eq_true hvariable
  obtain ⟨rfl, rfl⟩ := List.cons.inj hname
  obtain ⟨tokens, last, n, hlexes⟩ := hshorter _ (length_dropName_lt '@' _)
  rw [show '@' :: d :: name = ('@' :: (d :: name).takeWhile isNameChar) ++
    (d :: name).dropWhile isNameChar by simp [hd]]
  refine ⟨_, _, _, .chunk (.reference ?_ (fun _ hd => List.mem_takeWhile_imp hd) ?_) hlexes⟩
  · simp [hd]
  · intro c hc
    have hnot := List.head?_dropWhile_not isNameChar (d :: name)
    rw [hc] at hnot
    simpa using hnot

theorem exists_lexes_string {nested first : Bool} {c : Char} {rest : Text}
    (hquote : isQuote c = true) (hshorter : ∀ t, t.length < (c :: rest).length →
      ∃ tokens last n, Lexes nested false t tokens last n) :
    ∃ tokens last n, Lexes nested first (c :: rest) tokens last n := by
  rcases quotedRest_cases c rest false with ⟨s, u, rfl, hcloses⟩ | ⟨hopened, hrun⟩
  · obtain ⟨tokens, last, n, hlexes⟩ := hshorter u (length_lt_cons_append c s u)
    exact ⟨_, _, _, .chunk (.string hquote hcloses) hlexes⟩
  · rw [← List.append_nil (c :: rest)]
    exact ⟨_, _, _, .chunk (.openString hquote hopened hrun) .done⟩

theorem exists_lexes_leading {nested : Bool} {c : Char} {rest : Text} {o : Operator}
    (ho : operatorAt? (c :: rest) = some o) (hshorter : ∀ t, t.length < (c :: rest).length →
      ∃ tokens last n, Lexes nested false t tokens last n) :
    ∃ tokens last n, Lexes nested true (c :: rest) tokens last n := by
  obtain ⟨d, behind, hbehind, hd⟩ := operatorAt?_eq_some ho
  obtain ⟨rfl, rfl⟩ := List.cons.inj hbehind
  obtain ⟨tokens, last, n, hlexes⟩ := hshorter _ (length_dropBlank_lt o.char _)
  rw [List.dropWhile_cons_of_pos hd] at hlexes
  rw [show o.char :: d :: behind =
    (o.char :: (d :: behind.takeWhile isBlank)) ++ behind.dropWhile isBlank by simp]
  exact ⟨_, _, _, .chunk
    (.leading rfl (isBlanks_takeWhile hd behind) (starts_dropWhile behind)) hlexes⟩

/-- By the length of the text, with a case for each test that the loop makes at its beginning,
in their order. -/
theorem exists_lexes (nested first : Bool) (t : Text) :
    ∃ tokens rest n, Lexes nested first t tokens rest n := by
  have hshorter (nested first : Bool) (t' : Text) (hlength : t'.length < t.length) :=
    exists_lexes nested first t'
  cases t with
  | nil => exact ⟨_, _, _, .done⟩
  | cons c rest =>
    by_cases hclose : nested = true ∧ c = ')'
    · obtain ⟨rfl, rfl⟩ := hclose
      exact ⟨_, _, _, .close⟩
    by_cases hblank : isBlank c = true
    · exact exists_lexes_blank hblank (hshorter nested)
    by_cases hcomma : c = ','
    · obtain ⟨tokens, last, n, hlexes⟩ := hshorter nested false _ (length_dropBlank_lt c rest)
      rw [hcomma, show ',' :: rest = (',' :: rest.takeWhile isBlank) ++ rest.dropWhile isBlank by
        simp]
      exact ⟨_, _, _, .chunk
        (.comma (fun _ hd => List.mem_takeWhile_imp hd) (starts_dropWhile rest)) hlexes⟩
    by_cases hopen : c = '('
    · obtain ⟨inside, middle, m, hinside⟩ := hshorter true true rest (Nat.lt_succ_self _)
      have hmiddle := Nat.lt_succ_of_le (Nat.le_trans (Nat.le_add_left _ _) hinside.turns_le)
      obtain ⟨tokens, last, n, hlexes⟩ := hshorter nested false middle hmiddle
      rw [hopen]
      exact ⟨_, _, _, .group hinside hlexes⟩
    by_cases hvariable : variableAt (c :: rest) = true
    · exact exists_lexes_reference hvariable (hshorter nested false)
    by_cases hquote : isQuote c = true
    · exact exists_lexes_string hquote (hshorter nested false)
    by_cases hoperator : first = true ∧ ∃ o, operatorAt? (c :: rest) = some o
    · obtain ⟨rfl, o, ho⟩ := hoperator
      exact exists_lexes_leading ho (hshorter nested false)
    have hword : BeginsWord nested first c rest :=
      { solid := by simpa using hblank
        not_comma := hcomma
        not_open := hopen
        not_close := fun hnested hc => hclose ⟨hnested, hc⟩
        not_variable := by simpa using hvariable
        not_quote := by simpa using hquote
        not_operator := fun hfirst =>
          Option.eq_none_iff_forall_ne_some.mpr fun o ho => hoperator ⟨hfirst, o, ho⟩ }
    exact exists_lexes_word hword hshorter
termination_by t.length

/-! ## No text is read otherwise -/

theorem not_close_of_isBlank {c : Char} (h : isBlank c = true) (nested : Bool) :
    ¬ (nested && c == ')') = true := by
  intro hclose
  obtain ⟨-, rfl⟩ : nested = true ∧ c = ')' := by simpa using hclose
  cases h

section Blanks

variable {nested first : Bool} {blanks t : Text}

/-- A run of white space is passed at once, with an operator that it stands before. -/
theorem scan_blanks_operator (h : IsBlanks blanks) (ht : Starts t) {o : Operator}
    (ho : operatorAt? t = some o) :
    (scan nested first (blanks ++ t)).val =
      push (operator o) (scan nested false ((t.drop 1).dropWhile isBlank)).val := by
  obtain ⟨c, rest, rfl, hc, hrest⟩ := h.exists_cons
  have hscan := scan_cons nested first c (rest ++ t)
  rw [if_neg (not_close_of_isBlank hc nested), if_pos hc, dropWhile_blanks hrest ht, ho] at hscan
  exact hscan

theorem scan_blanks (h : IsBlanks blanks) (ht : Starts t) (ho : operatorAt? t = none) :
    (scan nested first (blanks ++ t)).val =
      if endsTerm t then (scan nested first t).val else push space (scan nested false t).val := by
  obtain ⟨c, rest, rfl, hc, hrest⟩ := h.exists_cons
  have hscan := scan_cons nested first c (rest ++ t)
  rw [if_neg (not_close_of_isBlank hc nested), if_pos hc, dropWhile_blanks hrest ht, ho] at hscan
  exact hscan

end Blanks

theorem BeginsWord.scan_cons {nested first : Bool} {c : Char} {rest : Text}
    (h : BeginsWord nested first c rest) :
    (scan nested first (c :: rest)).val =
      match (wordRest rest).2 with
      | '(' :: arguments =>
        push (call (c :: (wordRest rest).1) (scan true true arguments).val.1)
          (scan nested false (scan true true arguments).val.2).val
      | after => push (word (c :: (wordRest rest).1)) (scan nested false after).val := by
  have hclose : ¬ (nested && c == ')') = true := by simpa using h.not_close
  have hquote : ¬ (c = '"' || c = '\'') = true := by simpa [isQuote] using h.not_quote
  have hscan := Token.scan_cons nested first c rest
  rw [if_neg hclose, if_neg (by simp [h.solid]), if_neg h.not_comma, if_neg h.not_open,
    if_neg (by simp [h.not_variable]), if_neg hquote] at hscan
  cases first with
  | false => exact hscan
  | true =>
      rw [h.not_operator rfl] at hscan
      exact hscan

theorem scan_quote {nested first : Bool} {mark : Char} (h : isQuote mark = true) (t : Text) :
    (scan nested first (mark :: t)).val =
      push (word (mark :: (quotedRest mark false t).1))
        (scan nested false (quotedRest mark false t).2).val := by
  have hmark : mark = '"' ∨ mark = '\'' := by simpa [isQuote] using h
  rw [scan_cons]
  rcases hmark with rfl | rfl <;>
    simp [show isBlank '"' = false from rfl, show isBlank '\'' = false from rfl, variableAt_of_ne]

/-- An operator in front of everything. -/
theorem scan_leading {nested : Bool} (o : Operator) {after t : Text} (h : IsBlanks after)
    (ht : Starts t) :
    (scan nested true (o.char :: (after ++ t))).val =
      push (operator o) (scan nested false t).val := by
  rw [scan_cons, operatorAt?_char o h, dropWhile_blanks h.2 ht]
  cases o <;> simp [Operator.char, variableAt_of_ne, isBlank]

theorem Chunk.scan {nested first : Bool} {passed t : Text} {token : Token}
    (h : Chunk nested first passed token t) :
    (scan nested first (passed ++ t)).val = push token (scan nested false t).val := by
  cases h with
  | space hblanks hbegins ho =>
      rw [scan_blanks hblanks hbegins.starts ho]
      simp only [hbegins.endsTerm, Bool.false_eq_true, if_false]
  | @operator o before after t hbefore hafter ht =>
      rw [List.append_assoc, List.cons_append,
        scan_blanks_operator hbefore (starts_char o _) (operatorAt?_char o hafter t)]
      exact congrArg (fun t => push _ (Token.scan nested false t).val)
        (dropWhile_blanks hafter.2 ht)
  | @leading o after t hfirst hafter ht =>
      rw [hfirst, List.cons_append, scan_leading o hafter ht]
  | comma hblanks ht =>
      rw [List.cons_append, scan_cons, if_neg (by simp), if_neg (by decide), if_pos rfl,
        decide_length_lt hblanks ht, dropWhile_blanks hblanks ht]
  | @reference name t hne hname ht =>
      have hvariable : variableAt ('@' :: (name ++ t)) = true := by
        obtain ⟨c, name, rfl⟩ := List.exists_cons_of_ne_nil hne
        exact hname c (.head _)
      have htake : t.takeWhile isNameChar = [] ∧ t.dropWhile isNameChar = t := by
        cases t with
        | nil => exact ⟨rfl, rfl⟩
        | cons c t => simp [ht c rfl]
      rw [List.cons_append, scan_cons, if_neg (by simp), if_neg (by decide), if_neg (by decide),
        if_neg (by decide), if_pos hvariable, List.takeWhile_append_of_pos hname,
        List.dropWhile_append_of_pos hname, htake.1, htake.2, List.append_nil]
  | string hmark hcloses =>
      rw [List.cons_append, scan_quote hmark, quotedRest_append _ hcloses]
  | openString hmark hopen =>
      rw [List.append_nil, scan_quote hmark, hopen]
  | word hbegins hword hopen =>
      rw [List.cons_append, hbegins.scan_cons, hword]
      split
      · rename_i ht
        exact (hopen (congrArg List.head? ht)).elim
      · rfl

namespace Lexes

variable {nested first : Bool} {t rest : Text} {tokens : List Token} {n : Nat}

theorem scan_eq (h : Lexes nested first t tokens rest n) :
    (scan nested first t).val = (tokens, rest) := by
  induction h with
  | done => exact scan_nil _ _
  | close => exact scan_close _ _
  | @silent nested first blanks t rest tokens n hblanks ht hends _ ih =>
      have ho : operatorAt? t = none := by
        cases t with
        | nil => rfl
        | cons c t =>
            have hc : c = ',' ∨ c = ')' := by simpa [endsTerm] using hends
            exact operatorAt?_eq_none (.inl (by rcases hc with rfl | rfl <;> rfl))
      rw [scan_blanks hblanks ht ho]
      simp only [hends, if_true, ih]
  | chunk hchunk _ ih => rw [hchunk.scan, ih, push]
  | group _ _ ih ih' =>
      rw [scan_cons, if_neg (by simp), if_neg (by decide), if_neg (by decide), if_pos rfl, ih, ih',
        push]
  | call hbegins hword _ _ ih ih' =>
      rw [List.cons_append, hbegins.scan_cons, hword]
      show push _ (scan _ false (scan true true _).val.2).val = _
      rw [ih, ih', push]

theorem rest_of_nil (h : Lexes nested first t tokens rest n) (ht : t = []) : rest = [] := by
  have hlength := h.turns_le
  rw [ht, List.length_nil] at hlength
  exact List.length_eq_zero_iff.mp (by omega)

theorem rest_eq_nil (h : Lexes nested first t tokens rest n) (hnested : nested = false) :
    rest = [] := by
  induction h with
  | done => rfl
  | close => cases hnested
  | silent _ _ _ _ ih => exact ih hnested
  | chunk _ _ ih => exact ih hnested
  | group _ _ _ ih => exact ih hnested
  | call _ _ _ _ _ ih => exact ih hnested

end Lexes

/-- The tokens of a text are read in as many turns as it has characters, or in fewer. -/
theorem exists_lexes_ofText (t : Text) : ∃ n ≤ t.length, Lexes false true t (ofText t) [] n := by
  obtain ⟨tokens, rest, n, h⟩ := exists_lexes false true t
  obtain rfl := h.rest_eq_nil rfl
  obtain rfl : ofText t = tokens := congrArg Prod.fst h.scan_eq
  exact ⟨n, h.turns_le, h⟩

end Token

end Cascade
