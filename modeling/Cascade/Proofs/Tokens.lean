import Cascade.Value.Token
import Mathlib.Data.List.TakeWhile

/-!
# Texts that read back

`Token.Reads u tokens` says that `u` is read as the given tokens wherever it stands
at the beginning of a term, so long as what follows ends the term. It says nothing of
the surroundings, and so texts that read back can be put side by side with a separator
or an operator between them (`Reads.join`), into parentheses and into the arguments of
a call. Words, closed strings and references read back by themselves.
-/

namespace Cascade

theorem Operator.isBlank_char (o : Operator) : isBlank o.char = false := by
  cases o <;> decide

/-- Characters of names are ASCII characters from `-` to `z`. -/
theorem isBlank_of_isNameChar {c : Char} (h : isNameChar c = true) : isBlank c = false := by
  have hascii : c.toNat ≤ 122 ∧ 45 ≤ c.toNat := by
    unfold isNameChar Char.isAlphanum Char.isAlpha Char.isUpper Char.isLower Char.isDigit at h
    simp only [Bool.or_eq_true, Bool.and_eq_true, decide_eq_true_eq, beq_iff_eq, ge_iff_le,
      UInt32.le_iff_toNat_le] at h
    rcases h with (((h | h) | h) | rfl) | rfl
    · exact ⟨Nat.le_trans h.2 (by decide), Nat.le_trans (by decide) h.1⟩
    · exact ⟨Nat.le_trans h.2 (by decide), Nat.le_trans (by decide) h.1⟩
    · exact ⟨Nat.le_trans h.2 (by decide), Nat.le_trans (by decide) h.1⟩
    · decide
    · decide
  simp only [isBlank, Bool.or_eq_false_iff, Bool.and_eq_false_iff, decide_eq_false_iff_not,
    beq_eq_false_iff_ne]
  omega

namespace Token

/-! ## One step of the scan -/

/-- Puts a token in front of what is read after it. -/
def push (token : Token) (r : List Token × Text) : List Token × Text := (token :: r.1, r.2)

theorem scan_cons (nested first : Bool) (c : Char) (rest : Text) :
    (scan nested first (c :: rest)).val =
      if nested && c == ')' then ([], rest)
      else if isBlank c then
        match operatorAt? (rest.dropWhile isBlank) with
        | some o =>
          push (operator o)
            (scan nested false (((rest.dropWhile isBlank).drop 1).dropWhile isBlank)).val
        | none =>
          if endsTerm (rest.dropWhile isBlank) then (scan nested first (rest.dropWhile isBlank)).val
          else push space (scan nested false (rest.dropWhile isBlank)).val
      else if c = ',' then
        push (comma ((rest.dropWhile isBlank).length < rest.length))
          (scan nested false (rest.dropWhile isBlank)).val
      else if c = '(' then
        push (group (scan true true rest).val.1) (scan nested false (scan true true rest).val.2).val
      else if variableAt (c :: rest) then
        push (reference (rest.takeWhile isNameChar))
          (scan nested false (rest.dropWhile isNameChar)).val
      else if c = '"' || c = '\'' then
        push (word (c :: (quotedRest c false rest).1))
          (scan nested false (quotedRest c false rest).2).val
      else
        match first, operatorAt? (c :: rest) with
        | true, some o => push (operator o) (scan nested false (rest.dropWhile isBlank)).val
        | _, _ =>
          match (wordRest rest).2 with
          | '(' :: arguments =>
            push (call (c :: (wordRest rest).1) (scan true true arguments).val.1)
              (scan nested false (scan true true arguments).val.2).val
          | after => push (word (c :: (wordRest rest).1)) (scan nested false after).val := by
  rw [scan.eq_def]
  simp only
  split
  · rfl
  split
  · cases operatorAt? (rest.dropWhile isBlank) with
    | some o => rfl
    | none =>
        simp only
        split <;> rfl
  split
  · rfl
  split
  · rfl
  split
  · rfl
  split
  · rfl
  rcases first with _ | _ <;> rcases operatorAt? (c :: rest) with _ | o
  case true.some => rfl
  all_goals
    simp only
    split
    · rename_i hcall
      simp only [hcall]
      rfl
    · rename_i hcall
      split
      · rename_i hcall'
        cases hcall _ hcall'
      · rfl

theorem scan_nil (nested first : Bool) : (scan nested first []).val = ([], []) := by
  rw [scan.eq_def]

theorem scan_close (first : Bool) (t : Text) : (scan true first (')' :: t)).val = ([], t) := by
  rw [scan_cons]
  rfl

/-- What can follow a term. -/
def Halts : Text → Prop
  | [] => True
  | c :: _ => c = ' ' ∨ c = ',' ∨ c = ')'

/-- What can be the beginning of a term. -/
def Begins : Text → Prop
  | [] => False
  | c :: _ => isBlank c = false ∧ c ≠ ',' ∧ c ≠ ')'

namespace Begins

variable {t : Text}

theorem append (h : Begins t) (u : Text) : Begins (t ++ u) := by
  cases t with
  | nil => exact h.elim
  | cons => exact h

theorem dropWhile (h : Begins t) : t.dropWhile isBlank = t := by
  cases t with
  | nil => exact h.elim
  | cons c t => exact List.dropWhile_cons_of_neg (by simp [h.1])

theorem dropWhile_space (h : Begins t) : (' ' :: t).dropWhile isBlank = t := by
  rw [List.dropWhile_cons_of_pos (by decide), h.dropWhile]

theorem endsTerm (h : Begins t) : endsTerm t = false := by
  cases t with
  | nil => exact h.elim
  | cons c t => simp [Token.endsTerm, h.2]

end Begins

section Steps

variable {nested first : Bool} {t : Text}

theorem scan_operator (o : Operator) (h : Begins t) :
    (scan nested first (' ' :: o.char :: ' ' :: t)).val =
      push (operator o) (scan nested false t).val := by
  have hafter : List.dropWhile isBlank (o.char :: ' ' :: t) = o.char :: ' ' :: t :=
    List.dropWhile_cons_of_neg (by simp [o.isBlank_char])
  have hoperator : operatorAt? (o.char :: ' ' :: t) = some o := by cases o <;> rfl
  rw [scan_cons, if_neg (by simp), if_pos (by decide), hafter, hoperator]
  show push _ (scan nested false (List.dropWhile isBlank (' ' :: t))).val = _
  rw [h.dropWhile_space]

theorem scan_space (h : Begins t) (ho : operatorAt? t = none) :
    (scan nested first (' ' :: t)).val = push space (scan nested false t).val := by
  rw [scan_cons, if_neg (by simp), if_pos (by decide), h.dropWhile, ho]
  simp only [h.endsTerm, Bool.false_eq_true, if_false]

theorem scan_comma (spaced : Bool) (h : Begins t) :
    (scan nested first ((comma spaced).text ++ t)).val =
      push (comma spaced) (scan nested false t).val := by
  cases spaced with
  | false =>
      show (scan nested first (',' :: t)).val = _
      rw [scan_cons, if_neg (by simp), if_neg (by decide), if_pos rfl, h.dropWhile]
      simp
  | true =>
      show (scan nested first (',' :: ' ' :: t)).val = _
      rw [scan_cons, if_neg (by simp), if_neg (by decide), if_pos rfl, h.dropWhile_space]
      simp

end Steps

/-! ## Texts that read back -/

/-- No blank stands at the end. -/
def Ends (t : Text) : Prop := ∃ before c, t = before ++ [c] ∧ isBlank c = false

structure Reads (u : Text) (tokens : List Token) : Prop where
  begins : Begins u
  ends : Ends u
  no_operator : ∀ tail, Halts tail → operatorAt? (u ++ tail) = none
  scan : ∀ nested first tail, Halts tail →
    (Token.scan nested first (u ++ tail)).val =
      (tokens ++ (Token.scan nested false tail).val.1, (Token.scan nested false tail).val.2)

theorem Ends.append {t : Text} (h : Ends t) (u : Text) : Ends (u ++ t) := by
  obtain ⟨before, c, rfl, hc⟩ := h
  exact ⟨u ++ before, c, (List.append_assoc ..).symm, hc⟩

theorem ends_of_forall {t : Text} (hne : t ≠ []) (h : ∀ c ∈ t, isBlank c = false) : Ends t :=
  ⟨t.dropLast, t.getLast hne, (List.dropLast_concat_getLast hne).symm, h _ (List.getLast_mem hne)⟩

/-- What can stand between two terms. -/
def IsJoint : Token → Prop
  | space | comma _ | operator _ => True
  | word _ | reference _ | call _ _ | group _ => False

namespace Reads

variable {u u' : Text} {tokens tokens' : List Token}

theorem join (h : Reads u tokens) {joint : Token} (hjoint : joint.IsJoint)
    (h' : Reads u' tokens') :
    Reads (u ++ (joint.text ++ u')) (tokens ++ joint :: tokens') := by
  have hstep (nested : Bool) (tail : Text) (htail : Halts tail) :
      Halts (joint.text ++ (u' ++ tail)) ∧
        (Token.scan nested false (joint.text ++ (u' ++ tail))).val =
          push joint (Token.scan nested false (u' ++ tail)).val := by
    have hbegins := h'.begins.append tail
    cases joint with
    | space => exact ⟨.inl rfl, scan_space hbegins (h'.no_operator tail htail)⟩
    | comma spaced => exact ⟨by cases spaced <;> exact .inr (.inl rfl), scan_comma spaced hbegins⟩
    | operator o => exact ⟨.inl rfl, scan_operator o hbegins⟩
    | word | reference | call | group => exact hjoint.elim
  refine ⟨h.begins.append _, (h'.ends.append _).append _, fun tail htail => ?_,
    fun nested first tail htail => ?_⟩
  · rw [List.append_assoc, List.append_assoc]
    exact h.no_operator _ (hstep true tail htail).1
  · obtain ⟨hhalts, hscan⟩ := hstep nested tail htail
    rw [List.append_assoc, List.append_assoc, h.scan nested first _ hhalts, hscan, push,
      h'.scan nested false tail htail]
    simp

theorem ofText_eq (h : Reads u tokens) : ofText u = tokens := by
  have hscan := h.scan false true [] trivial
  rw [List.append_nil, scan_nil, List.append_nil] at hscan
  exact congrArg Prod.fst hscan

end Reads

/-! ## Words, strings and references -/

/-- A character that belongs to a word wherever it stands. -/
def isWordChar (c : Char) : Bool :=
  !(isBlank c || c == ',' || c == '(' || c == ')' || c == '"' || c == '\'' || c == '@')

/-- The name of a call, or a word that is no string and has no `@`. -/
def IsName (t : Text) : Prop := t ≠ [] ∧ ∀ c ∈ t, isWordChar c = true

/-- The closing mark of a string is its last character, and the only one that is not
escaped. -/
def closes (mark : Char) : (escaped : Bool) → Text → Bool
  | _, [] => false
  | escaped, c :: t =>
    if !escaped && c == mark then t.isEmpty else closes mark (!escaped && c == '\\') t

/-- A word that reads back: a name other than the sign of an operation, or a string. -/
inductive IsWord : Text → Prop
  | name {t : Text} : IsName t → (∀ o : Operator, t ≠ [o.char]) → IsWord t
  | string {mark : Char} {t : Text} :
      mark = '"' ∨ mark = '\'' → closes mark false t = true → IsWord (mark :: t)

theorem variableAt_of_ne {c : Char} (h : c ≠ '@') (t : Text) : variableAt (c :: t) = false := by
  unfold variableAt
  split
  · rename_i heq
    exact (h (List.cons.inj heq).1).elim
  · rfl

theorem operatorAt?_eq_none {c : Char} {t : Text}
    (h : Operator.ofChar? c = none ∨ ∀ d rest, t = d :: rest → isBlank d = false) :
    operatorAt? (c :: t) = none := by
  cases t with
  | nil => rfl
  | cons d rest =>
      rw [operatorAt?]
      split
      · rename_i hd
        rcases h with h | h
        · exact h
        · rw [h d rest rfl] at hd
          cases hd
      · rfl

theorem Halts.endsWord {tail : Text} (h : Halts tail) : endsWord tail = true := by
  cases tail with
  | nil => rfl
  | cons c t => rcases h with rfl | rfl | rfl <;> rfl

theorem wordRest_append {t tail : Text} (h : ∀ c ∈ t, isWordChar c = true)
    (htail : endsWord tail = true) : wordRest (t ++ tail) = (t, tail) := by
  induction t with
  | nil =>
      cases tail with
      | nil => rfl
      | cons c tail => rw [List.nil_append, wordRest, if_pos htail]
  | cons c t ih =>
      have hc := h c (List.mem_cons_self ..)
      simp only [isWordChar, Bool.not_eq_true', Bool.or_eq_false_iff, beq_eq_false_iff_ne] at hc
      have hends : endsWord (c :: (t ++ tail)) = false := by
        simp [Token.endsWord, hc, variableAt_of_ne hc.2]
      rw [List.cons_append, wordRest, hends, ih fun c hc => h c (List.mem_cons_of_mem _ hc)]
      rfl

theorem quotedRest_append {mark : Char} {t : Text} (tail : Text) :
    ∀ {escaped : Bool}, closes mark escaped t = true →
      quotedRest mark escaped (t ++ tail) = (t, tail) := by
  induction t with
  | nil => exact fun h => by cases h
  | cons c t ih =>
      intro escaped h
      rw [closes] at h
      rw [List.cons_append, quotedRest]
      split at h
      · rename_i hclose
        rw [if_pos hclose, List.isEmpty_iff.mp h]
        rfl
      · rename_i hopen
        rw [if_neg hopen, ih h]

theorem ends_of_closes {mark : Char} (hmark : isBlank mark = false) {t : Text} :
    ∀ {escaped : Bool}, closes mark escaped t = true → Ends t := by
  induction t with
  | nil => exact fun h => by cases h
  | cons c t ih =>
      intro escaped h
      rw [closes] at h
      split at h
      · rename_i hclose
        obtain rfl : c = mark := by simpa using (Bool.and_eq_true_iff.mp hclose).2
        exact ⟨[], c, by rw [List.isEmpty_iff.mp h]; rfl, hmark⟩
      · exact (ih h).append [c]

/-- What a name is read as in front of what follows it. -/
def readName (nested : Bool) (name : Text) : Text → List Token × Text
  | '(' :: arguments =>
    push (call name (scan true true arguments).val.1)
      (scan nested false (scan true true arguments).val.2).val
  | after => push (word name) (scan nested false after).val

theorem scan_name {nested first : Bool} {name tail : Text} (h : IsName name)
    (htail : endsWord tail = true) (ho : operatorAt? (name ++ tail) = none) :
    (scan nested first (name ++ tail)).val = readName nested name tail := by
  obtain ⟨hne, hchars⟩ := h
  cases name with
  | nil => exact (hne rfl).elim
  | cons c t =>
      have hc := hchars c (List.mem_cons_self ..)
      simp only [isWordChar, Bool.not_eq_true', Bool.or_eq_false_iff, beq_eq_false_iff_ne] at hc
      have hrest := wordRest_append (fun c hc => hchars c (List.mem_cons_of_mem _ hc)) htail
      rw [List.cons_append] at ho ⊢
      rw [scan_cons, if_neg (by simp [hc]), if_neg (by simp [hc]), if_neg (by simp [hc]),
        if_neg (by simp [hc]), if_neg (by simp [variableAt_of_ne hc.2]), if_neg (by simp [hc]), ho]
      simp only [hrest]
      rfl

theorem eq_char_of_ofChar? {c : Char} {o : Operator} (h : Operator.ofChar? c = some o) :
    c = o.char := by
  unfold Operator.ofChar? at h
  split at h
  · cases h; assumption
  split at h
  · cases h; assumption
  split at h
  · cases h; assumption
  split at h
  · cases h; assumption
  · cases h

namespace IsName

variable {name : Text}

theorem begins (h : IsName name) : Begins name := by
  obtain ⟨hne, hchars⟩ := h
  cases name with
  | nil => exact (hne rfl).elim
  | cons c t =>
      have hc := hchars c (List.mem_cons_self ..)
      simp only [isWordChar, Bool.not_eq_true', Bool.or_eq_false_iff, beq_eq_false_iff_ne] at hc
      exact ⟨by simp [hc], by simp [hc], by simp [hc]⟩

theorem ends (h : IsName name) : Ends name := by
  refine ends_of_forall h.1 fun c hc => ?_
  have hc := h.2 c hc
  simp only [isWordChar, Bool.not_eq_true', Bool.or_eq_false_iff] at hc
  simp [hc]

theorem operatorAt? (h : IsName name) {tail : Text}
    (hsign : (∀ o : Operator, name ≠ [o.char]) ∨ ∀ d rest, tail = d :: rest → isBlank d = false) :
    operatorAt? (name ++ tail) = none := by
  obtain ⟨hne, hchars⟩ := h
  match name with
  | [] => exact (hne rfl).elim
  | [c] =>
      refine operatorAt?_eq_none ?_
      rcases hsign with hsign | hblank
      · refine .inl (Option.eq_none_iff_forall_ne_some.mpr fun o ho => hsign o ?_)
        rw [eq_char_of_ofChar? ho]
      · exact .inr hblank
  | c :: d :: t =>
      have hd := hchars d (List.mem_cons_of_mem _ (List.mem_cons_self ..))
      simp only [isWordChar, Bool.not_eq_true', Bool.or_eq_false_iff] at hd
      refine operatorAt?_eq_none (.inr ?_)
      rintro _ _ ⟨⟩
      simp [hd]

end IsName

/-- A text that reads back between parentheses, where white space may come first. -/
inductive Fills : Text → List Token → Prop
  | nil : Fills [] []
  | run {u : Text} {tokens : List Token} : Reads u tokens → Fills u tokens
  | space {u : Text} {tokens : List Token} : Reads u tokens → Fills (' ' :: u) (.space :: tokens)

theorem Fills.scan {u : Text} {tokens : List Token} (h : Fills u tokens) (rest : Text) :
    (Token.scan true true (u ++ ')' :: rest)).val = (tokens, rest) := by
  have hhalts : Halts (')' :: rest) := .inr (.inr rfl)
  cases h with
  | nil => exact scan_close true rest
  | run h => rw [h.scan true true _ hhalts, scan_close, List.append_nil]
  | space h =>
      rw [List.cons_append, scan_space (h.begins.append _) (h.no_operator _ hhalts),
        h.scan true false _ hhalts, scan_close, List.append_nil]
      rfl

namespace Reads

variable {u : Text} {tokens : List Token}

theorem word {t : Text} (h : IsWord t) : Reads t [.word t] := by
  cases h with
  | name h hsign =>
      refine ⟨h.begins, h.ends, fun tail _ => h.operatorAt? (.inl hsign),
        fun nested first tail htail => ?_⟩
      rw [scan_name h htail.endsWord (h.operatorAt? (.inl hsign))]
      unfold readName
      split
      · rcases htail with htail | htail | htail <;> cases htail
      · rfl
  | @string mark t hmark hcloses =>
      refine ⟨?_, (ends_of_closes ?_ hcloses).append [mark], fun tail _ => ?_,
        fun nested first tail htail => ?_⟩
      · rcases hmark with rfl | rfl <;> exact ⟨rfl, by decide, by decide⟩
      · rcases hmark with rfl | rfl <;> rfl
      · exact operatorAt?_eq_none (.inl (by rcases hmark with rfl | rfl <;> rfl))
      · rw [List.cons_append, scan_cons, quotedRest_append tail hcloses]
        rcases hmark with rfl | rfl <;> simp [show isBlank '"' = false from rfl, push,
          show isBlank '\'' = false from rfl, variableAt_of_ne]

theorem reference {name : Text} (hne : name ≠ []) (h : ∀ c ∈ name, isNameChar c = true) :
    Reads ('@' :: name) [.reference name] := by
  have hvariable (tail : Text) : variableAt ('@' :: (name ++ tail)) = true := by
    cases name with
    | nil => exact (hne rfl).elim
    | cons c t => exact h c (List.mem_cons_self ..)
  have hblank : ∀ c ∈ name, isBlank c = false := fun c hc => isBlank_of_isNameChar (h c hc)
  refine ⟨⟨rfl, by decide, by decide⟩, (ends_of_forall hne hblank).append ['@'],
    fun tail _ => operatorAt?_eq_none (.inl rfl), fun nested first tail htail => ?_⟩
  have htake : tail.takeWhile isNameChar = [] ∧ tail.dropWhile isNameChar = tail := by
    cases tail with
    | nil => exact ⟨rfl, rfl⟩
    | cons c t => rcases htail with rfl | rfl | rfl <;> exact ⟨rfl, rfl⟩
  rw [List.cons_append, scan_cons, if_neg (by simp), if_neg (by decide), if_neg (by decide),
    if_neg (by decide), if_pos (hvariable tail), List.takeWhile_append_of_pos h,
    List.dropWhile_append_of_pos h, htake.1, htake.2, List.append_nil]
  rfl

theorem call {name : Text} (hname : IsName name) (h : Fills u tokens) :
    Reads (name ++ '(' :: u ++ [')']) [.call name tokens] := by
  have ho (tail : Text) : Token.operatorAt? (name ++ ('(' :: (u ++ ')' :: tail))) = none := by
    refine hname.operatorAt? (.inr ?_)
    rintro _ _ ⟨⟩
    rfl
  have hassoc (tail : Text) :
      name ++ '(' :: u ++ [')'] ++ tail = name ++ ('(' :: (u ++ ')' :: tail)) := by simp
  refine ⟨(hname.begins.append _).append _, ⟨_, _, rfl, by decide⟩, fun tail _ => ?_,
    fun nested first tail _ => ?_⟩
  · rw [hassoc]
    exact ho tail
  · rw [hassoc, scan_name hname rfl (ho tail), readName, h.scan tail]
    rfl

theorem group (h : Fills u tokens) : Reads ('(' :: u ++ [')']) [.group tokens] := by
  refine ⟨⟨rfl, by decide, by decide⟩, ⟨_, _, rfl, by decide⟩,
    fun tail _ => operatorAt?_eq_none (.inl rfl), fun nested first tail _ => ?_⟩
  have hassoc : '(' :: u ++ [')'] ++ tail = '(' :: (u ++ ')' :: tail) := by simp
  rw [hassoc, scan_cons, if_neg (by simp), if_neg (by decide), if_neg (by decide), if_pos rfl,
    h.scan tail]
  rfl

end Reads

end Token

end Cascade
