import Cascade.Proofs.Comparisons
import Cascade.Proofs.Legible
import Cascade.Proofs.Lexing

/-!
# The components of a color

A color that is written as a call is numbers with white space around them, between commas. The
tokens of such a call are known from its components (`Color.ofText_callText`): white space in
front of a component becomes one space, and what is behind one is dropped. It is the same color
all the same (`Color.value_ofText_call`).
-/

namespace Cascade

/-! ## Words and what ends them -/

namespace Token

/-- The token has no tokens inside and is kept as it is written. -/
def IsFlat : Token → Prop
  | space | comma _ | operator _ | word _ => True
  | reference _ | call _ _ | group _ => False

theorem verbatims_of_isFlat {tokens : List Token} (h : ∀ token ∈ tokens, token.IsFlat) :
    Piece.verbatims (computeAll tokens) = .ok (textOf tokens) := by
  induction tokens with
  | nil => rfl
  | cons token rest ih =>
      obtain ⟨hflat, hrest⟩ := List.forall_mem_cons.mp h
      refine verbatims_of_cons ?_ (ih hrest)
      cases token with
      | space | comma | operator => exact verbatim_of_isJoint trivial
      | word t => rfl
      | reference | call | group => exact hflat.elim

theorem Chunk.of_isName {nested first : Bool} {name t : Text} (hname : IsName name)
    (hsign : ∀ o : Operator, name ≠ [o.char]) (ht : endsWord t = true)
    (hopen : t.head? ≠ some '(') : Chunk nested first name (Token.word name) t := by
  obtain ⟨c, w, rfl⟩ := List.exists_cons_of_ne_nil hname.1
  have hc := hname.2 c (.head _)
  simp only [isWordChar, Bool.not_eq_true', Bool.or_eq_false_iff, beq_eq_false_iff_ne] at hc
  have hrest := wordRest_append (fun d hd => hname.2 d (List.mem_cons_of_mem c hd)) ht
  have hoperator : operatorAt? (c :: (w ++ t)) = none := hname.operatorAt? (.inl hsign)
  refine .word ⟨?_, ?_, ?_, ?_, variableAt_of_ne hc.2 _, ?_, fun _ => hoperator⟩ hrest hopen
  all_goals simp [hc, isQuote]

theorem starts_of_endsTerm {t : Text} (h : endsTerm t = true) : Starts t := by
  cases t with
  | nil => exact nofun
  | cons c t =>
      rintro _ ⟨⟩
      have hc : c = ',' ∨ c = ')' := by simpa [endsTerm] using h
      rcases hc with rfl | rfl <;> rfl

theorem endsWord_blanks {blanks t : Text} (h : ∀ c ∈ blanks, isBlank c = true)
    (ht : endsTerm t = true) : endsWord (blanks ++ t) = true ∧ (blanks ++ t).head? ≠ some '(' := by
  have hne {c : Char} {u : Text} (hc : c ≠ '(') : (c :: u).head? ≠ some '(' := by
    simpa using hc
  cases blanks with
  | cons c blanks =>
      have hc := h c (.head _)
      refine ⟨by simp [endsWord, hc], hne fun hopen => ?_⟩
      rw [hopen] at hc
      exact absurd hc (by decide)
  | nil =>
      cases t with
      | nil => exact ⟨rfl, by simp⟩
      | cons c t =>
          have hc : c = ',' ∨ c = ')' := by simpa [endsTerm] using ht
          rcases hc with rfl | rfl
          · exact ⟨rfl, hne (by decide)⟩
          · exact ⟨rfl, hne (by decide)⟩

/-- White space that nothing comes of may stand before what ends a term. -/
theorem Lexes.exists_silent {nested first : Bool} {t rest : Text} {tokens : List Token} {n : Nat}
    (h : Lexes nested first t tokens rest n) (ht : endsTerm t = true) {blanks : Text}
    (hblanks : ∀ c ∈ blanks, isBlank c = true) :
    ∃ n, Lexes nested first (blanks ++ t) tokens rest n := by
  by_cases hnil : blanks = []
  · exact ⟨n, hnil ▸ h⟩
  · exact ⟨_, .silent ⟨hnil, hblanks⟩ (starts_of_endsTerm ht) ht h⟩

end Token

/-! ## The components of a color that is written as a call -/

namespace Color

/-- A word with white space around it. -/
structure IsComponent (part : Text) : Prop where
  name : Token.IsName (Text.trim part)
  no_sign : ∀ o : Operator, Text.trim part ≠ [o.char]

/-- What is written for a component: white space in front becomes one space, and none is left
behind. -/
def respelled (part : Text) : Text :=
  if (part.takeWhile isBlank).isEmpty then Text.trim part else ' ' :: Text.trim part

/-- The tokens of the first component. -/
def firstTokens (part : Text) : List Token :=
  if (part.takeWhile isBlank).isEmpty then [.word (Text.trim part)]
  else [.space, .word (Text.trim part)]

/-- The tokens of a component and the comma before it. -/
def componentTokens (part : Text) : List Token :=
  [.comma !(part.takeWhile isBlank).isEmpty, .word (Text.trim part)]

variable {part t : Text} {parts : List Text} {tokens : List Token} {n : Nat}

/-- A component is read as a word once the white space in front of it is passed. -/
theorem IsComponent.exists_lexes (h : IsComponent part) (first : Bool)
    (ht : Token.endsTerm t = true) (htokens : Token.Lexes true false t tokens [] n) :
    ∃ u n, part ++ t = part.takeWhile isBlank ++ u ∧ Token.Begins u ∧
      Token.operatorAt? u = none ∧
      Token.Lexes true first u (.word (Text.trim part) :: tokens) [] n := by
  obtain ⟨after, htext, hafter⟩ := Text.exists_trimEnd (Text.trimStart part)
  obtain ⟨m, hlexes⟩ := htokens.exists_silent ht hafter
  obtain ⟨hends, hopen⟩ := Token.endsWord_blanks hafter ht
  refine ⟨Text.trim part ++ (after ++ t), m + 1, ?_, h.name.begins.append _,
    h.name.operatorAt? (.inl h.no_sign),
    .chunk (.of_isName h.name h.no_sign hends hopen) hlexes⟩
  rw [← List.append_assoc (Text.trim part), Text.trim, ← htext, Text.trimStart, ← List.append_assoc,
    List.takeWhile_append_dropWhile]

theorem endsTerm_components (parts : List Text) :
    Token.endsTerm (parts.flatMap (',' :: ·) ++ [')']) = true := by
  cases parts <;> rfl

/-- The tokens of the components behind the first one. -/
theorem exists_lexes_components (h : ∀ part ∈ parts, IsComponent part) :
    ∃ n, Token.Lexes true false (parts.flatMap (',' :: ·) ++ [')'])
      (parts.flatMap componentTokens) [] n := by
  induction parts with
  | nil => exact ⟨_, .close⟩
  | cons part parts ih =>
      obtain ⟨hpart, hparts⟩ := List.forall_mem_cons.mp h
      obtain ⟨n, hlexes⟩ := ih hparts
      obtain ⟨u, m, htext, hbegins, -, hword⟩ :=
        hpart.exists_lexes false (endsTerm_components parts) hlexes
      have hblanks : ∀ c ∈ part.takeWhile isBlank, isBlank c = true :=
        fun _ hc => List.mem_takeWhile_imp hc
      have hcomma : Token.Lexes true false (',' :: part.takeWhile isBlank ++ u) _ [] (m + 1) :=
        .chunk (.comma hblanks hbegins.starts) hword
      rw [List.cons_append, ← htext] at hcomma
      rw [List.flatMap_cons, List.cons_append, List.cons_append, List.append_assoc]
      exact ⟨_, hcomma⟩

/-- The tokens of all components. -/
theorem exists_lexes_inside (h : ∀ p ∈ part :: parts, IsComponent p) :
    ∃ n, Token.Lexes true true (part ++ (parts.flatMap (',' :: ·) ++ [')']))
      (firstTokens part ++ parts.flatMap componentTokens) [] n := by
  obtain ⟨hpart, hparts⟩ := List.forall_mem_cons.mp h
  obtain ⟨n, hlexes⟩ := exists_lexes_components hparts
  have hends := endsTerm_components parts
  unfold firstTokens
  cases hlead : (part.takeWhile isBlank).isEmpty with
  | true =>
      obtain ⟨u, m, htext, -, -, hword⟩ := hpart.exists_lexes true hends hlexes
      rw [htext, List.isEmpty_iff.mp hlead]
      exact ⟨m, hword⟩
  | false =>
      obtain ⟨u, m, htext, hbegins, hoperator, hword⟩ := hpart.exists_lexes false hends hlexes
      have hblanks : IsBlanks (part.takeWhile isBlank) :=
        ⟨List.isEmpty_eq_false_iff.mp hlead, fun _ hc => List.mem_takeWhile_imp hc⟩
      rw [htext]
      exact ⟨_, .chunk (.space hblanks hbegins hoperator) hword⟩

/-- What is written for the tokens of the components. -/
theorem textOf_inside (part : Text) (parts : List Text) :
    Token.textOf (firstTokens part ++ parts.flatMap componentTokens) =
      respelled part ++ (parts.map respelled).flatMap (',' :: ·) := by
  have hfirst : Token.textOf (firstTokens part) = respelled part := by
    rw [firstTokens, respelled]
    cases (part.takeWhile isBlank).isEmpty <;> simp [Token.textOf, Token.text]
  have hcomponent (part : Text) : Token.textOf (componentTokens part) = ',' :: respelled part := by
    rw [componentTokens, respelled]
    cases (part.takeWhile isBlank).isEmpty <;> simp [Token.textOf, Token.text]
  rw [Token.textOf_append, hfirst]
  induction parts with
  | nil => rfl
  | cons part parts ih =>
      rw [List.flatMap_cons, Token.textOf_append, hcomponent, List.map_cons, List.flatMap_cons]
      simpa using ih

theorem isFlat_of_mem_inside (part : Text) (parts : List Text) :
    ∀ token ∈ firstTokens part ++ parts.flatMap componentTokens, token.IsFlat := by
  have hfirst : ∀ token ∈ firstTokens part, token.IsFlat := by
    rw [firstTokens]
    split <;> simp [Token.IsFlat]
  have hcomponents : ∀ token ∈ parts.flatMap componentTokens, token.IsFlat := by
    intro token htoken
    obtain ⟨part, -, htoken⟩ := List.mem_flatMap.mp htoken
    have hall : ∀ token ∈ componentTokens part, token.IsFlat := by
      simp [componentTokens, Token.IsFlat]
    exact hall token htoken
  exact List.forall_mem_append.mpr ⟨hfirst, hcomponents⟩

/-! ## Reading the components -/

theorem IsComponent.not_comma (h : IsComponent part) : ',' ∉ part := by
  intro hmem
  rcases Text.mem_trim_or_isBlank hmem with hmem | hblank
  · cases h.name.2 _ hmem
  · cases hblank

theorem trim_respelled (h : IsComponent part) : Text.trim (respelled part) = Text.trim part := by
  have htrim := (Token.Reads.word (.name h.name h.no_sign)).trim_eq
  unfold respelled
  split <;> exact htrim

theorem IsComponent.respelled (h : IsComponent part) : IsComponent (respelled part) := by
  have htrim := trim_respelled h
  exact ⟨htrim.symm ▸ h.name, htrim.symm ▸ h.no_sign⟩

theorem isComponent_of_mem_respelled (h : ∀ p ∈ parts, IsComponent p) :
    ∀ p ∈ parts.map respelled, IsComponent p := by
  intro p hp
  obtain ⟨p, hmem, rfl⟩ := List.mem_map.mp hp
  exact (h p hmem).respelled

/-- The components are found again between the commas. -/
theorem splitOnP_join (hne : parts ≠ []) (h : ∀ p ∈ parts, IsComponent p) :
    (Text.join [','] parts).splitOnP (· == ',') = parts :=
  List.splitOn_intercalate ',' (fun p hp => (h p hp).not_comma) hne

/-- A number, as it is read for a component. -/
theorem IsComponent.of_isNumeral (h : ∀ c ∈ Text.trim part, Decimal.isNumeral c = true)
    (hne : Text.trim part ≠ []) (hsign : ∀ o : Operator, Text.trim part ≠ [o.char]) :
    IsComponent part := by
  refine ⟨⟨hne, fun c hc => ?_⟩, hsign⟩
  have hnumeral := h c hc
  simp only [Decimal.isNumeral, Bool.or_eq_true, beq_iff_eq] at hnumeral
  rcases hnumeral with ((halphanum | rfl) | rfl) | rfl
  · exact Token.isWordChar_of_isAlphanum halphanum
  · decide
  · decide
  · decide

theorem IsComponent.of_channel? {x : Float} (h : channel? (Text.trim part) = some x) :
    IsComponent part := by
  refine .of_isNumeral (fun c hc => Decimal.isNumeral_of_isDigit (isDigit_of_channel? h c hc)) ?_ ?_
  · intro hnil
    rw [hnil] at h
    cases h
  · intro o ho
    rw [ho] at h
    cases o <;> cases h

theorem IsComponent.of_float? {x : Float} (h : Decimal.float? (Text.trim part) = some x) :
    IsComponent part := by
  refine .of_isNumeral (Decimal.of_mem_float? h) ?_ ?_
  · intro hnil
    rw [hnil] at h
    cases h
  · intro o ho
    rw [ho] at h
    cases o <;> cases h

/-- A color as a call of its components. -/
def callText (name : Text) (parts : List Text) : Text :=
  name ++ ('(' :: (Text.join [','] parts ++ [')']))

theorem exists_components {c : Color} (h : ofCall? t = some c) :
    ∃ name part parts, (name = "rgba".toList ∨ name = "rgb".toList) ∧
      t = callText name (part :: parts) ∧ ∀ p ∈ part :: parts, IsComponent p := by
  obtain ⟨opening, numbers, hopening, hparts, hnumbers⟩ := of_ofCall? h
  obtain ⟨inside, rfl, rfl⟩ := of_callParts? hparts
  obtain ⟨part, parts, hsplit⟩ :=
    List.exists_cons_of_ne_nil (List.splitOnP_ne_nil (· == ',') inside)
  have hinside : inside = Text.join [','] (part :: parts) := by
    rw [← hsplit]
    exact (List.intercalate_splitOn ',').symm
  have hcomponents : ∀ p ∈ part :: parts, IsComponent p := by
    intro p hp
    rcases hnumbers _ (List.mem_map_of_mem (hsplit ▸ hp)) with ⟨x, hx⟩ | ⟨x, hx⟩
    · exact .of_channel? hx
    · exact .of_float? hx
  rw [hinside]
  rcases hopening with rfl | rfl
  · exact ⟨_, part, parts, .inl rfl, rfl, hcomponents⟩
  · exact ⟨_, part, parts, .inr rfl, rfl, hcomponents⟩

theorem callParts?_callText (name : Text) (hne : parts ≠ []) (h : ∀ p ∈ parts, IsComponent p) :
    callParts? (name ++ ['(']) (callText name parts) = some (parts.map Text.trim) := by
  have hafter : Text.after? (name ++ ['(']) (callText name parts) =
      some (Text.join [','] parts ++ [')']) :=
    Text.after?_eq_some_iff.mpr (by simp [callText])
  have hbefore : Text.before? ")" (Text.join [','] parts ++ [')']) = some (Text.join [','] parts) :=
    Text.before?_eq_some_iff.mpr rfl
  simp only [callParts?, hafter, hbefore, Option.bind_eq_bind, Option.bind_some,
    splitOnP_join hne h]

theorem callText_respelled_iff {name : Text} (hne : parts ≠ []) (h : ∀ p ∈ parts, IsComponent p) :
    callText name (parts.map respelled) = callText name parts ↔ ∀ p ∈ parts, respelled p = p := by
  constructor
  · intro htext
    have hjoin : Text.join [','] (parts.map respelled) = Text.join [','] parts := by
      simpa [callText] using htext
    have hmap : parts.map respelled = parts := by
      rw [← splitOnP_join (List.map_eq_nil_iff.not.mpr hne) (isComponent_of_mem_respelled h), hjoin,
        splitOnP_join hne h]
    exact List.map_inj_left.mp (hmap.trans (List.map_id _).symm)
  · intro hrespelled
    rw [List.map_congr_left hrespelled]
    exact congrArg _ (List.map_id _)

/-- A color is told by its parts. -/
theorem ofCall?_congr {t' : Text} (h : callParts? "rgba(" t' = callParts? "rgba(" t)
    (h' : callParts? "rgb(" t' = callParts? "rgb(" t) :
    ofCall? t' = (ofCall? t).map fun c => { c with written := some t' } := by
  unfold ofCall?
  rw [h, h']
  split
  · simp only [Option.bind_eq_bind, Option.map_bind, Function.comp_def, Option.map_some]
  · simp only [Option.bind_eq_bind, Option.map_bind, Function.comp_def, Option.map_some]
  · rfl

/-- The same numbers with other white space around them are the same color. -/
theorem ofCall?_respelled {c : Color} {name : Text}
    (hname : name = "rgba".toList ∨ name = "rgb".toList) (hne : parts ≠ [])
    (hparts : ∀ p ∈ parts, IsComponent p) (h : ofCall? (callText name parts) = some c) :
    ofCall? (callText name (parts.map respelled)) =
      some { c with written := some (callText name (parts.map respelled)) } := by
  have htrim : (parts.map respelled).map Text.trim = parts.map Text.trim := by
    rw [List.map_map]
    exact List.map_congr_left fun p hp => trim_respelled (hparts p hp)
  have hsame : callParts? (name ++ ['(']) (callText name (parts.map respelled)) =
      callParts? (name ++ ['(']) (callText name parts) := by
    rw [callParts?_callText name hne hparts, callParts?_callText name
      (List.map_eq_nil_iff.not.mpr hne) (isComponent_of_mem_respelled hparts), htrim]
  have hcongr : ofCall? (callText name (parts.map respelled)) =
      (ofCall? (callText name parts)).map
        fun c => { c with written := some (callText name (parts.map respelled)) } := by
    rcases hname with rfl | rfl
    · exact ofCall?_congr hsame rfl
    · exact ofCall?_congr rfl hsame
  rw [hcongr, h]
  rfl

/-! ## Reading the call -/

theorem join_comma (part : Text) (parts : List Text) :
    Text.join [','] (part :: parts) = part ++ parts.flatMap (',' :: ·) :=
  Text.join_eq [','] part parts

theorem ofText_callText {name : Text} (hname : Token.IsName name)
    (h : ∀ p ∈ part :: parts, IsComponent p) :
    Token.ofText (callText name (part :: parts)) =
      [.call name (firstTokens part ++ parts.flatMap componentTokens)] := by
  obtain ⟨n, hlexes⟩ := exists_lexes_inside h
  have hoperator : Token.operatorAt? (callText name (part :: parts)) = none := by
    refine hname.operatorAt? (.inr ?_)
    rintro _ _ ⟨⟩
    rfl
  show (Token.scan false true _).val.1 = _
  rw [callText] at hoperator ⊢
  rw [Token.scan_name hname rfl hoperator, Token.readName, join_comma, List.append_assoc,
    hlexes.scan_eq, Token.scan_nil]
  rfl

theorem isName_of_eq {name : Text} (h : name = "rgba".toList ∨ name = "rgb".toList) :
    Token.IsName name ∧ Builtin.ofName? name = none := by
  rcases h with rfl | rfl
  · exact ⟨⟨by decide, List.all_eq_true.mp (by decide)⟩, by decide⟩
  · exact ⟨⟨by decide, List.all_eq_true.mp (by decide)⟩, by decide⟩

/-- The call is written as it was, but for the white space around its components. -/
theorem text_call (name part : Text) (parts : List Text) :
    name ++ '(' :: Token.textOf (firstTokens part ++ parts.flatMap componentTokens) ++ [')'] =
      callText name ((part :: parts).map respelled) := by
  rw [callText, List.map_cons, join_comma, textOf_inside]
  simp

theorem textOf_ofText_callText {name : Text} (hname : Token.IsName name)
    (h : ∀ p ∈ part :: parts, IsComponent p) :
    Token.textOf (Token.ofText (callText name (part :: parts))) =
      callText name ((part :: parts).map respelled) := by
  rw [ofText_callText hname h, Token.textOf, Token.textOf, List.append_nil, Token.text, text_call]

theorem value_ofText_callText {name : Text} (hname : Token.IsName name)
    (hunknown : Builtin.ofName? name = none) (h : ∀ p ∈ part :: parts, IsComponent p) :
    Token.value (Token.ofText (callText name (part :: parts))) =
      .ok (.ofCall (callText name ((part :: parts).map respelled))) := by
  have hverbatim := Token.verbatims_of_isFlat (isFlat_of_mem_inside part parts)
  rw [ofText_callText hname h, Token.value, Token.computeAll, Token.compute_call hunknown hverbatim,
    text_call]
  exact Piece.valueOf_term _

/-- A color that is written as a call comes to the same color, written as its tokens are. -/
theorem value_ofText_call {c : Color} (h : ofCall? t = some c) : Token.value (Token.ofText t) =
    .ok (.color { c with written := some (Token.textOf (Token.ofText t)) }) := by
  obtain ⟨name, part, parts, hname, rfl, hparts⟩ := exists_components h
  obtain ⟨hisname, hunknown⟩ := isName_of_eq hname
  have hcall := ofCall?_respelled hname (List.cons_ne_nil _ _) hparts h
  rw [textOf_ofText_callText hisname hparts, value_ofText_callText hisname hunknown hparts,
    Value.ofCall, hcall]

end Color

end Cascade
