import Cascade.Proofs.Alternation
import Cascade.Proofs.Steady
import Cascade.Proofs.Words

/-!
# Legible texts

A text is legible if it reads back as terms with separators and operators between them
that are written as it is (`Token.Spells`). Whatever a run of terms, separators and
operators that alternate at any depth comes to is written as a legible text, computed or
not, with and without parentheses (`Spelled.legible`).
-/

namespace Cascade

/-- A piece as it is written. -/
def Piece.text : Piece Token → Text
  | separator s => s.text
  | operator o => (Token.operator o).text
  | term token => token.text

namespace Token

theorem text_piece (token : Token) : token.piece.text = token.text := by
  rcases token with _ | (_ | _) | _ | _ | _ | _ | _ <;> rfl

theorem textOf_eq (tokens : List Token) :
    textOf tokens = (tokens.map piece).flatMap Piece.text := by
  induction tokens with
  | nil => rfl
  | cons token rest ih => rw [textOf, ih, List.map_cons, List.flatMap_cons, text_piece]

theorem textOf_append (tokens tokens' : List Token) :
    textOf (tokens ++ tokens') = textOf tokens ++ textOf tokens' := by
  simp [textOf_eq]

/-! ## Texts and their tokens -/

/-- The text reads back as tokens that alternate and are written as it is. -/
structure Spells (t : Text) (tokens : List Token) : Prop where
  reads : Reads t tokens
  text_eq : textOf tokens = t
  alternates : Alternates (fun token => token.text ≠ []) (tokens.map piece)

def Legible (t : Text) : Prop := ∃ tokens, Spells t tokens

namespace Spells

variable {t t' : Text} {tokens tokens' : List Token}

theorem join (h : Spells t tokens) {joint : Token} (hjoint : joint.IsJoint)
    (h' : Spells t' tokens') : Spells (t ++ (joint.text ++ t')) (tokens ++ joint :: tokens') where
  reads := h.reads.join hjoint h'.reads
  text_eq := by rw [textOf_append, textOf, h.text_eq, h'.text_eq]
  alternates := by
    rw [List.map_append, List.map_cons]
    cases joint with
    | space => exact h.alternates.append_separator .space h'.alternates
    | comma spaced => exact h.alternates.append_separator (.comma spaced) h'.alternates
    | operator o => exact h.alternates.append_operator o h'.alternates
    | word | reference | call | group => exact hjoint.elim

/-- A single term. -/
theorem of_reads {token : Token} (h : Reads t [token]) (hpiece : token.piece = .term token)
    (htext : token.text = t) : Spells t [token] where
  reads := h
  text_eq := by rw [textOf, textOf, List.append_nil, htext]
  alternates := by
    have hne : t ≠ [] := by
      rintro rfl
      exact h.begins
    rw [List.map_singleton, hpiece]
    exact .one (htext ▸ hne)

theorem word (h : IsWord t) : Spells t [.word t] := of_reads (.word h) rfl rfl

theorem reference {name : Text} (hne : name ≠ []) (h : ∀ c ∈ name, isNameChar c = true) :
    Spells ('@' :: name) [.reference name] :=
  of_reads (.reference hne h) rfl rfl

end Spells

/-- A text that can stand between parentheses, and its tokens. -/
structure Inside (t : Text) (tokens : List Token) : Prop where
  fills : Fills t tokens
  text_eq : textOf tokens = t

theorem Inside.nil : Inside [] [] := ⟨.nil, rfl⟩

theorem Spells.inside {t : Text} {tokens : List Token} (h : Spells t tokens) : Inside t tokens :=
  ⟨.run h.reads, h.text_eq⟩

theorem Spells.inside_space {t : Text} {tokens : List Token} (h : Spells t tokens) :
    Inside (' ' :: t) (.space :: tokens) :=
  ⟨.space h.reads, by rw [textOf, h.text_eq]; rfl⟩

namespace Inside

variable {t : Text} {tokens : List Token}

theorem call {name : Text} (hname : IsName name) (h : Inside t tokens) :
    Spells (name ++ '(' :: t ++ [')']) [.call name tokens] :=
  .of_reads (.call hname h.fills) rfl (by rw [Token.text, h.text_eq])

theorem group (h : Inside t tokens) : Spells ('(' :: t ++ [')']) [.group tokens] :=
  .of_reads (.group h.fills) rfl (by rw [Token.text, h.text_eq])

end Inside

/-- Texts that are joined by commas. -/
theorem legible_join {t : Text} {texts : List Text} (h : ∀ u ∈ t :: texts, Legible u) :
    Legible (Text.join ", " (t :: texts)) := by
  induction texts generalizing t with
  | nil =>
      rw [Text.join_singleton]
      exact h t (List.mem_cons_self ..)
  | cons u rest ih =>
      obtain ⟨tokens, hfirst⟩ := h t (List.mem_cons_self ..)
      obtain ⟨tokens', hrest⟩ := ih (List.forall_mem_cons.mp h).2
      have hjoint : (Token.comma true).IsJoint := trivial
      rw [Text.join_cons_cons, List.append_assoc]
      exact ⟨_, hfirst.join hjoint hrest⟩

end Token

open Token

/-! ## Values -/

/-- A value that is written as a legible text, with a unit that was read. -/
structure Value.IsLegible (v : Value) : Prop where
  unit : v.HasReadUnit
  css : Legible v.css

theorem Value.Lone.legible {v : Value} (h : v.Lone) (hunit : v.HasReadUnit) : v.IsLegible := by
  refine ⟨hunit, ?_⟩
  cases h with
  | @word t h =>
      rw [css_ofWord]
      exact ⟨_, .word h⟩
  | @number x unit =>
      exact ⟨_, .word (isWord_render x unit.text (NumberUnit.IsRead.isWordChar hunit))⟩
  | @color rgb alpha =>
      cases alpha with
      | none => exact ⟨_, .word (Color.isWord_hexText rgb)⟩
      | some alpha =>
          have hcss : (Value.color (.computed rgb (some alpha))).css = _ :=
            Color.text_computed_some rgb alpha
          have hname : IsName "rgba" := ⟨by decide, List.all_eq_true.mp (by decide)⟩
          have hinside : Inside (Color.rgbaText rgb (Scalar.clamp 0.0 1.0 alpha))
              (Color.rgbaTokens rgb (Scalar.clamp 0.0 1.0 alpha)) :=
            ⟨.run (Color.reads_rgbaText rgb _), by simp [Color.rgbaTokens, Color.rgbaText, textOf,
              Token.text]⟩
          rw [hcss]
          exact ⟨_, hinside.call hname⟩

theorem Operand.compute_lone (o : Operator) (l r : Operand) : (compute o l r).Lone := by
  cases l with
  | color a => cases r <;> exact .color
  | number x unit =>
      cases r with
      | color b => exact .color
      | number y unit' =>
          simp only [compute, ofNumbers]
          split
          · exact .number
          · exact .number

theorem Operator.operate_lone {o : Operator} {l r v : Value} (h : o.operate l r = .ok (some v)) :
    v.Lone := by
  obtain ⟨a, ha, h⟩ := bind_eq_ok h
  cases a with
  | none => cases h
  | some a =>
      obtain ⟨b, hb, h⟩ := bind_eq_ok h
      cases b with
      | none => cases h
      | some b =>
          simp only at h
          split at h
          · cases h
          · split at h
            · cases h
            · cases h
              exact Operand.compute_lone o a b

/-- Every function but `if` computes a number or a color. -/
theorem Builtin.eval_lone {b : Builtin} (hb : b ≠ choose) {values : List Value} {v : Value}
    (h : b.eval values = .ok v) : v.Lone := by
  cases b with
  | choose => exact (hb rfl).elim
  | min | max | avg | ceil | floor | round =>
      obtain ⟨result, -, h⟩ := bind_eq_ok h
      cases h
      exact .number
  | lighten | darken =>
      obtain ⟨c, -, h⟩ := bind_eq_ok h
      obtain ⟨amount, -, h⟩ := bind_eq_ok h
      cases h
      exact .color
  | greyscale =>
      obtain ⟨c, -, h⟩ := bind_eq_ok h
      cases h
      exact .color

/-- What `if` comes to, unless it is nothing: one of its arguments, or the call. -/
theorem Builtin.choose_legible {values : List Value} (h : ∀ v ∈ values, v.IsLegible) :
    Yields (fun v => v.css ≠ [] → v.IsLegible) (choose.eval values) := by
  have hwritten : (choose.written values).IsLegible := by
    have hname : IsName choose.name := ⟨by decide, List.all_eq_true.mp (by decide)⟩
    have hlegible : ∀ t ∈ values.map Value.css, Legible t := by
      intro t ht
      obtain ⟨v, hv, rfl⟩ := List.mem_map.mp ht
      exact (h v hv).css
    refine ⟨trivial, ?_⟩
    show Legible (choose.name ++ '(' :: Text.join ", " (values.map Value.css) ++ [')'])
    cases htexts : values.map Value.css with
    | nil => exact ⟨_, Inside.nil.call hname⟩
    | cons t texts =>
        rw [htexts] at hlegible
        obtain ⟨tokens, hspells⟩ := legible_join hlegible
        exact ⟨_, hspells.inside.call hname⟩
  intro v hv hne
  rcases values with _ | ⟨condition, _ | ⟨yes, rest⟩⟩
  · cases hv
    exact hwritten
  · cases hv
    exact hwritten
  · obtain ⟨outcome, -, hv⟩ := bind_eq_ok hv
    obtain ⟨hyes, hrest⟩ := List.forall_mem_cons.mp (List.forall_mem_cons.mp h).2
    rcases outcome with _ | (_ | _)
    · cases hv
      exact hwritten
    · cases rest with
      | nil =>
          cases hv
          exact (hne rfl).elim
      | cons no others =>
          cases hv
          exact hrest no (List.mem_cons_self ..)
    · cases hv
      exact hyes

/-! ## Expressions -/

/-- Whatever a term amounts to is legible. -/
structure Computed.IsLegible (c : Computed) : Prop where
  value : Yields Value.IsLegible c.value
  operand : Yields Value.IsLegible c.operand
  verbatim : Yields Legible c.verbatim

namespace Arithmetic

theorem operand_legible : ∀ {e : Arithmetic Computed}, e.All Computed.IsLegible →
    Yields Value.IsLegible e.operand
  | .missing, h => h.elim
  | .term _, h => h.operand
  | .binary left o right, h => by
      intro v hv
      obtain ⟨l, r, result, hl, hr, hresult, rfl⟩ := operand_binary hv
      have hleft := operand_legible h.1 l hl
      have hright := operand_legible h.2 r hr
      cases result with
      | some v =>
          have hunit := o.operate_hasReadUnit hleft.unit hright.unit _ hresult v rfl
          exact (Operator.operate_lone hresult).legible hunit
      | none =>
          obtain ⟨tokens, hl⟩ := hleft.css
          obtain ⟨tokens', hr⟩ := hright.css
          have hjoint : (Token.operator o).IsJoint := trivial
          refine ⟨trivial, tokens ++ .operator o :: tokens', ?_⟩
          show Spells (written l.css o r.css) _
          rw [written_eq hl.reads.begins hr.reads.begins]
          exact hl.join hjoint hr

theorem value_legible {e : Arithmetic Computed} (h : e.All Computed.IsLegible) :
    Yields Value.IsLegible e.value := by
  cases e with
  | missing => exact h.elim
  | term c => exact h.value
  | binary left o right => exact operand_legible h

end Arithmetic

theorem Expression.lineCss_legible {first : Arithmetic Computed}
    {rest : List (Separator × Arithmetic Computed)} (hfirst : first.All Computed.IsLegible)
    (hrest : ∀ next ∈ rest, next.2.All Computed.IsLegible) :
    Yields Legible (lineCss first rest) := by
  induction rest generalizing first with
  | nil => exact (Arithmetic.value_legible hfirst).map fun v hv => hv.css
  | cons next rest ih =>
      obtain ⟨s, next⟩ := next
      obtain ⟨hnext, hrest⟩ := List.forall_mem_cons.mp hrest
      have htext : Yields Legible (first.value.map Value.css) :=
        (Arithmetic.value_legible hfirst).map fun v hv => hv.css
      refine htext.bind fun t ht => (ih hnext hrest).bind fun others hothers => .ok ?_
      obtain ⟨tokens, ht⟩ := ht
      obtain ⟨tokens', hothers⟩ := hothers
      rw [← s.text_token]
      exact ⟨_, ht.join s.isJoint_token hothers⟩

namespace Piece

variable {pieces : List (Piece Computed)}

theorem valueOf_legible (h : Runs Computed.IsLegible pieces) :
    Yields Value.IsLegible (valueOf pieces) := by
  have hvalue {pieces : List (Piece Computed)} (h : Alternates Computed.IsLegible pieces) :
      Yields Value.IsLegible (valueOf pieces) := by
    obtain ⟨first, rest, rfl, hline⟩ := Expression.exists_line h
    rw [valueOf, Expression.ofPieces_eq (Expression.trimSpaces_line hline.grouped
      hline.grouped_rest) hline.grouped hline.grouped_rest]
    cases rest with
    | nil => exact Arithmetic.value_legible hline.all
    | cons next rest =>
        intro v hv
        obtain ⟨texts, htexts, rfl⟩ := map_eq_ok hv
        refine ⟨trivial, Expression.lineCss_legible hline.all hline.all_rest _ ?_⟩
        rw [← Expression.css_lineItems, htexts]
        rfl
  cases h with
  | run h => exact hvalue h
  | space h =>
      rw [valueOf, Expression.ofPieces_space]
      exact hvalue h

theorem verbatims_legible (h : Alternates Computed.IsLegible pieces) :
    Yields Legible (verbatims pieces) := by
  have hjoin {c : Computed} {piece : Piece Computed} {joint : Token} {rest : List (Piece Computed)}
      (hc : c.IsLegible) (hjoint : joint.IsJoint) (hpiece : piece.verbatim = .ok joint.text)
      (ih : Yields Legible (verbatims rest)) :
      Yields Legible (verbatims (.term c :: piece :: rest)) := by
    rw [verbatims_cons, verbatims_cons, hpiece]
    refine hc.verbatim.bind fun t ht => ?_
    intro u hu
    obtain ⟨v, hv, hu⟩ := bind_eq_ok hu
    obtain ⟨_, htext, hv⟩ := bind_eq_ok hv
    obtain ⟨w, hw, hv⟩ := bind_eq_ok hv
    cases htext
    cases hv
    cases hu
    obtain ⟨tokens, ht⟩ := ht
    obtain ⟨tokens', hw⟩ := ih w hw
    exact ⟨_, ht.join hjoint hw⟩
  induction h with
  | @one c hc =>
      rw [verbatims_cons]
      refine hc.verbatim.bind fun t ht => .ok ?_
      show Legible (t ++ [])
      rwa [List.append_nil]
  | @separator c s rest hc _ ih =>
      exact hjoin hc s.isJoint_token (congrArg Except.ok s.text_token.symm) ih
  | @operator c o rest hc _ ih =>
      have hjoint : (Token.operator o).IsJoint := trivial
      exact hjoin hc hjoint rfl ih

/-- Text that is kept between parentheses reads back there. -/
theorem verbatims_inside (h : pieces = [] ∨ Runs Computed.IsLegible pieces) :
    Yields (fun t => ∃ tokens, Inside t tokens) (verbatims pieces) := by
  rcases h with rfl | h
  · exact .ok ⟨[], .nil⟩
  cases h with
  | run h =>
      intro t ht
      obtain ⟨tokens, hspells⟩ := verbatims_legible h t ht
      exact ⟨tokens, hspells.inside⟩
  | space h =>
      rw [verbatims_cons]
      refine (Yields.ok rfl : Yields (· = [' ']) (.ok [' '])).bind fun u hu => ?_
      refine (verbatims_legible h).bind fun t ht => .ok ?_
      subst hu
      obtain ⟨tokens, hspells⟩ := ht
      exact ⟨_, hspells.inside_space⟩

theorem group_legible (h : Runs Computed.IsLegible pieces) :
    Yields Value.IsLegible (group pieces) := by
  refine (valueOf_legible h).bind fun v hv => (verbatims_inside (.inr h)).bind fun t ht => .ok ?_
  split
  · obtain ⟨tokens, hinside⟩ := ht
    exact ⟨trivial, _, hinside.group⟩
  · exact hv

theorem group_verbatim (h : Runs Computed.IsLegible pieces) :
    Yields Legible ((verbatims pieces).map fun t => '(' :: t ++ [')']) := by
  refine (verbatims_inside (.inr h)).map fun t ht => ?_
  obtain ⟨tokens, hinside⟩ := ht
  exact ⟨_, hinside.group⟩

theorem arguments_runs (h : pieces = [] ∨ Runs Computed.IsLegible pieces) :
    ∀ argument ∈ arguments pieces, Runs Computed.IsLegible argument := by
  intro argument hargument
  unfold arguments at hargument
  simp only at hargument
  split at hargument
  · cases hargument
  rename_i hspace
  rcases h with rfl | h
  · exact (hspace rfl).elim
  · refine h.splitOnP (by simp) ?_ argument hargument
    rintro ((_ | spaced) | o | c) hcomma
    · cases hcomma
    · exact ⟨_, rfl⟩
    · cases hcomma
    · cases hcomma

/-- A call of a function that is not known. -/
theorem call_legible {name : Text} (hname : Builtin.ofName? name = none) (hisname : IsName name)
    (h : pieces = [] ∨ Runs Computed.IsLegible pieces) : (call name pieces).IsLegible := by
  have htext : Yields Legible ((verbatims pieces).map fun t => name ++ '(' :: t ++ [')']) := by
    refine (verbatims_inside h).map fun t ht => ?_
    obtain ⟨tokens, hinside⟩ := ht
    exact ⟨_, hinside.call hisname⟩
  have hvalue : Yields Value.IsLegible
      (((verbatims pieces).map fun t => name ++ '(' :: t ++ [')']).map Value.ofCall) := by
    refine htext.map fun t ht => ⟨?_, (Value.css_ofCall t).symm ▸ ht⟩
    unfold Value.ofCall
    split
    · trivial
    · trivial
  rw [call, hname]
  exact ⟨hvalue, hvalue, htext⟩

end Piece

/-! ## Tokens -/

mutual

/-- A term that is written as what it is, at any depth. An `if` comes to something. -/
inductive Spelled : Token → Prop
  | word {t : Text} : IsWord t → Spelled (.word t)
  /-- A variable that nothing defines. -/
  | unknown {name : Text} :
      name ≠ [] → (∀ c ∈ name, isNameChar c = true) → Spelled (.word ('@' :: name))
  | reference {name : Text} :
      name ≠ [] → (∀ c ∈ name, isNameChar c = true) → Spelled (.reference name)
  | call {name : Text} {arguments : List Token} :
      Builtin.ofName? name = none → IsName name → SpelledInside arguments →
      Spelled (.call name arguments)
  | function {name : Text} {arguments : List Token} {b : Builtin} :
      Builtin.ofName? name = some b → b ≠ .choose → Spelled (.call name arguments)
  | choice {name : Text} {arguments : List Token} :
      Builtin.ofName? name = some .choose → SpelledInside arguments →
      Yields (·.css ≠ []) (Token.call name arguments).computed.value →
      Spelled (.call name arguments)
  | group {inside : List Token} : SpelledRun inside → Spelled (.group inside)
  | spaced {inside : List Token} : SpelledRun inside → Spelled (.group (.space :: inside))

/-- Terms with separators and operators between them. -/
inductive SpelledRun : List Token → Prop
  | one {token : Token} : Spelled token → SpelledRun [token]
  | more {token joint : Token} {rest : List Token} :
      Spelled token → joint.IsJoint → SpelledRun rest → SpelledRun (token :: joint :: rest)

inductive SpelledInside : List Token → Prop
  | nil : SpelledInside []
  | run {tokens : List Token} : SpelledRun tokens → SpelledInside tokens
  | space {tokens : List Token} : SpelledRun tokens → SpelledInside (.space :: tokens)

end

theorem Computed.IsLegible.of_value {e : Except Cause Value} (h : Yields Value.IsLegible e) :
    (Computed.ofValue e).IsLegible :=
  ⟨h, h, h.map fun _ hv => hv.css⟩

theorem Computed.IsLegible.of_text {v : Value} (h : v.IsLegible) :
    (Computed.ofText v v.css).IsLegible :=
  ⟨.ok h, .ok h, .ok h.css⟩

theorem Spelled.piece_eq {token : Token} (h : Spelled token) : token.piece = .term token := by
  cases h <;> rfl

mutual

theorem Spelled.legible : ∀ {token : Token}, Spelled token → token.computed.IsLegible
  | _, @Spelled.word t h => by
      have hv : (Value.ofWord t).IsLegible :=
        (Value.Lone.word h).legible (Value.hasReadUnit_ofWord t)
      have hlegible := Computed.IsLegible.of_text hv
      rwa [Value.css_ofWord] at hlegible
  | _, @Spelled.unknown name hne h =>
      .of_text (v := .text ('@' :: name)) ⟨trivial, _, .reference hne h⟩
  | _, @Spelled.reference name hne h =>
      .of_text (v := .text ('@' :: name)) ⟨trivial, _, .reference hne h⟩
  | _, .call hname hisname h => Piece.call_legible hname hisname h.runs
  | _, @Spelled.function name arguments b hname hb => by
      have hunits := (computed_gives Value.hasReadUnit_isClosed (.call name arguments)).value
      show (Piece.call name (computeAll arguments)).IsLegible
      have hcomputed :
          (Token.call name arguments).computed = Piece.call name (computeAll arguments) := rfl
      rw [hcomputed] at hunits
      rw [Piece.call, hname] at hunits ⊢
      refine .of_value fun v hv => ?_
      obtain ⟨values, -, heval⟩ := bind_eq_ok hv
      exact (Builtin.eval_lone hb heval).legible (hunits v hv)
  | _, @Spelled.choice name arguments hname h hne => by
      show (Piece.call name (computeAll arguments)).IsLegible
      have hcomputed :
          (Token.call name arguments).computed = Piece.call name (computeAll arguments) := rfl
      rw [hcomputed] at hne
      rw [Piece.call, hname] at hne ⊢
      refine .of_value fun v hv => ?_
      obtain ⟨values, hvalues, heval⟩ := bind_eq_ok hv
      have hlegible : ∀ v ∈ values, v.IsLegible := by
        refine Yields.mapM (fun argument hargument => ?_) values hvalues
        exact Piece.valueOf_legible (Piece.arguments_runs h.runs argument hargument)
      exact Builtin.choose_legible hlegible v heval (hne v hv)
  | _, @Spelled.group inside h =>
      have hruns : Runs Computed.IsLegible (computeAll inside) := .run h.alternates
      ⟨Piece.group_legible hruns, Piece.valueOf_legible hruns, Piece.group_verbatim hruns⟩
  | _, @Spelled.spaced inside h =>
      have hruns : Runs Computed.IsLegible (computeAll (.space :: inside)) := .space h.alternates
      ⟨Piece.group_legible hruns, Piece.valueOf_legible hruns, Piece.group_verbatim hruns⟩

theorem SpelledRun.alternates : ∀ {tokens : List Token}, SpelledRun tokens →
    Alternates Computed.IsLegible (computeAll tokens)
  | _, .one h => by
      rw [computeAll, compute_eq, h.piece_eq]
      exact .one h.legible
  | _, @SpelledRun.more token joint rest h hjoint hrest => by
      rw [computeAll, computeAll, compute_eq, h.piece_eq]
      cases joint with
      | space => exact .separator h.legible hrest.alternates
      | comma spaced => exact .separator h.legible hrest.alternates
      | operator o => exact .operator h.legible hrest.alternates
      | word | reference | call | group => exact hjoint.elim

theorem SpelledInside.runs : ∀ {tokens : List Token}, SpelledInside tokens →
    computeAll tokens = [] ∨ Runs Computed.IsLegible (computeAll tokens)
  | _, .nil => .inl rfl
  | _, .run h => .inr (.run h.alternates)
  | _, .space h => .inr (.space h.alternates)

end

end Cascade
