import Cascade.Proofs.Causes
import Cascade.Proofs.Lone
import Cascade.Proofs.Trees

/-!
# Values that stay as they are

What evaluation writes is read again where a variable or an argument is used. It is
the same value then if nothing that was written reads back differently. `SteadyValue`
gathers what that takes: a grammar of values whose separators and operators stand
between terms, whose words are words, and whose operators group as they did once
parentheses are gone. Anything else may come out differently: with `2 * (1 + auto)` the
parentheses are gone and the operators regroup.
-/

namespace Cascade

/-! ## The grammar -/

namespace Token

/-- What a term token amounts to. -/
def computed (token : Token) : Computed :=
  match token.compute with
  | .term c => c
  | .separator _ | .operator _ => .ofText (.text []) []

theorem compute_eq (token : Token) : token.compute = token.piece.map computed := by
  cases token <;> rfl

theorem computeAll_eq : ∀ tokens : List Token,
    computeAll tokens = (tokens.map piece).map (Piece.map computed)
  | [] => rfl
  | token :: rest => by
      rw [computeAll, compute_eq, computeAll_eq rest]
      rfl

theorem computed_gives {p : Value → Prop} (hp : Value.IsClosed p) (token : Token) :
    token.computed.Gives p := by
  have h := compute_gives hp token
  rw [computed]
  split
  · rename_i c hcompute
    rw [hcompute] at h
    exact h
  · exact ⟨.ok (hp.text _), .ok (hp.text _)⟩
  · exact ⟨.ok (hp.text _), .ok (hp.text _)⟩

theorem computeAll_append (tokens tokens' : List Token) :
    computeAll (tokens ++ tokens') = computeAll tokens ++ computeAll tokens' := by
  simp [computeAll_eq]

end Token

/-- A zero that has no unit proper, which every operand can be divided by. -/
def Value.IsZero (v : Value) : Prop :=
  ∃ x unit, Operand.ofValue v = .ok (some (.number x unit)) ∧ unit.isReal = false ∧
    (Operand.number x unit).isZero = true

open Token

mutual

/-- A term that stays as it is. -/
inductive Steady : Place → Token → Prop
  | word {p : Place} {t : Text} : IsWord t → Steady p (.word t)
  /-- A variable that nothing defines. -/
  | unknown {p : Place} {name : Text} :
      name ≠ [] → (∀ c ∈ name, isNameChar c = true) → Steady p (.word ('@' :: name))
  | call {p : Place} {name : Text} {arguments : List Token} :
      Builtin.ofName? name = none → IsName name → SteadyInside arguments →
      Steady p (.call name arguments)
  | function {p : Place} {name : Text} {arguments : List Token} {b : Builtin} {v : Value} :
      Builtin.ofName? name = some b → (Token.call name arguments).computed.value = .ok v → v.Lone →
      Steady p (.call name arguments)
  | operand {inside : List Token} {v : Value} :
      Token.value inside = .ok v → v.Lone → Steady .operand (.group inside)
  /-- Parentheses that stay, since there is nothing to compute in them. -/
  | kept {inside : List Token} {v : Value} {t : Text} :
      Token.value inside = .ok v → Piece.verbatims (computeAll inside) = .ok t →
      v.css = Text.trim t → SteadyInside inside → SteadyValue inside → Steady .alone (.group inside)
  | verbatim {inside : List Token} : SteadyInside inside → Steady .verbatim (.group inside)

/-- Terms with separators and operators between them, in text that is kept. -/
inductive SteadyRun : List Token → Prop
  | one {token : Token} : Steady .verbatim token → SteadyRun [token]
  | more {token joint : Token} {rest : List Token} :
      Steady .verbatim token → joint.IsJoint → SteadyRun rest → SteadyRun (token :: joint :: rest)

inductive SteadyInside : List Token → Prop
  | nil : SteadyInside []
  | run {tokens : List Token} : SteadyRun tokens → SteadyInside tokens
  | space {tokens : List Token} : SteadyRun tokens → SteadyInside (.space :: tokens)

/-- An expression and the operators of what is written for it, which group as they do in
the expression: what is computed is a single term, and parentheses around operations are
gone. What stays an operation has text as an operand or divides by zero. -/
inductive SteadyTree : Arithmetic Token → Arithmetic Unit → Prop
  | term {token : Token} : Steady .operand token → SteadyTree (.term token) (.term ())
  | freed {inside : List Token} {left right : Arithmetic Token} {o : Operator}
      {shape : Arithmetic Unit} :
      Expression.trimSpaces (inside.map piece) = (Arithmetic.binary left o right).pieces →
      (Arithmetic.binary left o right).Grouped → SteadyTree (.binary left o right) shape →
      SteadyTree (.term (.group inside)) shape
  | computed {left right : Arithmetic Token} {o : Operator} {v : Value} :
      ((Arithmetic.binary left o right).map Token.computed).operand = .ok v → v.Lone →
      SteadyTree (.binary left o right) (.term ())
  | text {left right : Arithmetic Token} {o : Operator} {shape shape' : Arithmetic Unit}
      {t : Text} :
      SteadyTree left shape → SteadyTree right shape' → (Arithmetic.binary shape o shape').Grouped →
      (left.map Token.computed).operand = .ok (.text t) ∨
        (right.map Token.computed).operand = .ok (.text t) →
      SteadyTree (.binary left o right) (.binary shape o shape')
  | zero {left : Arithmetic Token} {shape : Arithmetic Unit} {t : Text} :
      SteadyTree left shape → (Arithmetic.binary shape .dividedBy (.term ())).Grouped → IsWord t →
      (Value.ofWord t).IsZero →
      SteadyTree (.binary left .dividedBy (.term (.word t)))
        (.binary shape .dividedBy (.term ()))
  /-- A division by a color, or by a zero with a unit. -/
  | words {t t' : Text} {o : Operator} :
      IsWord t → IsWord t' → o.operate (.ofWord t) (.ofWord t') = .ok none →
      SteadyTree (.binary (.term (.word t)) o (.term (.word t')))
        (.binary (.term ()) o (.term ()))

inductive SteadyExpression : Arithmetic Token → Prop
  | term {token : Token} : Steady .alone token → SteadyExpression (.term token)
  | operation {left right : Arithmetic Token} {o : Operator} {shape : Arithmetic Unit} :
      (Arithmetic.binary left o right).Grouped → SteadyTree (.binary left o right) shape →
      SteadyExpression (.binary left o right)
  /-- Parentheses that go, since what is in them is computed. -/
  | freed {inside : List Token} {v : Value} {t : Text} :
      Token.value inside = .ok v → Piece.verbatims (computeAll inside) = .ok t →
      v.css ≠ Text.trim t → SteadyValue inside → SteadyExpression (.term (.group inside))
  /-- A function that chooses one of its arguments. -/
  | chosen {name : Text} {arguments argument : List Token} {b : Builtin} {v : Value} :
      Builtin.ofName? name = some b → (Token.call name arguments).computed.value = .ok v →
      argument <:+: arguments → Token.value argument = .ok v → SteadyValue argument →
      SteadyExpression (.term (.call name arguments))

/-- Expressions with separators between them. -/
inductive SteadyLine : Arithmetic Token → List (Separator × Arithmetic Token) → Prop
  | one {e : Arithmetic Token} : SteadyExpression e → SteadyLine e []
  | more {e next : Arithmetic Token} {s : Separator} {rest : List (Separator × Arithmetic Token)} :
      SteadyExpression e → SteadyLine next rest → SteadyLine e ((s, next) :: rest)

inductive SteadyValue : List Token → Prop
  | line {tokens : List Token} {first : Arithmetic Token}
      {rest : List (Separator × Arithmetic Token)} :
      Expression.trimSpaces (tokens.map Token.piece) = Expression.line first rest →
      SteadyLine first rest → SteadyValue tokens

end

/-! ## Operations that are not computed -/

theorem Token.Begins.trim_ne_nil {t : Text} (h : Begins t) : Text.trim t ≠ [] := by
  cases t with
  | nil => exact h.elim
  | cons c t =>
      have htrim : Text.trimStart (c :: t) = c :: t := h.dropWhile
      intro hnil
      rw [Text.trim, htrim, Text.trimEnd, List.reverse_eq_nil_iff,
        List.dropWhile_eq_nil_iff] at hnil
      have hblank := hnil c (by simp)
      rw [h.1] at hblank
      cases hblank

/-- Text is no operand. -/
theorem Operand.ofValue_text_ne_some {t : Text} (h : Begins t) {operand : Operand} :
    ofValue (.text t) ≠ .ok (some operand) := by
  rw [ofValue, if_neg (by simpa using h.trim_ne_nil)]
  split <;> rintro ⟨⟩

namespace Operator

variable {o : Operator} {l r l' r' : Value}

theorem operate_ok {result : Option Value} (h : o.operate l r = .ok result) :
    Operand.ofValue l = .ok none ∧ result = none ∨
      ∃ a, Operand.ofValue l = .ok (some a) ∧ (Operand.ofValue r = .ok none ∧ result = none ∨
        ∃ b, Operand.ofValue r = .ok (some b)) := by
  rw [operate] at h
  rcases hl : Operand.ofValue l with cause | (_ | a)
  · rw [hl] at h
    cases h
  · rw [hl] at h
    cases h
    exact .inl ⟨rfl, rfl⟩
  · rw [hl] at h
    rcases hr : Operand.ofValue r with cause | (_ | b)
    · rw [hr] at h
      cases h
    · rw [hr] at h
      cases h
      exact .inr ⟨a, rfl, .inl ⟨rfl, rfl⟩⟩
    · exact .inr ⟨a, rfl, .inr ⟨b, rfl⟩⟩

theorem operate_of_left (h : Operand.ofValue l = .ok none) : o.operate l r = .ok none := by
  rw [operate, h]
  rfl

theorem operate_of_right {a : Option Operand} (hl : Operand.ofValue l = .ok a)
    (hr : Operand.ofValue r = .ok none) : o.operate l r = .ok none := by
  cases a with
  | none => exact operate_of_left hl
  | some a =>
      rw [operate, hl, hr]
      rfl

/-- With text on one side there is no result, and there is none when the operands are
read again. -/
theorem operate_text {result : Option Value} (h : o.operate l r = .ok result)
    (hl : Begins l.css) (hr : Begins r.css) (htext : (∃ t, l = .text t) ∨ ∃ t, r = .text t)
    (hl' : l.Echoes l') (hr' : r.Echoes r') : result = none ∧ o.operate l' r' = .ok none := by
  rcases operate_ok h with ⟨hnone, hresult⟩ | ⟨a, hsome, ⟨hnone, hresult⟩ | ⟨b, hsome'⟩⟩
  · obtain rfl := hl'.eq_of_none hnone
    exact ⟨hresult, operate_of_left hnone⟩
  · obtain rfl := hr'.eq_of_none hnone
    obtain ⟨operand, hoperand⟩ := hl'.ofValue_ok hsome
    exact ⟨hresult, operate_of_right hoperand hnone⟩
  · rcases htext with ⟨t, rfl⟩ | ⟨t, rfl⟩
    · exact (Operand.ofValue_text_ne_some hl hsome).elim
    · exact (Operand.ofValue_text_ne_some hr hsome').elim

theorem operate_zero (h : r.IsZero) {operand : Option Operand}
    (hl : Operand.ofValue l = .ok operand) : dividedBy.operate l r = .ok none := by
  obtain ⟨x, unit, hr, hunit, hzero⟩ := h
  cases operand with
  | none => exact operate_of_left hl
  | some a =>
      have hconflict : a.conflict? (.number x unit) = none := by
        cases a <;> simp [Operand.conflict?, hunit]
      simp only [operate, hl, hr, bind, Except.bind, hconflict, hzero, decide_true, Bool.and_self,
        if_true]
      rfl

theorem operate_ok_left {result : Option Value} (h : o.operate l r = .ok result) :
    ∃ operand, Operand.ofValue l = .ok operand := by
  rcases operate_ok h with ⟨hl, -⟩ | ⟨a, hl, -⟩
  · exact ⟨_, hl⟩
  · exact ⟨_, hl⟩

end Operator

/-! ## The text of a list -/

namespace Expression

def lineCss (first : Arithmetic Computed) :
    List (Separator × Arithmetic Computed) → Except Cause Text
  | [] => first.value.map Value.css
  | (s, next) :: rest => do
    let t ← first.value.map Value.css
    let others ← lineCss next rest
    return t ++ (s.text ++ others)

theorem css_lineItems (first : Arithmetic Computed) :
    ∀ rest : List (Separator × Arithmetic Computed),
      ((lineItems first rest).mapM Item.css).map List.flatten = lineCss first rest
  | [] => by
      rw [lineItems, lineCss, List.mapM_cons, List.mapM_nil, Item.css]
      cases first.value.map Value.css with
      | error cause => rfl
      | ok t => exact congrArg Except.ok (List.append_nil t)
  | (s, next) :: rest => by
      have ih := css_lineItems next rest
      have hcss : Item.css (.expression first) = first.value.map Value.css := rfl
      rw [lineItems, lineCss, List.mapM_cons, List.mapM_cons, hcss, Item.css, ← ih]
      cases first.value.map Value.css with
      | error cause => rfl
      | ok t => cases (lineItems next rest).mapM Item.css <;> rfl

theorem lineCss_append (first : Arithmetic Computed) (s : Separator) (next : Arithmetic Computed)
    (others : List (Separator × Arithmetic Computed)) :
    ∀ rest, lineCss first (rest ++ (s, next) :: others) = do
      let t ← lineCss first rest
      let t' ← lineCss next others
      return t ++ (s.text ++ t')
  | [] => rfl
  | (s', next') :: rest => by
      rw [List.cons_append, lineCss, lineCss, lineCss_append next' s next others rest]
      cases first.value.map Value.css with
      | error cause => rfl
      | ok t =>
          cases lineCss next' rest with
          | error cause => rfl
          | ok u =>
              cases lineCss next others with
              | error cause => rfl
              | ok u' => exact congrArg Except.ok (by simp)

variable {first : Arithmetic Computed} {rest : List (Separator × Arithmetic Computed)}

theorem css_valueOf {pieces : List (Piece Computed)} (hpieces : trimSpaces pieces = line first rest)
    (hfirst : first.Grouped) (h : ∀ next ∈ rest, next.2.Grouped) :
    (Piece.valueOf pieces).map Value.css = lineCss first rest := by
  rw [Piece.valueOf, ofPieces_eq hpieces hfirst h]
  cases rest with
  | nil => rfl
  | cons next rest =>
      rw [← css_lineItems]
      simp only [List.isEmpty_cons, Bool.false_eq_true, if_false, Expression.value]
      cases (lineItems first (next :: rest)).mapM Item.css <;> rfl

end Expression

namespace Separator

def token : Separator → Token
  | space => .space
  | comma spaced => .comma spaced

theorem text_token (s : Separator) : s.token.text = s.text := by
  rcases s with _ | (_ | _) <;> rfl

theorem isJoint_token (s : Separator) : s.token.IsJoint := by
  cases s <;> trivial

theorem compute_token (s : Separator) : s.token.compute = .separator s := by
  cases s <;> rfl

end Separator

namespace Token

/-- The text reads back as a list that comes to it. -/
def Settled (t : Text) : Prop :=
  ∃ tokens first rest, Reads t tokens ∧ computeAll tokens = Expression.line first rest ∧
    first.Grouped ∧ (∀ next ∈ rest, next.2.Grouped) ∧ Expression.lineCss first rest = .ok t

theorem Settled.append {t t' : Text} (h : Settled t) (s : Separator) (h' : Settled t') :
    Settled (t ++ (s.text ++ t')) := by
  obtain ⟨tokens, first, rest, hreads, hline, hfirst, hrest, hcss⟩ := h
  obtain ⟨tokens', next, others, hreads', hline', hnext, hothers, hcss'⟩ := h'
  refine ⟨tokens ++ s.token :: tokens', first, rest ++ (s, next) :: others, ?_, ?_, hfirst, ?_, ?_⟩
  · rw [← s.text_token]
    exact hreads.join s.isJoint_token hreads'
  · rw [computeAll_append, hline, computeAll, hline', s.compute_token, Expression.line_append]
  · intro other hother
    rcases List.mem_append.mp hother with hother | hother
    · exact hrest other hother
    rcases List.mem_cons.mp hother with rfl | hother
    · exact hnext
    · exact hothers other hother
  · rw [Expression.lineCss_append, hcss, hcss']
    rfl

theorem Settled.value {t : Text} (h : Settled t) :
    ∃ tokens v, Reads t tokens ∧ value tokens = .ok v ∧ v.css = t := by
  obtain ⟨tokens, first, rest, hreads, hline, hfirst, hrest, hcss⟩ := h
  have hpieces : Expression.trimSpaces (computeAll tokens) = Expression.line first rest := by
    rw [hline, Expression.trimSpaces_line hfirst hrest]
  rw [← Expression.css_valueOf hpieces hfirst hrest] at hcss
  obtain ⟨v, hv, rfl⟩ := map_eq_ok hcss
  exact ⟨tokens, v, hreads, hv, rfl⟩

end Token

/-! ## Text that is kept -/

theorem Piece.verbatims_cons (piece : Piece Computed) (pieces : List (Piece Computed)) :
    verbatims (piece :: pieces) = do
      let t ← piece.verbatim
      let u ← verbatims pieces
      return t ++ u := by
  rw [verbatims, List.mapM_cons, verbatims]
  cases piece.verbatim with
  | error cause => rfl
  | ok t => cases pieces.mapM verbatim <;> rfl

namespace Token

/-- The text of the tokens, as far as it is kept, reads back between parentheses. -/
def KeepsInside (tokens : List Token) : Prop :=
  ∀ t, Piece.verbatims (computeAll tokens) = .ok t →
    ∃ tokens', Fills t tokens' ∧ Piece.verbatims (computeAll tokens') = .ok t

def KeepsRun (tokens : List Token) : Prop :=
  ∀ t, Piece.verbatims (computeAll tokens) = .ok t →
    ∃ tokens', Reads t tokens' ∧ Piece.verbatims (computeAll tokens') = .ok t

theorem verbatims_cons {token : Token} {rest : List Token} {t : Text}
    (h : Piece.verbatims (computeAll (token :: rest)) = .ok t) :
    ∃ u u', token.compute.verbatim = .ok u ∧ Piece.verbatims (computeAll rest) = .ok u' ∧
      t = u ++ u' := by
  rw [computeAll, Piece.verbatims_cons] at h
  obtain ⟨u, hu, h⟩ := bind_eq_ok h
  obtain ⟨u', hu', h⟩ := bind_eq_ok h
  cases h
  exact ⟨u, u', hu, hu', rfl⟩

theorem verbatims_of_cons {token : Token} {rest : List Token} {u u' : Text}
    (h : token.compute.verbatim = .ok u) (h' : Piece.verbatims (computeAll rest) = .ok u') :
    Piece.verbatims (computeAll (token :: rest)) = .ok (u ++ u') := by
  rw [computeAll, Piece.verbatims_cons, h, h']
  rfl

theorem verbatim_of_isJoint {joint : Token} (h : joint.IsJoint) :
    joint.compute.verbatim = .ok joint.text := by
  cases joint with
  | space | operator => rfl
  | comma spaced => cases spaced <;> rfl
  | word | reference | call | group => exact h.elim

/-- The token is a term, and there is one that comes to the same in its place. -/
def KeepsAt (p : Place) (token : Token) : Prop :=
  token.compute = .term token.computed ∧
    ∀ v, token.computed.placed p = .ok v → ∃ token', Keeps p v token'

theorem KeepsAt.verbatim {token : Token} (h : KeepsAt .verbatim token) {t : Text}
    (ht : token.compute.verbatim = .ok t) :
    ∃ token', Reads t [token'] ∧ token'.compute.verbatim = .ok t := by
  rw [h.1] at ht
  obtain ⟨token', hreads, c, v', hcompute, hplaced, hechoes⟩ :=
    h.2 (.text t) (by rw [Computed.placed, show token.computed.verbatim = .ok t from ht]; rfl)
  refine ⟨token', hreads, ?_⟩
  rw [hcompute]
  show c.verbatim = .ok t
  rw [Computed.placed] at hplaced
  cases hverbatim : c.verbatim with
  | error =>
      rw [hverbatim] at hplaced
      cases hplaced
  | ok u =>
      rw [hverbatim] at hplaced
      cases hplaced
      exact congrArg Except.ok hechoes.css_eq

theorem KeepsRun.one {token : Token} (h : KeepsAt .verbatim token) : KeepsRun [token] := by
  intro t ht
  obtain ⟨u, t', hu, ht', rfl⟩ := verbatims_cons ht
  cases ht'
  obtain ⟨token', hreads, hverbatim⟩ := h.verbatim hu
  exact ⟨[token'], (List.append_nil u).symm ▸ hreads, verbatims_of_cons hverbatim rfl⟩

theorem KeepsRun.more {token joint : Token} {rest : List Token} (h : KeepsAt .verbatim token)
    (hjoint : joint.IsJoint) (hrest : KeepsRun rest) : KeepsRun (token :: joint :: rest) := by
  intro t ht
  obtain ⟨u, t', hu, ht', rfl⟩ := verbatims_cons ht
  obtain ⟨u', t', hu', hrest', rfl⟩ := verbatims_cons ht'
  obtain ⟨token', hreads, hverbatim⟩ := h.verbatim hu
  obtain ⟨rest', hreads', hverbatim'⟩ := hrest _ hrest'
  obtain rfl := Except.ok.inj ((verbatim_of_isJoint hjoint).symm.trans hu')
  exact ⟨token' :: joint :: rest', hreads.join hjoint hreads',
    verbatims_of_cons hverbatim (verbatims_of_cons hu' hverbatim')⟩

theorem KeepsRun.inside {tokens : List Token} (h : KeepsRun tokens) : KeepsInside tokens := by
  intro t ht
  obtain ⟨tokens', hreads, hverbatim⟩ := h t ht
  exact ⟨tokens', .run hreads, hverbatim⟩

theorem KeepsRun.inside_space {tokens : List Token} (h : KeepsRun tokens) :
    KeepsInside (.space :: tokens) := by
  intro t ht
  obtain ⟨u, t', hu, ht', rfl⟩ := verbatims_cons ht
  cases hu
  obtain ⟨tokens', hreads, hverbatim⟩ := h _ ht'
  exact ⟨.space :: tokens', .space hreads, verbatims_of_cons rfl hverbatim⟩

/-! ## Terms -/

theorem KeepsAt.of_keeps {p : Place} {token token' : Token} {v : Value}
    (hcompute : token.compute = .term ⟨.ok v, .ok v, .ok v.css⟩)
    (h : Keeps .alone v token' ∧ Keeps .operand v token' ∧ Keeps .verbatim (.text v.css) token') :
    KeepsAt p token := by
  have hcomputed : token.computed = ⟨.ok v, .ok v, .ok v.css⟩ := by rw [computed, hcompute]
  refine ⟨by rw [hcompute, hcomputed], fun w hw => ⟨token', ?_⟩⟩
  rw [hcomputed] at hw
  cases p <;> cases hw
  · exact h.1
  · exact h.2.1
  · exact h.2.2

theorem KeepsAt.word (p : Place) {t : Text} (h : IsWord t) : KeepsAt p (.word t) := by
  obtain ⟨token', h'⟩ := (Value.Lone.word h).keeps (Value.hasReadUnit_ofWord t)
  exact .of_keeps (by rw [Value.css_ofWord]; rfl) h'

/-- A variable that is not defined is read as a variable, and comes to itself. -/
theorem KeepsAt.unknown (p : Place) {name : Text} (hne : name ≠ [])
    (h : ∀ c ∈ name, isNameChar c = true) : KeepsAt p (.word ('@' :: name)) :=
  .of_keeps (v := .text ('@' :: name)) rfl (keeps_of_compute (.reference hne h) rfl (.inl rfl))

theorem KeepsAt.call (p : Place) {name : Text} {arguments : List Token}
    (hname : Builtin.ofName? name = none) (hisname : IsName name) (h : KeepsInside arguments) :
    KeepsAt p (.call name arguments) := by
  cases ht : Piece.verbatims (computeAll arguments) with
  | error cause =>
      refine ⟨rfl, fun v hv => ?_⟩
      rw [computed, compute, Piece.call, hname, ht] at hv
      cases p <;> cases hv
  | ok t =>
      obtain ⟨arguments', hfills, hverbatim⟩ := h t ht
      have hreads := Reads.call hisname hfills
      rw [← Value.css_ofCall (name ++ '(' :: t ++ [')'])] at hreads
      exact .of_keeps (compute_call hname ht)
        (keeps_of_compute hreads (compute_call hname hverbatim) (.inl rfl))

theorem KeepsAt.function (p : Place) {name : Text} {arguments : List Token} {b : Builtin}
    {v : Value} (hname : Builtin.ofName? name = some b)
    (hv : (Token.call name arguments).computed.value = .ok v) (hlone : v.Lone) :
    KeepsAt p (.call name arguments) := by
  obtain ⟨token', h⟩ := hlone.keeps ((computed_gives Value.hasReadUnit_isClosed _).value v hv)
  refine .of_keeps ?_ h
  rw [computed] at hv
  rw [compute, Piece.call, hname] at hv ⊢
  simp only [Computed.ofValue] at hv ⊢
  rw [hv]
  rfl

theorem KeepsAt.operand {inside : List Token} {v : Value} (hv : value inside = .ok v)
    (hlone : v.Lone) : KeepsAt .operand (.group inside) := by
  obtain ⟨token', h⟩ := hlone.keeps (value_gives Value.hasReadUnit_isClosed inside v hv)
  refine ⟨rfl, fun w hw => ⟨token', ?_⟩⟩
  cases hv.symm.trans hw
  exact h.2.1

theorem KeepsAt.group {inside : List Token} (h : KeepsInside inside) :
    KeepsAt .verbatim (.group inside) := by
  refine ⟨rfl, fun w hw => ?_⟩
  cases ht : Piece.verbatims (computeAll inside) with
  | error cause =>
      rw [computed, compute, Computed.placed, ht] at hw
      cases hw
  | ok t =>
      rw [computed, compute, Computed.placed, ht] at hw
      cases hw
      obtain ⟨inside', hfills, hverbatim⟩ := h t ht
      refine ⟨.group inside', .group hfills, _, _, rfl, ?_, .inl rfl⟩
      rw [Computed.placed, hverbatim]
      rfl

theorem Reads.trim_eq {u : Text} {tokens : List Token} (h : Reads u tokens) : Text.trim u = u := by
  have hstart : Text.trimStart u = u := h.begins.dropWhile
  obtain ⟨before, c, hu, hc⟩ := h.ends
  rw [Text.trim, hstart, Text.trimEnd, hu, List.reverse_concat,
    List.dropWhile_cons_of_neg (by simp [hc]), List.reverse_cons, List.reverse_reverse]

/-- What fills parentheses is read as its trimmed text is, but for white space at the
beginning. -/
theorem Fills.trimmed {t : Text} {tokens tokens' : List Token} (h : Fills t tokens)
    (h' : Reads (Text.trim t) tokens') : value tokens = value tokens' := by
  cases h with
  | nil => exact h'.begins.elim
  | run h =>
      rw [h.trim_eq] at h'
      rw [← h.ofText_eq, h'.ofText_eq]
  | @space u tokens h =>
      have htrim : Text.trim (' ' :: u) = Text.trim u := by
        rw [Text.trim, Text.trim, Text.trimStart, h.begins.dropWhile_space, Text.trimStart,
          h.begins.dropWhile]
      rw [htrim, h.trim_eq] at h'
      show value tokens = _
      rw [← h.ofText_eq, h'.ofText_eq]

/-- Kept parentheses are kept again. -/
theorem KeepsAt.kept {inside : List Token} {v : Value} {t : Text} (hv : value inside = .ok v)
    (ht : Piece.verbatims (computeAll inside) = .ok t) (heq : v.css = Text.trim t)
    (hinside : KeepsInside inside)
    (hvalue : Settled v.css) : KeepsAt .alone (.group inside) := by
  have hgroup {inside : List Token} {v : Value} (hv : value inside = .ok v)
      (ht : Piece.verbatims (computeAll inside) = .ok t) (heq : v.css = Text.trim t) :
      Piece.group (computeAll inside) = .ok (.text ('(' :: t ++ [')'])) := by
    rw [Piece.group, show Piece.valueOf (computeAll inside) = .ok v from hv, ht]
    show Except.ok _ = _
    rw [if_pos heq]
  refine ⟨rfl, fun w hw => ?_⟩
  cases (hgroup hv ht heq).symm.trans hw
  obtain ⟨inside', hfills, hverbatim⟩ := hinside t ht
  obtain ⟨tokens, v', hreads, hv', hcss⟩ := hvalue.value
  rw [heq] at hreads hcss
  rw [← hfills.trimmed hreads] at hv'
  exact ⟨.group inside', .group hfills, _, _, rfl, hgroup hv' hverbatim hcss, .inl rfl⟩

end Token

/-! ## Expressions -/

/-- The tokens read back from the text of an expression, and their tree is of the shape and
comes to what the expression came to. -/
structure Arithmetic.Keeps (e : Arithmetic Token) (shape : Arithmetic Unit) (v : Value)
    (tokens : List Token) (e' : Arithmetic Computed) : Prop where
  reads : Reads v.css tokens
  pieces : computeAll tokens = e'.pieces
  map_eq : e'.map (fun _ => ()) = shape
  operand : ∃ v', e'.operand = .ok v' ∧ v.Echoes v'
  value : e.isOperation = true → ∃ v', e'.value = .ok v' ∧ v'.css = v.css

namespace Arithmetic

/-- A term that stands for the whole expression. -/
theorem Keeps.of_term {e : Arithmetic Token} {v : Value} {token : Token}
    (halone : e.isOperation = true → Token.Keeps .alone v token)
    (hoperand : Token.Keeps .operand v token) :
    ∃ tokens e', e.Keeps (.term ()) v tokens e' := by
  obtain ⟨hreads, c, v', hcompute, hplaced, hechoes⟩ := hoperand
  refine ⟨[token], .term c, hreads, by rw [computeAll, hcompute]; rfl, rfl,
    ⟨v', hplaced, hechoes⟩, fun hoperation => ?_⟩
  obtain ⟨-, c', w, hcompute', hplaced', hechoes'⟩ := halone hoperation
  cases hcompute.symm.trans hcompute'
  exact ⟨w, hplaced', hechoes'.css_eq⟩

/-- A word as an operand. -/
theorem Keeps.word {t : Text} (h : IsWord t) :
    (term (.word t)).Keeps (.term ()) (.ofWord t) [.word t] (term (.ofText (.ofWord t) t)) where
  reads := by rw [Value.css_ofWord]; exact .word h
  pieces := rfl
  map_eq := rfl
  operand := ⟨_, rfl, .inl rfl⟩
  value := nofun

theorem operand_binary {left right : Arithmetic Computed} {o : Operator} {v : Value}
    (h : (binary left o right).operand = .ok v) :
    ∃ l r result, left.operand = .ok l ∧ right.operand = .ok r ∧ o.operate l r = .ok result ∧
      v = result.getD (.text (written l.css o r.css)) := by
  obtain ⟨l, hl, h⟩ := bind_eq_ok h
  obtain ⟨r, hr, h⟩ := bind_eq_ok h
  obtain ⟨result, hresult, h⟩ := bind_eq_ok h
  cases result <;> cases h <;> exact ⟨l, r, _, hl, hr, hresult, rfl⟩

theorem operand_of_binary {left right : Arithmetic Computed} {o : Operator} {l r : Value}
    (hl : left.operand = .ok l) (hr : right.operand = .ok r) (h : o.operate l r = .ok none) :
    (binary left o right).operand = .ok (.text (written l.css o r.css)) := by
  simp only [operand, hl, hr, bind, Except.bind, h]
  rfl

theorem written_eq {l r : Text} (hl : Begins l) (hr : Begins r) (o : Operator) :
    written l o r = l ++ ((Token.operator o).text ++ r) := by
  cases l with
  | nil => exact hl.elim
  | cons c l =>
      cases r with
      | nil => exact hr.elim
      | cons d r => simp [written, Text.join, Token.text]

/-- An operation that is not computed, between operands that stay. -/
theorem Keeps.binary {left right : Arithmetic Token} {o : Operator} {shape shape' : Arithmetic Unit}
    {l r : Value} {tokens tokens' : List Token} {left' right' : Arithmetic Computed}
    (hleft : left.Keeps shape l tokens left') (hright : right.Keeps shape' r tokens' right')
    {l' r' : Value} (hl' : left'.operand = .ok l') (hr' : right'.operand = .ok r')
    (hcssl : l'.css = l.css) (hcssr : r'.css = r.css) (hnone : o.operate l' r' = .ok none) :
    (Arithmetic.binary left o right).Keeps (.binary shape o shape')
      (.text (written l.css o r.css)) (tokens ++ .operator o :: tokens')
      (.binary left' o right') := by
  have hoperand := operand_of_binary hl' hr' hnone
  rw [hcssl, hcssr] at hoperand
  refine
    { reads := ?_
      pieces := ?_
      map_eq := by rw [Arithmetic.map, hleft.map_eq, hright.map_eq]
      operand := ⟨_, hoperand, .inl rfl⟩
      value := fun _ => ⟨_, hoperand, rfl⟩ }
  · show Reads (written l.css o r.css) _
    rw [written_eq hleft.reads.begins hright.reads.begins]
    exact hleft.reads.join trivial hright.reads
  · rw [Token.computeAll_append, hleft.pieces, computeAll, hright.pieces]
    rfl

/-- An expression that is kept is settled. -/
theorem Keeps.settled {e : Arithmetic Token} {shape : Arithmetic Unit} {v : Value}
    {tokens : List Token} {e' : Arithmetic Computed} (h : e.Keeps shape v tokens e')
    (hshape : shape.Grouped) (hoperation : e.isOperation = true) : Settled v.css := by
  obtain ⟨v', hv', hcss⟩ := h.value hoperation
  have hgrouped : e'.Grouped := by
    rwa [← h.map_eq, grouped_map] at hshape
  refine ⟨tokens, e', [], h.reads, h.pieces, hgrouped, fun _ => List.not_mem_nil.elim, ?_⟩
  rw [Expression.lineCss, hv', ← hcss]
  rfl

end Arithmetic

/-- Parentheses around an operation come to the operation. -/
theorem Token.operand_group {inside : List Token} {left right : Arithmetic Token} {o : Operator}
    (hpieces : Expression.trimSpaces (inside.map piece) = (Arithmetic.binary left o right).pieces)
    (hgrouped : (Arithmetic.binary left o right).Grouped) :
    (Token.group inside).computed.operand =
      ((Arithmetic.binary left o right).map Token.computed).operand := by
  have htrim : Expression.trimSpaces (computeAll inside) =
      Expression.line ((Arithmetic.binary left o right).map Token.computed) [] := by
    rw [computeAll_eq, Expression.trimSpaces_map, hpieces, ← Arithmetic.pieces_map]
    rfl
  show Piece.valueOf (computeAll inside) = _
  rw [Piece.valueOf, Expression.ofPieces_eq htrim (Arithmetic.grouped_map.mpr hgrouped)
    fun _ => List.not_mem_nil.elim]
  rfl

theorem Arithmetic.each_map {α β : Type} {f : α → β} {p : β → Prop} (h : ∀ a, p (f a)) :
    ∀ e : Arithmetic α, (e.map f).Each p
  | .missing => trivial
  | .term a => h a
  | .binary left _ right => ⟨each_map h left, each_map h right⟩

/-! ## Lists -/

/-- The text of an expression is settled. -/
def KeepsExpression (e : Arithmetic Token) : Prop :=
  ∀ v, (e.map Token.computed).value = .ok v → Settled v.css

def KeepsLine (first : Arithmetic Token) (rest : List (Separator × Arithmetic Token)) : Prop :=
  ∀ t, Expression.lineCss (first.map Token.computed)
    (rest.map fun next => (next.1, next.2.map Token.computed)) = .ok t → Settled t

theorem KeepsExpression.term {token : Token} (h : KeepsAt .alone token) :
    KeepsExpression (.term token) := by
  intro v hv
  obtain ⟨token', hreads, c, v', hcompute, hplaced, hechoes⟩ := h.2 v hv
  refine ⟨[token'], .term c, [], hreads, by rw [computeAll, hcompute]; rfl, trivial,
    fun _ => List.not_mem_nil.elim, ?_⟩
  show (c.placed .alone).map Value.css = _
  rw [hplaced, ← hechoes.css_eq]
  rfl

/-- A term that comes to what a settled value does. -/
theorem KeepsExpression.of_value {token : Token} {v : Value} (hv : token.computed.value = .ok v)
    (h : Settled v.css) : KeepsExpression (.term token) := by
  intro w hw
  cases hv.symm.trans hw
  exact h

theorem Token.value_group {inside : List Token} {v : Value} {t : Text} (hv : value inside = .ok v)
    (ht : Piece.verbatims (computeAll inside) = .ok t) (hne : v.css ≠ Text.trim t) :
    (group inside).computed.value = .ok v := by
  show Piece.group (computeAll inside) = _
  rw [Piece.group, show Piece.valueOf (computeAll inside) = .ok v from hv, ht]
  show Except.ok _ = _
  rw [if_neg hne]

theorem KeepsLine.one {e : Arithmetic Token} (h : KeepsExpression e) : KeepsLine e [] := by
  intro t ht
  obtain ⟨v, hv, rfl⟩ := map_eq_ok ht
  exact h v hv

theorem KeepsLine.more {e next : Arithmetic Token} {s : Separator}
    {rest : List (Separator × Arithmetic Token)} (h : KeepsExpression e)
    (hrest : KeepsLine next rest) : KeepsLine e ((s, next) :: rest) := by
  intro t ht
  obtain ⟨u, hu, ht⟩ := bind_eq_ok ht
  obtain ⟨v, hv, rfl⟩ := map_eq_ok hu
  obtain ⟨others, hothers, ht⟩ := bind_eq_ok ht
  cases ht
  exact (h v hv).append s (hrest others hothers)

theorem SteadyExpression.grouped {e : Arithmetic Token} (h : SteadyExpression e) : e.Grouped := by
  cases h with
  | term | freed | chosen => trivial
  | operation hgrouped => exact hgrouped

theorem SteadyLine.grouped : ∀ {first : Arithmetic Token}
    {rest : List (Separator × Arithmetic Token)}, SteadyLine first rest →
      first.Grouped ∧ ∀ next ∈ rest, next.2.Grouped
  | _, _, .one h => ⟨h.grouped, fun _ => List.not_mem_nil.elim⟩
  | _, _, .more h hrest => by
      refine ⟨h.grouped, fun other hother => ?_⟩
      rcases List.mem_cons.mp hother with rfl | hother
      · exact hrest.grouped.1
      · exact hrest.grouped.2 other hother

theorem SteadyTree.shape_grouped {e : Arithmetic Token} {shape : Arithmetic Unit} :
    SteadyTree e shape → shape.Grouped
  | .term _ | .computed _ _ => trivial
  | .freed _ _ h => h.shape_grouped
  | .text _ _ hshape _ | .zero _ hshape _ _ => hshape
  | .words _ _ _ => ⟨trivial, trivial, rfl, fun _ => ⟨rfl, rfl⟩⟩

/-! ## What stays as it is -/

mutual

theorem Steady.keeps : ∀ {p : Place} {token : Token}, Steady p token → KeepsAt p token
  | p, _, .word h => .word p h
  | p, _, .unknown hne h => .unknown p hne h
  | p, _, .call hname hisname h => .call p hname hisname h.keeps
  | p, _, .function hname hv hlone => .function p hname hv hlone
  | _, _, .operand hv hlone => .operand hv hlone
  | _, _, .kept hv ht heq hinside hvalue => .kept hv ht heq hinside.keeps (hvalue.keeps hv)
  | _, _, .verbatim h => .group h.keeps

theorem SteadyRun.keeps : ∀ {tokens : List Token}, SteadyRun tokens → KeepsRun tokens
  | _, .one h => .one h.keeps
  | _, .more h hjoint hrest => .more h.keeps hjoint hrest.keeps

theorem SteadyInside.keeps : ∀ {tokens : List Token}, SteadyInside tokens → KeepsInside tokens
  | _, .nil => fun _ h => ⟨[], by cases h; exact ⟨.nil, rfl⟩⟩
  | _, .run h => h.keeps.inside
  | _, .space h => h.keeps.inside_space

theorem SteadyTree.keeps : ∀ {e : Arithmetic Token} {shape : Arithmetic Unit},
    SteadyTree e shape → ∀ {v : Value}, (e.map Token.computed).operand = .ok v →
      ∃ tokens e', e.Keeps shape v tokens e'
  | _, _, .term h, v, hv => by
      obtain ⟨token', h'⟩ := h.keeps.2 v hv
      exact Arithmetic.Keeps.of_term nofun h'
  | _, _, .freed hpieces hgrouped h, v, hv => by
      obtain ⟨tokens, e', h'⟩ := h.keeps ((Token.operand_group hpieces hgrouped).symm.trans hv)
      exact ⟨tokens, e', { h' with value := nofun }⟩
  | _, _, .computed hvalue hlone, v, hv => by
      cases hvalue.symm.trans hv
      have hunit := Arithmetic.operand_gives Value.hasReadUnit_isClosed
        (Arithmetic.each_map (computed_gives Value.hasReadUnit_isClosed) _) _ hv
      obtain ⟨token', halone, hoperand, -⟩ := hlone.keeps hunit
      exact Arithmetic.Keeps.of_term (fun _ => halone) hoperand
  | _, _, .text hleft hright _ htext, v, hv => by
      obtain ⟨l, r, result, hl, hr, hresult, rfl⟩ := Arithmetic.operand_binary hv
      obtain ⟨tokens, left', hkeeps⟩ := hleft.keeps hl
      obtain ⟨tokens', right', hkeeps'⟩ := hright.keeps hr
      obtain ⟨l', hl', hechoes⟩ := hkeeps.operand
      obtain ⟨r', hr', hechoes'⟩ := hkeeps'.operand
      have htext : (∃ t, l = .text t) ∨ ∃ t, r = .text t := by
        rcases htext with h | h
        · exact .inl ⟨_, Except.ok.inj (hl.symm.trans h)⟩
        · exact .inr ⟨_, Except.ok.inj (hr.symm.trans h)⟩
      obtain ⟨rfl, hnone⟩ := Operator.operate_text hresult hkeeps.reads.begins
        hkeeps'.reads.begins htext hechoes hechoes'
      exact ⟨_, _, .binary hkeeps hkeeps' hl' hr' hechoes.css_eq hechoes'.css_eq hnone⟩
  | _, _, .zero hleft _ hword hzero, v, hv => by
      obtain ⟨l, r, result, hl, hr, hresult, rfl⟩ := Arithmetic.operand_binary hv
      obtain ⟨tokens, left', hkeeps⟩ := hleft.keeps hl
      obtain ⟨l', hl', hechoes⟩ := hkeeps.operand
      obtain ⟨a, ha⟩ := Operator.operate_ok_left hresult
      obtain ⟨a', ha'⟩ := hechoes.ofValue_ok ha
      cases hr
      obtain rfl := Except.ok.inj ((Operator.operate_zero hzero ha).symm.trans hresult)
      exact ⟨_, _, .binary hkeeps (.word hword) hl' rfl hechoes.css_eq rfl
        (Operator.operate_zero hzero ha')⟩
  | _, _, .words ht ht' hnone, v, hv => by
      obtain ⟨l, r, result, hl, hr, hresult, rfl⟩ := Arithmetic.operand_binary hv
      cases hl
      cases hr
      cases hnone.symm.trans hresult
      exact ⟨_, _, .binary (.word ht) (.word ht') rfl rfl rfl rfl hnone⟩

theorem SteadyExpression.keeps : ∀ {e : Arithmetic Token}, SteadyExpression e → KeepsExpression e
  | _, .term h => .term h.keeps
  | _, .operation _ h => fun v hv => by
      obtain ⟨tokens, e', h'⟩ := h.keeps hv
      exact h'.settled h.shape_grouped rfl
  | _, .freed hv ht hne h => .of_value (Token.value_group hv ht hne) (h.keeps hv)
  | _, .chosen _ hv _ hargument h => .of_value hv (h.keeps hargument)

theorem SteadyLine.keeps : ∀ {first : Arithmetic Token}
    {rest : List (Separator × Arithmetic Token)}, SteadyLine first rest → KeepsLine first rest
  | _, _, .one h => .one h.keeps
  | _, _, .more h hrest => .more h.keeps hrest.keeps

theorem SteadyValue.keeps : ∀ {tokens : List Token}, SteadyValue tokens → ∀ {v : Value},
    Token.value tokens = .ok v → Settled v.css
  | tokens, @SteadyValue.line _ first rest htrim hline, v, hv => by
      obtain ⟨hfirst, hrest⟩ := hline.grouped
      have hpieces : Expression.trimSpaces (computeAll tokens) =
          Expression.line (first.map Token.computed)
            (rest.map fun next => (next.1, next.2.map Token.computed)) := by
        rw [computeAll_eq, Expression.trimSpaces_map, htrim, Expression.line_map]
      have hcss := Expression.css_valueOf hpieces (Arithmetic.grouped_map.mpr hfirst)
        fun next hnext => by
          obtain ⟨other, hother, rfl⟩ := List.mem_map.mp hnext
          exact Arithmetic.grouped_map.mpr (hrest other hother)
      rw [show Piece.valueOf (computeAll tokens) = .ok v from hv] at hcss
      exact hline.keeps v.css hcss.symm

end

end Cascade
