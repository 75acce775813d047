import Cascade.Proofs.Resolution
import Cascade.Proofs.Steady

/-!
# Evaluating twice

A steady value that has been evaluated is evaluated to itself wherever no variable is
defined.
-/

namespace Cascade

namespace Token

mutual

/-- In the place of a variable that nothing defines its spelling comes to what the variable
would. -/
theorem substitute_unknown {replacement : Text → Except Fault (List Token)}
    (h : ∀ name, replacement name = .ok [.word ('@' :: name)]) : ∀ token : Token,
      ∃ token', token.substitute replacement = .ok [token'] ∧ token'.compute = token.compute
  | .space | .comma _ | .operator _ | .word _ => ⟨_, rfl, rfl⟩
  | .reference name => ⟨_, h name, rfl⟩
  | .call name arguments => by
      obtain ⟨arguments', hsubstitute, hcompute⟩ := substituteAll_unknown h arguments
      refine ⟨.call name arguments', by rw [substitute, hsubstitute]; rfl, ?_⟩
      rw [compute, compute, hcompute]
  | .group inside => by
      obtain ⟨inside', hsubstitute, hcompute⟩ := substituteAll_unknown h inside
      refine ⟨.group inside', by rw [substitute, hsubstitute]; rfl, ?_⟩
      rw [compute, compute, hcompute]

theorem substituteAll_unknown {replacement : Text → Except Fault (List Token)}
    (h : ∀ name, replacement name = .ok [.word ('@' :: name)]) : ∀ tokens : List Token,
      ∃ tokens', substituteAll replacement tokens = .ok tokens' ∧
        computeAll tokens' = computeAll tokens
  | [] => ⟨[], rfl, rfl⟩
  | token :: rest => by
      obtain ⟨token', htoken, hcompute⟩ := substitute_unknown h token
      obtain ⟨rest', hrest, hcompute'⟩ := substituteAll_unknown h rest
      refine ⟨token' :: rest', by rw [substituteAll, htoken, hrest]; rfl, ?_⟩
      rw [computeAll, computeAll, hcompute, hcompute']

end

/-- No tokens are a missing operand. -/
theorem value_nil : value [] = .ok (.text []) := by
  show (Expression.ofPieces []).value = _
  rw [Expression.ofPieces]
  simp only [Expression.trimSpaces, List.dropWhile_nil, List.reverse_nil]
  rw [Expression.items]
  rfl

end Token

theorem eq_ok_of_blame {α : Type} {span : Span} {x : Except Cause α} {a : α}
    (h : blame span x = .ok a) : x = .ok a := by
  cases x with
  | error cause => cases h
  | ok b =>
      cases h
      rfl

namespace Scope

/-- Once its variables are replaced, the value is steady. -/
def Steady (s : Scope) (idle : List DefinitionKey) (raw : Raw) : Prop :=
  ∀ tokens, Token.substituteAll (s.replacement idle raw.span) (Token.ofText raw.text) = .ok tokens →
    tokens ≠ [] → SteadyValue tokens

/-- Where no variable is defined a text comes to what its tokens do. -/
theorem evaluate_unknown {s : Scope} (hs : ∀ name, s.meaning? name = none)
    (idle : List DefinitionKey) (raw : Raw) :
    s.evaluate idle raw = blame raw.span ((Token.value (Token.ofText raw.text)).map Value.css) := by
  have hreplacement (name : Text) :
      s.replacement idle raw.span name = .ok [.word ('@' :: name)] := by
    rw [replacement, hs]
  obtain ⟨tokens, hsubstitute, hcompute⟩ :=
    Token.substituteAll_unknown hreplacement (Token.ofText raw.text)
  have hvalue : Token.value tokens = Token.value (Token.ofText raw.text) :=
    congrArg Piece.valueOf hcompute
  rw [evaluate_eq, hsubstitute, ← hvalue]
  show (do
    let v ← blame raw.span (Token.value tokens)
    return v.css) = _
  cases Token.value tokens <;> rfl

/-- Evaluating a steady value again, where no variable is defined, changes nothing. -/
theorem evaluate_evaluated {s bare : Scope} {idle idle' : List DefinitionKey} {raw raw' : Raw}
    (hsteady : s.Steady idle raw) (h : s.evaluate idle raw = .ok raw'.text)
    (hbare : ∀ name, bare.meaning? name = none) : bare.evaluate idle' raw' = .ok raw'.text := by
  rw [evaluate_eq] at h
  obtain ⟨tokens, htokens, h⟩ := bind_eq_ok h
  obtain ⟨v, hv, h⟩ := bind_eq_ok h
  have hcss : v.css = raw'.text := Except.ok.inj h
  have hvalue : Token.value tokens = .ok v := eq_ok_of_blame hv
  rw [evaluate_unknown hbare, ← hcss]
  by_cases hnil : tokens = []
  · subst hnil
    obtain rfl := Except.ok.inj (Token.value_nil.symm.trans hvalue)
    have hempty : Token.ofText (Value.text []).css = [] := congrArg Prod.fst (Token.scan_nil _ _)
    rw [hempty, Token.value_nil]
    rfl
  · obtain ⟨tokens', v', hreads, hv', hcss'⟩ := ((hsteady tokens htokens hnil).keeps hvalue).value
    rw [hreads.ofText_eq, hv']
    show Except.ok v'.css = _
    rw [hcss']

open Token in
/-- A variable in parentheses that go. -/
theorem evaluate_evaluated_freed :
    (∀ name, meaning? name [] = none) ∧
      evaluate [] [⟨⟨[], [], [], []⟩, [("x", .argument "auto + 1")]⟩] ⟨"(@x) + 1", ⟨0, 0, 8⟩⟩ =
        .ok "auto + 1 + 1" ∧
      evaluate [] [] ⟨"auto + 1 + 1", ⟨0, 0, 12⟩⟩ = .ok "auto + 1 + 1" := by
  have hauto : IsWord "auto" := .of_all (by decide) (by decide)
  have hone : IsWord "1" := .of_all (by decide) (by decide)
  have hplus : (operator .plus).IsJoint := trivial
  have hx : Reads "@x" [.reference "x"] :=
    .reference (show ("x" : Text) ≠ [] by decide) (List.all_eq_true.mp (by decide))
  have htext : ofText "(@x) + 1" = [.group [.reference "x"], .operator .plus, .word "1"] :=
    ((Reads.group (.run hx)).join hplus (.word hone)).ofText_eq
  have hsum : ofText "auto + 1" = [.word "auto", .operator .plus, .word "1"] :=
    ((Reads.word hauto).join hplus (.word hone)).ofText_eq
  have hreplacement : replacement [] [⟨⟨[], [], [], []⟩, [("x", .argument "auto + 1")]⟩]
      ⟨0, 0, 8⟩ "x" = .ok [.word "auto", .operator .plus, .word "1"] := by
    rw [← hsum]
    rfl
  have hsubstitute : substituteAll (replacement []
      [⟨⟨[], [], [], []⟩, [("x", .argument "auto + 1")]⟩] ⟨0, 0, 8⟩) (ofText "(@x) + 1") =
        .ok [.group [.word "auto", .operator .plus, .word "1"], .operator .plus, .word "1"] := by
    simp only [htext, substituteAll, substitute, hreplacement]
    rfl
  have hgrouped (a b : Token) : (Arithmetic.binary (.term a) .plus (.term b)).Grouped :=
    ⟨trivial, trivial, rfl, nofun⟩
  have htree : SteadyTree (.binary (.term (.word "auto")) .plus (.term (.word "1")))
      (.binary (.term ()) .plus (.term ())) :=
    .text (.term (.word hauto)) (.term (.word hone)) ⟨trivial, trivial, rfl, nofun⟩ (.inl rfl)
  have hfreed : SteadyTree (.term (.group [.word "auto", .operator .plus, .word "1"]))
      (.binary (.term ()) .plus (.term ())) :=
    .freed rfl (hgrouped _ _) htree
  have hoperand : (Token.group [.word "auto", .operator .plus, .word "1"]).computed.operand =
      .ok (.text "auto + 1") :=
    (Token.operand_group rfl (hgrouped _ _)).trans rfl
  have hline : SteadyLine (.binary (.term (.group [.word "auto", .operator .plus, .word "1"]))
      .plus (.term (.word "1"))) [] :=
    .one (.operation (hgrouped _ _) (.text hfreed (.term (.word hone))
      ⟨htree.shape_grouped, trivial, rfl, nofun⟩ (.inl hoperand)))
  have hevaluate : evaluate [] [⟨⟨[], [], [], []⟩, [("x", .argument "auto + 1")]⟩]
      ⟨"(@x) + 1", ⟨0, 0, 8⟩⟩ = .ok "auto + 1 + 1" :=
    eq_ok_of_toOption (by decide +kernel)
  refine ⟨fun _ => rfl, hevaluate, evaluate_evaluated ?_ hevaluate fun _ => rfl⟩
  intro tokens htokens _
  cases htokens.symm.trans hsubstitute
  exact .line rfl hline

open Token in
/-- Once the parentheses are gone the operators regroup. -/
theorem evaluate_evaluated_regrouped :
    evaluate [] [] ⟨"2 * (1 + auto)", ⟨0, 0, 14⟩⟩ = .ok "2 * 1 + auto" ∧
      evaluate [] [] ⟨"2 * 1 + auto", ⟨0, 0, 12⟩⟩ ≠ .ok "2 * 1 + auto" := by
  refine ⟨eq_ok_of_toOption (by decide +kernel), fun h => ?_⟩
  have htwo : IsWord "2" := .of_all (by decide) (by decide)
  have hone : IsWord "1" := .of_all (by decide) (by decide)
  have hauto : IsWord "auto" := .of_all (by decide) (by decide)
  have htokens : ofText "2 * 1 + auto" =
      [.word "2", .operator .times, .word "1", .operator .plus, .word "auto"] :=
    ((Reads.word htwo).join (show (operator .times).IsJoint from trivial)
      ((Reads.word hone).join (show (operator .plus).IsJoint from trivial)
        (.word hauto))).ofText_eq
  -- The product is computed now, and a number is a single word.
  obtain ⟨x, hproduct⟩ : ∃ x, ((Arithmetic.binary (.term (word "2")) .times
      (.term (word "1"))).map computed).operand = .ok (.number x .plain) := ⟨_, rfl⟩
  have hnumber : Reads (Value.number x .plain).css [word (Value.number x .plain).css] :=
    .word (isWord_render x [] nofun)
  have htext : (Arithmetic.map computed (.term (word "auto"))).operand = .ok (.text "auto") := rfl
  have hsum := Arithmetic.operand_of_binary hproduct htext
    (Operator.operate_of_right rfl rfl : Operator.operate .plus _ _ = _)
  have hbegins : Begins (Value.text "auto").css := (Reads.word hauto).begins
  rw [Arithmetic.written_eq hnumber.begins hbegins] at hsum
  have hpieces : Expression.trimSpaces (computeAll
      [.word "2", .operator .times, .word "1", .operator .plus, .word "auto"]) =
        Expression.line ((Arithmetic.binary (.binary (.term (word "2")) .times
          (.term (word "1"))) .plus (.term (word "auto"))).map computed) [] := rfl
  have hcss := Expression.css_valueOf hpieces
    ⟨⟨trivial, trivial, rfl, fun _ => ⟨rfl, rfl⟩⟩, trivial, rfl, nofun⟩
    fun _ => List.not_mem_nil.elim
  rw [evaluate_unknown (fun _ => rfl), htokens] at h
  have hsame := hcss.symm.trans (eq_ok_of_blame h)
  have hvalue := hsame.symm.trans (congrArg (Except.map Value.css) hsum)
  have hrender : (Value.number x .plain).css = "2 * 1".toList :=
    List.append_cancel_right (Except.ok.inj hvalue).symm
  have hspace : ' ' ∈ Decimal.render x ++ [] := by
    show ' ' ∈ (Value.number x .plain).css
    rw [hrender]
    decide
  rw [List.append_nil] at hspace
  rcases Decimal.of_mem_render hspace with h | h | h <;> cases h

end Scope

end Cascade
