import Cascade.Proofs.Legible

/-!
# Operations that are not computed

An operation that is not computed is written with its operands on both sides of the
operator, and without the parentheses that were around them. It reads back as the same
operation exactly if its text still groups as it did (`Arithmetic.reads_back_iff`): what is
written on the right is no sum, and next to `*` and `/` no sum is written on the left and no
operation on the right. With any other operands the text is another operation.
-/

namespace Cascade

open Token

/-! ## The text of a tree -/

/-- A tree as it is written. -/
def Arithmetic.text (e : Arithmetic Token) : Text := e.pieces.flatMap Piece.text

theorem Arithmetic.text_binary (left right : Arithmetic Token) (o : Operator) :
    (binary left o right).text = left.text ++ ((Token.operator o).text ++ right.text) := by
  simp [text, pieces, Piece.text]

/-- The texts are the same, but for parentheses around the first. -/
def Encloses (u t : Text) : Prop := u = t ∨ u = '(' :: t ++ [')']

theorem Piece.text_ne_nil {pieces : List (Piece Token)}
    (h : Alternates (fun token => token.text ≠ []) pieces) : ∀ piece ∈ pieces, piece.text ≠ [] := by
  have hseparator (s : Separator) : Piece.text (.separator s) ≠ [] := by
    rcases s with _ | (_ | _) <;> nofun
  have hoperator (o : Operator) : Piece.text (.operator o) ≠ [] := nofun
  induction h with
  | one ha => exact List.forall_mem_cons.mpr ⟨ha, nofun⟩
  | separator ha _ ih =>
      exact List.forall_mem_cons.mpr ⟨ha, List.forall_mem_cons.mpr ⟨hseparator _, ih⟩⟩
  | operator ha _ ih =>
      exact List.forall_mem_cons.mpr ⟨ha, List.forall_mem_cons.mpr ⟨hoperator _, ih⟩⟩

/-- Two beginnings of a run that are written alike are the same. -/
theorem Piece.eq_of_text_eq {pieces pieces' rest rest' : List (Piece Token)}
    (h : ∀ piece ∈ pieces ++ rest, piece.text ≠ []) (heq : pieces ++ rest = pieces' ++ rest')
    (htext : pieces.flatMap Piece.text = pieces'.flatMap Piece.text) : pieces = pieces' := by
  have hnil {middle : List (Piece Token)} (hmiddle : ∀ piece ∈ middle, piece.text ≠ [])
      (htext : middle.flatMap Piece.text = []) : middle = [] := by
    cases middle with
    | nil => rfl
    | cons piece others =>
        rw [List.flatMap_cons, List.append_eq_nil_iff] at htext
        exact (hmiddle piece (List.mem_cons_self ..) htext.1).elim
  rcases List.append_eq_append_iff.mp heq with ⟨middle, rfl, rfl⟩ | ⟨middle, rfl, rfl⟩
  · rw [List.flatMap_append, List.self_eq_append_right] at htext
    rw [hnil (fun piece hpiece => h piece (by simp [hpiece])) htext, List.append_nil]
  · rw [List.flatMap_append, List.append_right_eq_self] at htext
    rw [hnil (fun piece hpiece => h piece (by simp [hpiece])) htext, List.append_nil]

/-- A parenthesis does not stand where an operator does. -/
theorem eq_of_enclosed {t rest rest' : Text} {c d : Char}
    (h : '(' :: t ++ [')'] ++ rest = t ++ c :: d :: rest') : d = ')' := by
  have hget := congrArg (·[t.length + 1]?) h
  simpa using hget.symm

/-! ## Reading an operation back -/

namespace Token

/-- The tree of an operation whose operands are written one after the other is an operation
of these operands exactly if they group so. -/
theorem Spells.binary_iff {t t' : Text} {tokens tokens' : List Token} (h : Spells t tokens)
    (h' : Spells t' tokens') (o : Operator) :
    (∃ left right, expression (ofText (t ++ ((operator o).text ++ t'))) =
        .single (.binary left o right) ∧ Encloses left.text t ∧ Encloses right.text t') ↔
      ∃ left right, expression (ofText t) = .single left ∧ expression (ofText t') = .single right ∧
        right.isSum = false ∧
          (o.isTight = true → left.isSum = false ∧ right.isOperation = false) := by
  have hjoint : (operator o).IsJoint := trivial
  have hwhole := h.join hjoint h'
  have hpieces : (tokens ++ operator o :: tokens').map piece =
      tokens.map piece ++ .operator o :: tokens'.map piece := by
    rw [List.map_append, List.map_cons]
    rfl
  have halternates := hwhole.alternates
  rw [hpieces] at halternates
  simp only [expression, h.reads.ofText_eq, h'.reads.ofText_eq, hwhole.reads.ofText_eq, hpieces,
    Expression.ofPieces_eq_single_iff h.alternates, Expression.ofPieces_eq_single_iff h'.alternates,
    Expression.ofPieces_eq_single_iff halternates]
  have htext : (tokens.map piece).flatMap Piece.text = t := by rw [← textOf_eq, h.text_eq]
  have htext' : (tokens'.map piece).flatMap Piece.text = t' := by rw [← textOf_eq, h'.text_eq]
  constructor
  · rintro ⟨left, right, ⟨hbinary, hleft, hright, hsum, htight⟩, henclosed, -⟩
    have hleft_text : left.text = t := by
      refine henclosed.resolve_right fun hparentheses => ?_
      have hsame := congrArg (List.flatMap Piece.text) hbinary
      rw [List.flatMap_append, List.flatMap_cons, htext, htext'] at hsame
      have hsame : '(' :: t ++ [')'] ++ ((operator o).text ++ right.text) =
          t ++ ' ' :: o.char :: ' ' :: t' := by
        rw [← hparentheses, ← Arithmetic.text_binary]
        exact hsame.symm
      cases o <;> cases eq_of_enclosed hsame
    have hpieces : tokens.map piece = left.pieces :=
      Piece.eq_of_text_eq (Piece.text_ne_nil halternates) hbinary (htext.trans hleft_text.symm)
    have hpieces' : tokens'.map piece = right.pieces := by
      rw [hpieces] at hbinary
      exact (List.cons.inj (List.append_cancel_left hbinary)).2
    exact ⟨left, right, ⟨hpieces, hleft⟩, ⟨hpieces', hright⟩, hsum, htight⟩
  · rintro ⟨left, right, ⟨hpieces, hleft⟩, ⟨hpieces', hright⟩, hsum, htight⟩
    refine ⟨left, right, ⟨?_, hleft, hright, hsum, htight⟩, .inl ?_, .inl ?_⟩
    · rw [hpieces, hpieces']
      rfl
    · rw [Arithmetic.text, ← hpieces, htext]
    · rw [Arithmetic.text, ← hpieces', htext']

end Token

/-- An operation of spelled terms that is not computed: its text reads back as the operation
of its operands exactly if what is written on both sides groups so. -/
theorem Arithmetic.reads_back_iff {left right : Arithmetic Token} {o : Operator}
    (hleft : left.All Spelled) (hright : right.All Spelled) {l r : Value}
    (hl : (left.map Token.computed).operand = .ok l)
    (hr : (right.map Token.computed).operand = .ok r) (hnone : o.operate l r = .ok none) :
    ∃ t, ((binary left o right).map Token.computed).value = .ok (.text t) ∧
      ((∃ left' right', expression (ofText t) = .single (.binary left' o right') ∧
          Encloses left'.text l.css ∧ Encloses right'.text r.css) ↔
        ∃ left' right', expression (ofText l.css) = .single left' ∧
          expression (ofText r.css) = .single right' ∧ right'.isSum = false ∧
            (o.isTight = true → left'.isSum = false ∧ right'.isOperation = false)) := by
  obtain ⟨tokens, hspells⟩ := (operand_legible (hleft.map fun _ h => h.legible) l hl).css
  obtain ⟨tokens', hspells'⟩ := (operand_legible (hright.map fun _ h => h.legible) r hr).css
  refine ⟨written l.css o r.css, operand_of_binary hl hr hnone, ?_⟩
  rw [written_eq hspells.reads.begins hspells'.reads.begins]
  exact hspells.binary_iff hspells' o

/-- A product that is not computed is added to a word. -/
theorem Arithmetic.reads_back_iff_product :
    (term (.word "auto")).All Spelled ∧
      (term (.group [.word "2", .operator .times, .word "none"])).All Spelled ∧
      ((term (.word "auto")).map Token.computed).operand = .ok (.text "auto") ∧
      ((term (.group [.word "2", .operator .times, .word "none"])).map Token.computed).operand =
        .ok (.text "2 * none") ∧
      Operator.plus.operate (.text "auto") (.text "2 * none") = .ok none ∧
      ∃ t left' right', ((binary (term (.word "auto")) .plus
          (term (.group [.word "2", .operator .times, .word "none"]))).map Token.computed).value =
          .ok (.text t) ∧ expression (ofText t) = .single (.binary left' .plus right') ∧
        Encloses left'.text "auto" ∧ Encloses right'.text "2 * none" := by
  have hauto : IsWord "auto" := .of_all (by decide) (by decide)
  have htwo : IsWord "2" := .of_all (by decide) (by decide)
  have hnone : IsWord "none" := .of_all (by decide) (by decide)
  have htimes : (Token.operator .times).IsJoint := trivial
  have hleft : (term (.word "auto")).All Spelled := .word hauto
  have hright : (term (.group [.word "2", .operator .times, .word "none"])).All Spelled :=
    .group (.more (.word htwo) htimes (.one (.word hnone)))
  have hgrouped : (binary (term (Token.word "2")) .times (term (.word "none"))).Grouped :=
    ⟨trivial, trivial, rfl, fun _ => ⟨rfl, rfl⟩⟩
  have hr : (Token.group [.word "2", .operator .times, .word "none"]).computed.operand =
      .ok (.text "2 * none") :=
    (Token.operand_group rfl hgrouped).trans rfl
  have hoperate : Operator.plus.operate (.text "auto") (.text "2 * none") = .ok none :=
    Operator.operate_of_left rfl
  obtain ⟨t, hvalue, hiff⟩ := reads_back_iff hleft hright (o := .plus) rfl hr hoperate
  have hproduct := (Spells.word htwo).join htimes (.word hnone)
  have hexpression : expression (ofText "auto") = .single (term (.word "auto")) := by
    rw [(Spells.word hauto).reads.ofText_eq]
    exact (Expression.ofPieces_eq_single_iff (Spells.word hauto).alternates).mpr ⟨rfl, trivial⟩
  have hexpression' : expression (ofText "2 * none") =
      .single (binary (term (.word "2")) .times (term (.word "none"))) := by
    rw [show ofText "2 * none" = _ from hproduct.reads.ofText_eq]
    exact (Expression.ofPieces_eq_single_iff hproduct.alternates).mpr ⟨rfl, hgrouped⟩
  obtain ⟨left', right', hback⟩ := hiff.mpr ⟨_, _, hexpression, hexpression', rfl, nofun⟩
  exact ⟨hleft, hright, rfl, hr, hoperate, t, left', right', hvalue, hback⟩

/-- A sum that is not computed is multiplied: what is written is another operation. -/
theorem Arithmetic.reads_back_regrouped :
    ((term (.word "2")).map Token.computed).operand = .ok (.ofWord "2") ∧
      ((term (.group [.word "1", .operator .plus, .word "auto"])).map Token.computed).operand =
        .ok (.text "1 + auto") ∧
      Operator.times.operate (.ofWord "2") (.text "1 + auto") = .ok none ∧
      ((binary (term (.word "2")) .times
        (term (.group [.word "1", .operator .plus, .word "auto"]))).map Token.computed).value =
        .ok (.text "2 * 1 + auto") ∧
      ¬ ∃ left' right',
        expression (ofText "2 * 1 + auto") = .single (.binary left' .times right') := by
  have hauto : IsWord "auto" := .of_all (by decide) (by decide)
  have htwo : IsWord "2" := .of_all (by decide) (by decide)
  have hone : IsWord "1" := .of_all (by decide) (by decide)
  have hadded : (binary (term (Token.word "1")) .plus (term (.word "auto"))).Grouped :=
    ⟨trivial, trivial, rfl, nofun⟩
  have hl : ((term (.word "2")).map Token.computed).operand = .ok (.ofWord "2") := rfl
  have hr :
      ((term (.group [.word "1", .operator .plus, .word "auto"])).map Token.computed).operand =
        .ok (.text "1 + auto") :=
    (Token.operand_group rfl hadded).trans rfl
  have hoperate : Operator.times.operate (.ofWord "2") (.text "1 + auto") = .ok none :=
    Operator.operate_of_right rfl rfl
  refine ⟨hl, hr, hoperate, operand_of_binary hl hr hoperate, ?_⟩
  rintro ⟨left', right', hback⟩
  have htimes : (Token.operator .times).IsJoint := trivial
  have hplus : (Token.operator .plus).IsJoint := trivial
  have hspells := (Spells.word htwo).join htimes ((Spells.word hone).join hplus (.word hauto))
  rw [show ofText "2 * 1 + auto" = _ from hspells.reads.ofText_eq] at hback
  have hgrouped : (binary (binary (term (Token.word "2")) .times (term (.word "1"))) .plus
      (term (.word "auto"))).Grouped :=
    ⟨⟨trivial, trivial, rfl, fun _ => ⟨rfl, rfl⟩⟩, trivial, rfl, nofun⟩
  have hsum := (Expression.ofPieces_eq_single_iff hspells.alternates).mpr ⟨rfl, hgrouped⟩
  cases hback.symm.trans hsum

end Cascade
