import Cascade.Proofs.Trees

/-!
# Runs that alternate

A run in which separators and operators stand between terms is a line of expressions, each
grouped by the strength of its operators (`Expression.exists_line`). It is a single
expression exactly if it is what a grouped tree is made of
(`Expression.ofPieces_eq_single_iff`).
-/

namespace Cascade

variable {α : Type} {p : α → Prop}

/-! ## Complete trees -/

namespace Arithmetic

/-- No operand is missing, and every term has the property. -/
def All (p : α → Prop) : Arithmetic α → Prop
  | missing => False
  | term a => p a
  | binary left _ right => left.All p ∧ right.All p

theorem All.map {β : Type} {f : α → β} {q : β → Prop} (hf : ∀ a, p a → q (f a)) :
    ∀ {e : Arithmetic α}, e.All p → (e.map f).All q
  | .missing, h => h.elim
  | .term a, h => hf a h
  | .binary _ _ _, h => ⟨h.1.map hf, h.2.map hf⟩

/-- A tree with one more operand in front, which joins the first operation it can join. -/
def cons (a : α) (o : Operator) : Arithmetic α → Arithmetic α
  | missing => binary (term a) o missing
  | term b => binary (term a) o (term b)
  | binary left o' right =>
    if o.isTight || !o'.isTight then binary (cons a o left) o' right
    else binary (term a) o (binary left o' right)

variable (a : α) (o : Operator)

theorem pieces_cons (e : Arithmetic α) :
    (cons a o e).pieces = .term a :: .operator o :: e.pieces := by
  induction e with
  | missing => rfl
  | term b => rfl
  | binary left o' right ihl ihr =>
      rw [cons]
      split
      · rw [pieces, ihl]
        rfl
      · rfl

theorem isSum_cons {o : Operator} (h : o.isTight = true) (e : Arithmetic α) :
    (cons a o e).isSum = e.isSum := by
  cases e with
  | missing => simp [cons, isSum, h]
  | term b => simp [cons, isSum, h]
  | binary left o' right => simp [cons, isSum, h]

theorem Grouped.cons {e : Arithmetic α} (h : e.Grouped) : (cons a o e).Grouped := by
  induction e with
  | missing => exact h.elim
  | term b => exact ⟨trivial, trivial, rfl, fun _ => ⟨rfl, rfl⟩⟩
  | binary left o' right ihl ihr =>
      obtain ⟨hleft, hright, hsum, htight⟩ := h
      rw [Arithmetic.cons]
      split
      · rename_i hjoins
        refine ⟨ihl hleft, hright, hsum, fun ho' => ?_⟩
        have ho : o.isTight = true := by simpa [ho'] using hjoins
        exact ⟨(isSum_cons a ho left).trans (htight ho').1, (htight ho').2⟩
      · rename_i hjoins
        obtain ⟨ho, ho'⟩ : o.isTight = false ∧ o'.isTight = true := by simpa using hjoins
        refine ⟨trivial, ⟨hleft, hright, hsum, htight⟩, by simp [isSum, ho'], fun h => ?_⟩
        rw [ho] at h
        cases h

theorem All.cons {a : α} (ha : p a) {e : Arithmetic α} (h : e.All p) : (cons a o e).All p := by
  induction e with
  | missing => exact h.elim
  | term b => exact ⟨ha, h⟩
  | binary left o' right ihl ihr =>
      rw [Arithmetic.cons]
      split
      · exact ⟨ihl h.1, h.2⟩
      · exact ⟨ha, h⟩

end Arithmetic

/-! ## Runs -/

/-- Terms with the property, and separators and operators between them. -/
inductive Alternates (p : α → Prop) : List (Piece α) → Prop
  | one {a : α} : p a → Alternates p [.term a]
  | separator {a : α} {s : Separator} {rest : List (Piece α)} :
      p a → Alternates p rest → Alternates p (.term a :: .separator s :: rest)
  | operator {a : α} {o : Operator} {rest : List (Piece α)} :
      p a → Alternates p rest → Alternates p (.term a :: .operator o :: rest)

namespace Expression

/-- A line of grouped expressions without missing operands. -/
structure IsLine (p : α → Prop) (first : Arithmetic α) (rest : List (Separator × Arithmetic α)) :
    Prop where
  grouped : first.Grouped
  grouped_rest : ∀ next ∈ rest, next.2.Grouped
  all : first.All p
  all_rest : ∀ next ∈ rest, next.2.All p

theorem exists_line {pieces : List (Piece α)} (h : Alternates p pieces) :
    ∃ first rest, pieces = line first rest ∧ IsLine p first rest := by
  induction h with
  | one ha => exact ⟨.term _, [], rfl, trivial, nofun, ha, nofun⟩
  | @separator a s _ ha _ ih =>
      obtain ⟨first, rest, rfl, hline⟩ := ih
      exact ⟨.term a, (s, first) :: rest, rfl, trivial,
        List.forall_mem_cons.mpr ⟨hline.grouped, hline.grouped_rest⟩, ha,
        List.forall_mem_cons.mpr ⟨hline.all, hline.all_rest⟩⟩
  | @operator a o _ ha _ ih =>
      obtain ⟨first, rest, rfl, hline⟩ := ih
      refine ⟨first.cons a o, rest, ?_, hline.grouped.cons a o, hline.grouped_rest,
        hline.all.cons o ha, hline.all_rest⟩
      cases rest with
      | nil => exact (first.pieces_cons a o).symm
      | cons next rest => rw [line, line, first.pieces_cons a o]; rfl

/-- The run is one expression exactly if it is the pieces of a grouped tree. -/
theorem ofPieces_eq_single_iff {pieces : List (Piece α)} (h : Alternates p pieces)
    {e : Arithmetic α} : ofPieces pieces = .single e ↔ pieces = e.pieces ∧ e.Grouped := by
  constructor
  · intro hsingle
    obtain ⟨first, rest, rfl, hline⟩ := exists_line h
    rw [ofPieces_eq (trimSpaces_line hline.grouped hline.grouped_rest) hline.grouped
      hline.grouped_rest] at hsingle
    cases rest with
    | nil =>
        cases hsingle
        exact ⟨rfl, hline.grouped⟩
    | cons next rest => cases hsingle
  · rintro ⟨rfl, hgrouped⟩
    have hnone : ∀ next ∈ ([] : List (Separator × Arithmetic α)), next.2.Grouped := nofun
    have htrim : trimSpaces e.pieces = line e [] := trimSpaces_line hgrouped hnone
    exact ofPieces_eq htrim hgrouped hnone

end Expression

namespace Alternates

variable {pieces pieces' : List (Piece α)}

theorem append_separator (s : Separator) (h : Alternates p pieces) (h' : Alternates p pieces') :
    Alternates p (pieces ++ .separator s :: pieces') := by
  induction h with
  | one ha => exact .separator ha h'
  | separator ha _ ih => exact .separator ha ih
  | operator ha _ ih => exact .operator ha ih

theorem append_operator (o : Operator) (h : Alternates p pieces) (h' : Alternates p pieces') :
    Alternates p (pieces ++ .operator o :: pieces') := by
  induction h with
  | one ha => exact .operator ha h'
  | separator ha _ ih => exact .separator ha ih
  | operator ha _ ih => exact .operator ha ih

/-- A run that is cut at separators alternates between the cuts. -/
theorem splitOnP {q : Piece α → Bool} (hq : ∀ piece, q piece = true → ∃ s, piece = .separator s)
    (h : Alternates p pieces) : ∀ part ∈ pieces.splitOnP q, Alternates p part := by
  have hterm (a : α) : ¬ q (.term a) = true := fun ha => by
    obtain ⟨s, hs⟩ := hq _ ha
    cases hs
  have hoperator (o : Operator) : ¬ q (.operator o) = true := fun ho => by
    obtain ⟨s, hs⟩ := hq _ ho
    cases hs
  -- A term and a joint that is no cut come before the first part of the rest.
  have hfirst {piece piece' : Piece α} {rest : List (Piece α)} (hpiece : ¬ q piece = true)
      (hpiece' : ¬ q piece' = true) (ih : ∀ part ∈ rest.splitOnP q, Alternates p part)
      (hgrow : ∀ part, Alternates p part → Alternates p (piece :: piece' :: part)) :
      ∀ part ∈ (piece :: piece' :: rest).splitOnP q, Alternates p part := by
    obtain ⟨first, others, hsplit⟩ := List.exists_cons_of_ne_nil (List.splitOnP_ne_nil q rest)
    rw [List.splitOnP_cons_eq_if_modifyHead, if_neg hpiece, List.splitOnP_cons_eq_if_modifyHead,
      if_neg hpiece', hsplit]
    rw [hsplit] at ih
    obtain ⟨hhead, hothers⟩ := List.forall_mem_cons.mp ih
    exact List.forall_mem_cons.mpr ⟨hgrow first hhead, hothers⟩
  induction h with
  | @one a ha =>
      rw [List.splitOnP_cons_eq_if_modifyHead, if_neg (hterm a), List.splitOnP_nil]
      simpa using Alternates.one ha
  | @separator a s rest ha _ ih =>
      by_cases hs : q (.separator s) = true
      · rw [List.splitOnP_cons_eq_if_modifyHead, if_neg (hterm a),
          List.splitOnP_cons_eq_if_modifyHead, if_pos hs]
        exact List.forall_mem_cons.mpr ⟨.one ha, ih⟩
      · exact hfirst (hterm a) hs ih fun part hpart => .separator ha hpart
  | @operator a o rest ha _ ih =>
      exact hfirst (hterm a) (hoperator o) ih fun part hpart => .operator ha hpart

end Alternates

/-- A run that alternates, with white space in front of it or not. -/
inductive Runs (p : α → Prop) : List (Piece α) → Prop
  | run {pieces : List (Piece α)} : Alternates p pieces → Runs p pieces
  | space {pieces : List (Piece α)} : Alternates p pieces → Runs p (.separator .space :: pieces)

theorem Runs.splitOnP {q : Piece α → Bool} (hspace : ¬ q (.separator .space) = true)
    (hq : ∀ piece, q piece = true → ∃ s, piece = .separator s) {pieces : List (Piece α)}
    (h : Runs p pieces) : ∀ part ∈ pieces.splitOnP q, Runs p part := by
  cases h with
  | run h => exact fun part hpart => .run (h.splitOnP hq part hpart)
  | @space pieces h =>
      obtain ⟨first, others, hsplit⟩ := List.exists_cons_of_ne_nil (List.splitOnP_ne_nil q pieces)
      have hparts := h.splitOnP hq
      rw [hsplit] at hparts
      obtain ⟨hfirst, hothers⟩ := List.forall_mem_cons.mp hparts
      rw [List.splitOnP_cons_eq_if_modifyHead, if_neg hspace, hsplit]
      exact List.forall_mem_cons.mpr ⟨.space hfirst, fun part hpart => .run (hothers part hpart)⟩

/-- White space in front of a run is not part of its expression. -/
theorem Expression.ofPieces_space (pieces : List (Piece α)) :
    ofPieces (.separator .space :: pieces) = ofPieces pieces := rfl

end Cascade
