import Cascade.Proofs.Regrouping

/-!
# The grammar of expressions

Every run of tokens has a tree, also if operators stand next to each other or to
separators. Operators are grouped by their strength and to the left, an operand is missing
only where no term stands on that side of the operator, and a list goes on with a new
expression only where the one before has all its operands (`Expression.IsTree`).

No other tree has the same tokens in the same order (`Expression.eq_ofPieces_iff`): a tree
of the grammar is read back from its own pieces item by item, so the tree of a run is
found as soon as there is one. That what is read is such a tree is shown along the reading:
whatever has been read of a sum and of its last product goes on in the same pieces
(`Expression.Grows`).

There is one exception. A separator alone separates nothing, so nothing is left of a comma
alone.
-/

namespace Cascade

variable {α : Type}

/-! ## The trees of the grammar -/

namespace Piece

/-- The pieces end with a term. -/
def EndTerm (pieces : List (Piece α)) : Prop := ∃ before a, pieces = before ++ [.term a]

/-- There are no pieces, or the last of them is a separator. -/
def Parted (pieces : List (Piece α)) : Prop := ∀ piece ∈ pieces.getLast?, ∃ s, piece = .separator s

theorem Parted.not_endTerm {pieces : List (Piece α)} (h : Parted pieces) : ¬ EndTerm pieces := by
  rintro ⟨before, a, rfl⟩
  obtain ⟨s, heq⟩ := h (.term a) (by simp)
  cases heq

theorem parted_concat (before : List (Piece α)) (s : Separator) :
    Parted (before ++ [.separator s]) := by
  intro piece hpiece
  exact ⟨s, by simpa using hpiece.symm⟩

end Piece

open Piece

/-- An operand is missing only where no term stands on its side of the operator. The pieces
are those before and after the tree. -/
def Arithmetic.Fills (before after : List (Piece α)) : Arithmetic α → Prop
  | missing | term _ => True
  | binary left o right =>
    (left = missing → ¬ EndTerm before) ∧ (right = missing → ¬ BeginTerm after) ∧
      left.Fills before (.operator o :: (right.pieces ++ after)) ∧
      right.Fills (before ++ left.pieces ++ [.operator o]) after

namespace Item

def pieces : Item α → List (Piece α)
  | separator s => [.separator s]
  | expression e => e.pieces

/-- The items can follow the pieces `before`. An expression without its first operand begins
the list or comes after a separator. -/
def Fit (before : List (Piece α)) : List (Item α) → Prop
  | [] => True
  | separator s :: rest => Fit (before ++ [.separator s]) rest
  | expression e :: rest =>
    e ≠ .missing ∧ e.Layered ∧ e.Fills before (rest.flatMap pieces) ∧
      (e.first = .missing → Parted before) ∧ Fit (before ++ e.pieces) rest

end Item

namespace Expression

def pieces : Expression α → List (Piece α)
  | single e => e.pieces
  | list items => items.flatMap Item.pieces

/-- The trees of the grammar. -/
inductive IsTree : Expression α → Prop
  | empty : IsTree (.single .missing)
  | single {e : Arithmetic α} : Item.Fit [] [.expression e] → IsTree (.single e)
  /-- A list is not empty and no single expression. -/
  | list {items : List (Item α)} :
      items ≠ [] → (∀ e, items ≠ [.expression e]) → Item.Fit [] items → IsTree (.list items)

end Expression

/-! ## Missing operands -/

namespace Arithmetic

/-- Inside a tree operators stand next to a missing operand, so only its ends matter. -/
theorem fills_iff {e : Arithmetic α} (h : e.isOperation = true) {before after : List (Piece α)} :
    e.Fills before after ↔
      (e.first = missing → ¬ EndTerm before) ∧ (e.last = missing → ¬ BeginTerm after) := by
  have hends (before : List (Piece α)) (o : Operator) : ¬ EndTerm (before ++ [.operator o]) := by
    rintro ⟨_, _, heq⟩
    simpa using (List.append_inj' heq rfl).2
  induction e generalizing before after with
  | missing | term a => cases h
  | binary left o right ihl ihr =>
      have hleft : (left = missing → ¬ EndTerm before) ∧
          left.Fills before (.operator o :: (right.pieces ++ after)) ↔
            (left.first = missing → ¬ EndTerm before) := by
        cases left with
        | missing | term a => simp [Fills, first]
        | binary => simp [ihl rfl, not_beginTerm_operator]
      have hright : (right = missing → ¬ BeginTerm after) ∧
          right.Fills (before ++ left.pieces ++ [.operator o]) after ↔
            (right.last = missing → ¬ BeginTerm after) := by
        cases right with
        | missing | term a => simp [Fills, last]
        | binary =>
            simp only [ihr rfl, hends, reduceCtorEq, not_false_eq_true, implies_true, true_and,
              false_imp_iff]
      rw [Fills, first, last, ← hleft, ← hright, and_assoc]
      exact and_congr_right fun _ => and_left_comm

theorem fills {e : Arithmetic α} {before after : List (Piece α)}
    (hfirst : e.first = missing → ¬ EndTerm before) (hlast : e.last = missing → ¬ BeginTerm after) :
    e.Fills before after := by
  cases e with
  | missing | term a => trivial
  | binary => exact (fills_iff rfl).mpr ⟨hfirst, hlast⟩

theorem Fills.last {e : Arithmetic α} {before after : List (Piece α)} (h : e.Fills before after)
    (hne : e ≠ missing) (hlast : e.last = missing) : ¬ BeginTerm after := by
  cases e with
  | missing => exact (hne rfl).elim
  | term a => cases hlast
  | binary => exact ((fills_iff rfl).mp h).2 hlast

theorem pieces_ne_nil {e : Arithmetic α} (h : e ≠ missing) : e.pieces ≠ [] := by
  cases e with
  | missing => exact (h rfl).elim
  | term a => exact List.cons_ne_nil _ _
  | binary => exact List.append_ne_nil_of_right_ne_nil _ (List.cons_ne_nil _ _)

theorem not_separator_mem_pieces (e : Arithmetic α) (s : Separator) : .separator s ∉ e.pieces := by
  induction e with
  | missing | term a => simp [pieces]
  | binary left o right ihl ihr => simp [pieces, ihl, ihr]

/-- After an expression an operand is wanted. -/
theorem not_parted {e : Arithmetic α} (h : e ≠ missing) (before : List (Piece α)) :
    ¬ Parted (before ++ e.pieces) := by
  intro hparted
  have hne := pieces_ne_nil h
  obtain ⟨s, heq⟩ := hparted (e.pieces.getLast hne) (by
    rw [List.getLast?_append_of_ne_nil _ hne, List.getLast?_eq_getLast_of_ne_nil hne]
    rfl)
  exact e.not_separator_mem_pieces s (heq ▸ List.getLast_mem hne)

theorem begin_of_first {e : Arithmetic α} (h : e.first ≠ missing) (rest : List (Piece α)) :
    ¬ BeginOperator (e.pieces ++ rest) := by
  have hfirst := e.isOperation_first
  rintro ⟨o, others, heq⟩
  rw [e.pieces_eq] at heq
  cases hcase : e.first with
  | missing => exact h hcase
  | term a => rw [hcase] at heq; cases heq
  | binary => rw [hcase] at hfirst; cases hfirst

end Arithmetic

/-! ## A tree is read from its pieces -/

namespace Expression

theorem items_flatMap {its : List (Item α)} :
    ∀ {before : List (Piece α)}, Item.Fit before its → items (its.flatMap Item.pieces) = its := by
  induction its with
  | nil => exact fun _ => by rw [List.flatMap_nil, items]
  | cons item rest ih =>
      intro before h
      cases item with
      | separator s =>
          rw [List.flatMap_cons, Item.pieces, List.cons_append, List.nil_append, items, ih h]
      | expression e =>
          obtain ⟨hne, hlayered, hfills, -, hrest⟩ := h
          have hoperator : ¬ BeginOperator (rest.flatMap Item.pieces) := by
            rcases rest with _ | ⟨s | e', others⟩
            · rintro ⟨_, _, heq⟩
              cases heq
            · rintro ⟨_, _, heq⟩
              cases heq
            · have hbegins : e'.first ≠ .missing := fun heq =>
                Arithmetic.not_parted hne before (hrest.2.2.2.1 heq)
              exact Arithmetic.begin_of_first hbegins _
          rw [List.flatMap_cons, Item.pieces,
            items_layered hlayered hne hoperator (hfills.last hne), ih hrest]

/-! ## What is read is a tree -/

/-- What a sum and its last product may be in the middle of a run. -/
structure Growing (sum : Option (Arithmetic α × Operator)) (product : Arithmetic α) : Prop where
  sums : ∀ left o, sum = some (left, o) → left.Layered ∧ o.isTight = false
  layered : product.Layered
  isProduct : product.isSum = false

/-- A tree that goes on from what has begun, and the rest of the pieces. -/
structure Grows (begun : Arithmetic α) (pieces : List (Piece α))
    (read : Arithmetic α × List (Piece α)) : Prop where
  layered : read.1.Layered
  first_eq : read.1.first = begun.first
  pieces_eq : read.1.pieces ++ read.2 = begun.pieces ++ pieces
  stops : ¬ BeginOperator read.2
  last : read.1.last = .missing → ¬ BeginTerm read.2

variable {sum : Option (Arithmetic α × Operator)} {product : Arithmetic α}

theorem Growing.operand {operand : Arithmetic α} (h : operand.isOperation = false) :
    Growing none operand where
  sums := nofun
  layered := by
    cases operand with
    | missing | term => trivial
    | binary => cases h
  isProduct := by
    cases operand with
    | missing | term => rfl
    | binary => cases h

theorem Growing.close (h : Growing sum product) : (Arithmetic.close sum product).Layered := by
  match sum, h with
  | none, h => exact h.layered
  | some (left, o), h =>
    obtain ⟨hleft, ho⟩ := h.sums left o rfl
    exact ⟨hleft, h.layered, h.isProduct, fun htight => by rw [ho] at htight; cases htight⟩

theorem Growing.tight (h : Growing sum product) {o : Operator} (ho : o.isTight = true)
    {operand : Arithmetic α} (hoperand : operand.isOperation = false) :
    Growing sum (.binary product o operand) where
  sums := h.sums
  layered := by
    have hgrowing := Growing.operand hoperand
    exact ⟨h.layered, hgrowing.layered, hgrowing.isProduct, fun _ => ⟨h.isProduct, hoperand⟩⟩
  isProduct := by simp [Arithmetic.isSum, ho]

theorem Growing.loose (h : Growing sum product) {o : Operator} (ho : o.isTight = false)
    {operand : Arithmetic α} (hoperand : operand.isOperation = false) :
    Growing (some (.close sum product, o)) operand where
  sums := by
    rintro _ _ ⟨⟩
    exact ⟨h.close, ho⟩
  layered := (Growing.operand hoperand).layered
  isProduct := (Growing.operand hoperand).isProduct

/-- An operator comes with the operand after it. -/
theorem exists_operand {pieces : List (Piece α)} (h : BeginOperator pieces) :
    ∃ (o : Operator) (operand : Arithmetic α) (rest : List (Piece α)),
      pieces = .operator o :: (operand.pieces ++ rest) ∧ operand.isOperation = false ∧
        (operand = .missing → ¬ BeginTerm rest) := by
  obtain ⟨o, rest, rfl⟩ := h
  by_cases hterm : BeginTerm rest
  · obtain ⟨a, after, rfl⟩ := hterm
    exact ⟨o, .term a, after, rfl, rfl, nofun⟩
  · exact ⟨o, .missing, rest, rfl, rfl, fun _ => hterm⟩

theorem Grows.of_eq {begun begun' : Arithmetic α} {pieces pieces' : List (Piece α)}
    {read : Arithmetic α × List (Piece α)} (h : Grows begun' pieces' read)
    (hfirst : begun'.first = begun.first)
    (hpieces : begun'.pieces ++ pieces' = begun.pieces ++ pieces) : Grows begun pieces read where
  layered := h.layered
  first_eq := h.first_eq.trans hfirst
  pieces_eq := h.pieces_eq.trans hpieces
  stops := h.stops
  last := h.last

theorem grow_grows {pieces : List (Piece α)} {sum : Option (Arithmetic α × Operator)}
    {product : Arithmetic α} (h : Growing sum product)
    (hlast : product.last = .missing → ¬ BeginTerm pieces) :
    Grows (.close sum product) pieces (grow sum product pieces) := by
  have hclose (e : Arithmetic α) : (Arithmetic.close sum e).last = e.last := by
    cases sum <;> rfl
  by_cases hbegin : BeginOperator pieces
  · obtain ⟨o, operand, rest, rfl, hoperand, hterm⟩ := exists_operand hbegin
    have hrest : operand.last = .missing → ¬ BeginTerm rest := by
      cases operand with
      | missing => exact hterm
      | term => exact nofun
      | binary => cases hoperand
    rw [grow_operand hoperand hterm]
    cases ho : o.isTight with
    | true =>
        refine (grow_grows (h.tight ho hoperand) hrest).of_eq ?_ ?_
        · cases sum <;> rfl
        · cases sum <;> simp [Arithmetic.close, Arithmetic.pieces]
    | false =>
        refine (grow_grows (h.loose ho hoperand) hrest).of_eq rfl ?_
        simp [Arithmetic.close, Arithmetic.pieces]
  · rw [grow_end hbegin]
    exact ⟨h.close, rfl, rfl, hbegin, fun heq => hlast ((hclose product).symm.trans heq)⟩
termination_by pieces.length
decreasing_by
  all_goals
    subst_vars
    simp only [List.length_cons, List.length_append]
    omega

theorem grow_term (a : α) (rest : List (Piece α)) :
    Grows (.term a) rest (grow none (.term a) rest) :=
  grow_grows (Growing.operand rfl) nofun

theorem grow_missing (o : Operator) (rest : List (Piece α)) :
    Grows .missing (.operator o :: rest) (grow none .missing (.operator o :: rest)) :=
  grow_grows (Growing.operand rfl) fun _ => not_beginTerm_operator o rest

theorem Grows.ne_missing {pieces : List (Piece α)} {e : Arithmetic α} {rest : List (Piece α)}
    (h : Grows .missing pieces (e, rest)) (hpieces : BeginOperator pieces) : e ≠ .missing := by
  rintro rfl
  have heq : rest = pieces := h.pieces_eq
  exact h.stops (heq ▸ hpieces)

/-- The pieces of a run are those of its items. -/
theorem flatMap_items (pieces : List (Piece α)) : (items pieces).flatMap Item.pieces = pieces := by
  fun_induction items pieces with
  | case1 => rfl
  | case2 s rest ih => rw [List.flatMap_cons, ih]; rfl
  | case3 a rest ih =>
      rw [List.flatMap_cons, ih]
      exact (grow_term a rest).pieces_eq
  | case4 o rest ih =>
      rw [List.flatMap_cons, ih]
      exact (grow_missing o rest).pieces_eq

/-- An expression that has been read fits where it stands, if what comes after it does. -/
theorem Grows.fit {begun e : Arithmetic α} {pieces rest before : List (Piece α)}
    (h : Grows begun pieces (e, rest)) (hne : e ≠ .missing)
    (hfirst : begun.first = .missing → Parted before)
    (hrest : ∀ before, Item.Fit before (items rest)) :
    Item.Fit before (.expression e :: items rest) := by
  have hparted : e.first = .missing → Parted before := fun heq => hfirst (h.first_eq.symm.trans heq)
  refine ⟨hne, h.layered, ?_, hparted, hrest _⟩
  rw [flatMap_items]
  exact Arithmetic.fills (fun heq => (hparted heq).not_endTerm) h.last

theorem items_fit {pieces : List (Piece α)} : ∀ {before : List (Piece α)},
    (BeginOperator pieces → Parted before) → Item.Fit before (items pieces) := by
  fun_induction items pieces with
  | case1 => exact fun _ => trivial
  | case2 s rest ih => exact fun _ => ih fun _ => parted_concat _ s
  | case3 a rest ih =>
      intro before _
      have hgrows := grow_term a rest
      have hne : (grow none (.term a) rest).1 ≠ .missing := by
        intro heq
        have hfirst := hgrows.first_eq
        rw [heq] at hfirst
        cases hfirst
      have hfirst : (Arithmetic.term a).first = .missing → Parted before := by
        intro heq
        cases heq
      exact hgrows.fit hne hfirst fun _ => ih fun hbegin => (hgrows.stops hbegin).elim
  | case4 o rest ih =>
      intro before hparted
      have hgrows := grow_missing o rest
      have hbegin : BeginOperator (.operator o :: rest) := ⟨o, rest, rfl⟩
      exact hgrows.fit (hgrows.ne_missing hbegin) (fun _ => hparted hbegin) fun _ =>
        ih fun hbegin => (hgrows.stops hbegin).elim

/-! ## The tree of a run -/

variable {run : List (Piece α)}

theorem ofPieces_isTree (run : List (Piece α)) : (ofPieces run).IsTree := by
  have hfit : Item.Fit [] (items (trimSpaces run)) := items_fit fun _ => nofun
  unfold ofPieces
  split
  · exact .empty
  · exact .empty
  · rename_i heq
    exact .single (heq ▸ hfit)
  · rename_i hnil _ hsingle
    exact .list hnil hsingle hfit

/-- A separator alone separates nothing. -/
theorem ofPieces_separator {s : Separator} (h : trimSpaces run = [.separator s]) :
    ofPieces run = .single .missing := by
  rw [ofPieces, h, items, items]

/-- The tree of a run is the only one with its pieces, unless they are a separator alone. -/
theorem eq_ofPieces_iff (h : ∀ s, trimSpaces run ≠ [.separator s]) {e : Expression α} :
    e = ofPieces run ↔ e.IsTree ∧ e.pieces = trimSpaces run := by
  constructor
  · rintro rfl
    refine ⟨ofPieces_isTree run, ?_⟩
    have hflat := flatMap_items (trimSpaces run)
    unfold ofPieces
    split
    · rename_i heq
      rw [heq] at hflat
      exact hflat
    · rename_i s heq
      rw [heq] at hflat
      exact (h s hflat.symm).elim
    · rename_i heq
      rw [heq] at hflat
      simpa [Item.pieces, pieces] using hflat
    · exact hflat
  · rintro ⟨htree, hpieces⟩
    rw [ofPieces, ← hpieces]
    cases htree with
    | empty => rw [pieces, Arithmetic.pieces, items]
    | single hfit =>
        have hitems := items_flatMap hfit
        rw [List.flatMap_singleton, Item.pieces] at hitems
        rw [pieces, hitems]
    | list hnil hsingle hfit =>
        rw [pieces, items_flatMap hfit]
        split
        · exact (hnil rfl).elim
        · exact (h _ hpieces.symm).elim
        · exact (hsingle _ rfl).elim
        · rfl

end Expression

/-! ## Tokens -/

def Item.text : Item Token → Text
  | separator s => s.text
  | expression e => e.text

/-- An expression as it is written: operators with a space on both sides, and nothing where
an operand is missing. -/
def Expression.text : Expression Token → Text
  | single e => e.text
  | list items => items.flatMap Item.text

theorem Expression.text_eq (e : Expression Token) : e.text = e.pieces.flatMap Piece.text := by
  have hitem (item : Item Token) : item.pieces.flatMap Piece.text = item.text := by
    cases item with
    | separator s => exact List.append_nil _
    | expression e => rfl
  cases e with
  | single e => rfl
  | list items => simp only [text, pieces, List.flatMap_assoc, hitem]

namespace Token

def isSpace : Token → Bool
  | space => true
  | _ => false

/-- Tokens without the white space at both ends. -/
def unpadded (tokens : List Token) : List Token :=
  ((tokens.dropWhile isSpace).reverse.dropWhile isSpace).reverse

theorem map_piece_unpadded (tokens : List Token) :
    (unpadded tokens).map piece = Expression.trimSpaces (tokens.map piece) := by
  have hisSpace {isSpace' : Piece Token → Bool}
      (h : ∀ token : Token, isSpace' token.piece = token.isSpace) (tokens : List Token) :
      (tokens.map piece).dropWhile isSpace' = (tokens.dropWhile isSpace).map piece := by
    rw [List.dropWhile_map]
    exact congrArg (List.map _) (congrArg (List.dropWhile · tokens) (funext h))
  simp only [Expression.trimSpaces, unpadded]
  rw [hisSpace, ← List.map_reverse, hisSpace, List.map_reverse]
  all_goals
    intro token
    cases token <;> rfl

theorem unpadded_ne_space (tokens : List Token) : unpadded tokens ≠ [space] := by
  intro h
  have hreverse := congrArg List.reverse h
  rw [unpadded, List.reverse_reverse] at hreverse
  have hhead := List.head?_dropWhile_not isSpace (tokens.dropWhile isSpace).reverse
  rw [hreverse] at hhead
  cases hhead

theorem trimSpaces_eq_separator_iff {tokens : List Token} :
    (∃ s, Expression.trimSpaces (tokens.map piece) = [.separator s]) ↔
      ∃ spaced, unpadded tokens = [.comma spaced] := by
  rw [← map_piece_unpadded]
  constructor
  · rintro ⟨s, h⟩
    obtain ⟨token, htoken, hpiece⟩ := List.map_eq_singleton_iff.mp h
    cases token with
    | space => exact (unpadded_ne_space tokens htoken).elim
    | comma spaced => exact ⟨spaced, htoken⟩
    | operator | word | reference | call | group => cases hpiece
  · rintro ⟨spaced, h⟩
    exact ⟨.comma spaced, by rw [h]; rfl⟩

/-- Every run of tokens has a tree of the grammar. It is written as the tokens are without the
white space at both ends, and no other tree has these tokens in their order, unless they are
a comma alone, of which nothing is left. -/
theorem expression_isTree (tokens : List Token) :
    (expression tokens).IsTree ∧
      ((expression tokens).text = textOf (unpadded tokens) ↔
        ∀ spaced, unpadded tokens ≠ [.comma spaced]) ∧
      ((∀ spaced, unpadded tokens ≠ [.comma spaced]) → ∀ e : Expression Token,
        e = expression tokens ↔ e.IsTree ∧ e.pieces = (unpadded tokens).map piece) := by
  have hcomma : (∀ spaced, unpadded tokens ≠ [.comma spaced]) →
      ∀ s, Expression.trimSpaces (tokens.map piece) ≠ [.separator s] := fun h s heq => by
    obtain ⟨spaced, hspaced⟩ := trimSpaces_eq_separator_iff.mp ⟨s, heq⟩
    exact h spaced hspaced
  refine ⟨Expression.ofPieces_isTree _, ⟨fun htext spaced hspaced => ?_, fun h => ?_⟩,
    fun h e => ?_⟩
  · obtain ⟨s, hs⟩ := trimSpaces_eq_separator_iff.mpr ⟨spaced, hspaced⟩
    rw [expression, Expression.ofPieces_separator hs, hspaced] at htext
    cases spaced <;> cases htext
  · obtain ⟨-, hpieces⟩ := (Expression.eq_ofPieces_iff (hcomma h)).mp rfl
    rw [Expression.text_eq, expression, hpieces, textOf_eq, map_piece_unpadded]
  · rw [expression, Expression.eq_ofPieces_iff (hcomma h), map_piece_unpadded]

/-- Operators next to each other, next to a comma and at the end. -/
theorem expression_isTree_operators :
    let tokens : List Token := [.space, .word "a".toList, .operator .plus, .operator .times,
      .word "b".toList, .comma true, .operator .minus, .space]
    (∀ spaced, unpadded tokens ≠ [.comma spaced]) ∧
      (expression tokens).text = "a +  * b,  - ".toList ∧
      expression tokens = .list
        [.expression (.binary (.term (.word "a".toList)) .plus
            (.binary .missing .times (.term (.word "b".toList)))),
          .separator (.comma true),
          .expression (.binary .missing .minus .missing)] := by
  intro tokens
  obtain ⟨-, htext, htree⟩ := expression_isTree tokens
  have hcomma : ∀ spaced, unpadded tokens ≠ [.comma spaced] := fun _ h => nomatch h
  refine ⟨hcomma, htext.mpr hcomma, Eq.symm ((htree hcomma _).mpr ⟨.list ?_ ?_ ?_, rfl⟩)⟩
  · exact List.cons_ne_nil _ _
  · exact fun _ => nofun
  have hproduct : Arithmetic.Layered (.binary (.term (word "a".toList)) .plus
      (.binary .missing .times (.term (.word "b".toList)))) :=
    ⟨trivial, ⟨trivial, trivial, rfl, fun _ => ⟨rfl, rfl⟩⟩, rfl, nofun⟩
  have hsum : Arithmetic.Layered (.binary (.missing : Arithmetic Token) .minus .missing) :=
    ⟨trivial, trivial, rfl, nofun⟩
  refine ⟨nofun, hproduct, ?_, nofun, nofun, hsum, ?_, ?_, trivial⟩
  · exact Arithmetic.fills nofun nofun
  · exact Arithmetic.fills (fun _ => (parted_concat _ _).not_endTerm) fun _ => nofun
  · exact fun _ => parted_concat _ _

theorem not_text_expression_comma :
    ¬ ∀ tokens : List Token, (expression tokens).text = textOf (unpadded tokens) := by
  intro h
  have hcomma := h [.comma false]
  rw [expression, Expression.ofPieces_separator (s := .comma false) rfl] at hcomma
  cases hcomma

end Token

end Cascade
