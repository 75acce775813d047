import Cascade.Value.Expression

/-!
# Trees and their pieces

A tree that groups its operators as the grammar does is the tree of its own pieces
(`Expression.items_pieces`): what the tree of a run is can be said by giving the tree.
-/

namespace Cascade

variable {α : Type}

namespace Arithmetic

/-- The pieces of a tree in the order they are written in. -/
def pieces : Arithmetic α → List (Piece α)
  | missing => []
  | term a => [.term a]
  | binary left o right => left.pieces ++ .operator o :: right.pieces

def isOperation : Arithmetic α → Bool
  | binary _ _ _ => true
  | missing | term _ => false

def isSum : Arithmetic α → Bool
  | binary _ o _ => !o.isTight
  | missing | term _ => false

/-- No operand is missing, and the operators are grouped by their strength and then
to the left. -/
def Grouped : Arithmetic α → Prop
  | missing => False
  | term _ => True
  | binary left o right =>
    left.Grouped ∧ right.Grouped ∧ right.isSum = false ∧
      (o.isTight = true → left.isSum = false ∧ right.isOperation = false)

/-- The operators are grouped by their strength and then to the left, whether or not operands
are missing. -/
def Layered : Arithmetic α → Prop
  | missing | term _ => True
  | binary left o right =>
    left.Layered ∧ right.Layered ∧ right.isSum = false ∧
      (o.isTight = true → left.isSum = false ∧ right.isOperation = false)

theorem Grouped.layered : ∀ {e : Arithmetic α}, e.Grouped → e.Layered
  | .missing, h => h.elim
  | .term _, _ => trivial
  | .binary _ _ _, ⟨hleft, hright, hgroups⟩ => ⟨hleft.layered, hright.layered, hgroups⟩

/-! ### The operands at both ends -/

/-- The operand a tree begins with. -/
def first : Arithmetic α → Arithmetic α
  | binary left _ _ => left.first
  | e => e

/-- The operand a tree ends with. -/
def last : Arithmetic α → Arithmetic α
  | binary _ _ right => right.last
  | e => e

/-- The pieces after the first operand. -/
def others : Arithmetic α → List (Piece α)
  | missing | term _ => []
  | binary left o right => left.others ++ .operator o :: right.pieces

theorem pieces_eq (e : Arithmetic α) : e.pieces = e.first.pieces ++ e.others := by
  induction e with
  | missing | term a => rfl
  | binary left o right ihl ihr => rw [pieces, first, others, ihl, List.append_assoc]

theorem isOperation_first (e : Arithmetic α) : e.first.isOperation = false := by
  induction e with
  | missing | term a => rfl
  | binary left o right ihl ihr => exact ihl

theorem others_begin {e : Arithmetic α} (h : e.isOperation = true) :
    ∃ o rest, e.others = .operator o :: rest := by
  induction e with
  | missing | term a => cases h
  | binary left o right ihl ihr =>
      cases hleft : left.isOperation with
      | true =>
          obtain ⟨p, rest, hothers⟩ := ihl hleft
          exact ⟨p, rest ++ .operator o :: right.pieces, by rw [others, hothers, List.cons_append]⟩
      | false =>
          have hnone : left.others = [] := by cases left <;> first | rfl | cases hleft
          exact ⟨o, right.pieces, by rw [others, hnone, List.nil_append]⟩

theorem Grouped.first_eq {e : Arithmetic α} (h : e.Grouped) : ∃ a, e.first = term a := by
  induction e with
  | missing => exact h.elim
  | term a => exact ⟨a, rfl⟩
  | binary left o right ihl ihr => exact ihl h.1

theorem Grouped.last_eq {e : Arithmetic α} (h : e.Grouped) : ∃ a, e.last = term a := by
  induction e with
  | missing => exact h.elim
  | term a => exact ⟨a, rfl⟩
  | binary left o right ihl ihr => exact ihr h.2.1

end Arithmetic

/-! ## A tree is the tree of its pieces -/

namespace Piece

/-- The pieces begin with a term. -/
def BeginTerm (pieces : List (Piece α)) : Prop := ∃ a rest, pieces = .term a :: rest

/-- The pieces begin with an operator. -/
def BeginOperator (pieces : List (Piece α)) : Prop := ∃ o rest, pieces = .operator o :: rest

theorem not_beginTerm_operator (o : Operator) (rest : List (Piece α)) :
    ¬ BeginTerm (.operator o :: rest) :=
  fun ⟨_, _, h⟩ => nomatch h

end Piece

namespace Expression

open Piece

/-- The tree of what has been read and of the operators that follow, and the rest. -/
def grow (sum : Option (Arithmetic α × Operator)) (product : Arithmetic α)
    (pieces : List (Piece α)) : Arithmetic α × List (Piece α) :=
  (.ofChain sum product (chain pieces).1, (chain pieces).2)

variable {sum : Option (Arithmetic α × Operator)} {product : Arithmetic α}

theorem chain_operand {o : Operator} {operand : Arithmetic α} (h : operand.isOperation = false)
    {rest : List (Piece α)} (hrest : operand = .missing → ¬ BeginTerm rest) :
    chain (.operator o :: (operand.pieces ++ rest)) =
      ((o, operand) :: (chain rest).1, (chain rest).2) := by
  cases operand with
  | binary => cases h
  | term a => rfl
  | missing =>
      have hterm := hrest rfl
      rw [Arithmetic.pieces, List.nil_append]
      conv => lhs; unfold chain
      split
      · rename_i heq
        cases heq
        exact (hterm ⟨_, _, rfl⟩).elim
      · rename_i heq
        cases heq
        rfl
      · rename_i hnone
        exact (hnone _ _ rfl).elim

/-- An operand joins the product in front of it if the operator between them is tight, and
begins the next product of a sum otherwise. -/
theorem grow_operand {o : Operator} {operand : Arithmetic α} (h : operand.isOperation = false)
    {rest : List (Piece α)} (hrest : operand = .missing → ¬ BeginTerm rest) :
    grow sum product (.operator o :: (operand.pieces ++ rest)) =
      if o.isTight then grow sum (.binary product o operand) rest
      else grow (some (.close sum product, o)) operand rest := by
  rw [grow, chain_operand h hrest, Arithmetic.ofChain]
  split <;> rfl

theorem grow_end {pieces : List (Piece α)} (h : ¬ BeginOperator pieces) :
    grow sum product pieces = (.close sum product, pieces) := by
  have hchain : chain pieces = ([], pieces) := by
    unfold chain
    split
    · exact (h ⟨_, _, rfl⟩).elim
    · exact (h ⟨_, _, rfl⟩).elim
    · rfl
  rw [grow, hchain, Arithmetic.ofChain]

/-- A tree that is not missing grows from its first operand. -/
theorem items_begin {e : Arithmetic α} (h : e ≠ .missing) (rest : List (Piece α)) :
    items (e.pieces ++ rest) =
      .expression (grow none e.first (e.others ++ rest)).1 ::
        items (grow none e.first (e.others ++ rest)).2 := by
  rw [e.pieces_eq, List.append_assoc]
  have hfirst := e.isOperation_first
  cases heq : e.first with
  | binary => rw [heq] at hfirst; cases hfirst
  | term a =>
      rw [Arithmetic.pieces, List.cons_append, List.nil_append, items]
      rfl
  | missing =>
      have hoperation : e.isOperation = true := by
        cases e with
        | missing => exact (h rfl).elim
        | term => cases heq
        | binary => rfl
      obtain ⟨o, others, hothers⟩ := Arithmetic.others_begin hoperation
      rw [hothers, Arithmetic.pieces, List.nil_append, List.cons_append, items]
      rfl

/-- A product grows from its first factor, whatever it is added to. -/
theorem grow_product {e : Arithmetic α} (h : e.Layered) (hsum : e.isSum = false)
    {rest : List (Piece α)} (hrest : e.last = .missing → ¬ BeginTerm rest) :
    grow sum e.first (e.others ++ rest) = grow sum e rest := by
  induction e generalizing rest with
  | missing | term a => rfl
  | binary left o right ihl ihr =>
      have ho : o.isTight = true := by simpa [Arithmetic.isSum] using hsum
      obtain ⟨hleft, -, -, htight⟩ := h
      obtain ⟨hleftsum, hoperation⟩ := htight ho
      have hright : right = .missing → ¬ BeginTerm rest := fun heq => hrest (by rw [heq]; rfl)
      rw [Arithmetic.first, Arithmetic.others, List.append_assoc, List.cons_append,
        ihl hleft hleftsum fun _ => not_beginTerm_operator _ _, grow_operand hoperation hright,
        if_pos ho]

/-- A tree grows from its first operand up to the point where its last product may still
grow. -/
theorem grow_layered {e : Arithmetic α} (h : e.Layered) {rest : List (Piece α)}
    (hrest : e.last = .missing → ¬ BeginTerm rest) :
    ∃ sum product, Arithmetic.close sum product = e ∧
      grow none e.first (e.others ++ rest) = grow sum product rest := by
  induction e generalizing rest with
  | missing => exact ⟨none, .missing, rfl, rfl⟩
  | term a => exact ⟨none, .term a, rfl, rfl⟩
  | binary left o right ihl ihr =>
      cases ho : o.isTight with
      | true => exact ⟨none, _, rfl, grow_product h (by simp [Arithmetic.isSum, ho]) hrest⟩
      | false =>
          obtain ⟨hleft, hright, hsum, -⟩ := h
          have hoperator : left.last = .missing →
              ¬ BeginTerm (.operator o :: (right.pieces ++ rest)) :=
            fun _ => not_beginTerm_operator _ _
          obtain ⟨sum, product, hclose, hgrow⟩ := ihl hleft hoperator
          have hothers : right.first = .missing → ¬ BeginTerm (right.others ++ rest) := by
            intro heq
            cases right with
            | missing => exact hrest rfl
            | term => cases heq
            | binary left' p right' =>
                obtain ⟨q, others, hothers⟩ :=
                  Arithmetic.others_begin (e := .binary left' p right') rfl
                rw [hothers]
                exact not_beginTerm_operator _ _
          refine ⟨some (left, o), right, rfl, ?_⟩
          rw [Arithmetic.first, Arithmetic.others, List.append_assoc, List.cons_append, hgrow,
            right.pieces_eq, List.append_assoc, grow_operand right.isOperation_first hothers,
            if_neg (by simp [ho]), hclose]
          exact grow_product hright hsum hrest

/-- A tree with an operand is read from its pieces, if no operator follows it and no term
follows where its last operand is missing. -/
theorem items_layered {e : Arithmetic α} (h : e.Layered) (hne : e ≠ .missing)
    {rest : List (Piece α)} (hrest : ¬ BeginOperator rest)
    (hlast : e.last = .missing → ¬ BeginTerm rest) :
    items (e.pieces ++ rest) = .expression e :: items rest := by
  obtain ⟨sum, product, hclose, hgrow⟩ := grow_layered h hlast
  rw [items_begin hne, hgrow, grow_end hrest, hclose]

theorem items_pieces {e : Arithmetic α} (h : e.Grouped) {rest : List (Piece α)}
    (hrest : ∀ o after, rest ≠ .operator o :: after) :
    items (e.pieces ++ rest) = .expression e :: items rest := by
  obtain ⟨a, hlast⟩ := h.last_eq
  have hne : e ≠ .missing := by
    rintro rfl
    exact h
  refine items_layered h.layered hne (fun ⟨o, after, heq⟩ => hrest o after heq) fun heq => ?_
  rw [hlast] at heq
  cases heq

/-! ## Lists of expressions -/

/-- Expressions with separators between them. -/
def line (first : Arithmetic α) : List (Separator × Arithmetic α) → List (Piece α)
  | [] => first.pieces
  | (s, next) :: rest => first.pieces ++ .separator s :: line next rest

def lineItems (first : Arithmetic α) : List (Separator × Arithmetic α) → List (Item α)
  | [] => [.expression first]
  | (s, next) :: rest => .expression first :: .separator s :: lineItems next rest

theorem items_line {first : Arithmetic α} (hfirst : first.Grouped) :
    ∀ {rest : List (Separator × Arithmetic α)}, (∀ next ∈ rest, next.2.Grouped) →
      items (line first rest) = lineItems first rest
  | [], _ => by
      have h : items (first.pieces ++ []) = .expression first :: items [] :=
        items_pieces hfirst (by simp)
      rwa [List.append_nil, items] at h
  | (s, next) :: rest, h => by
      have hnext := h (s, next) (List.mem_cons_self ..)
      have hrest := fun other hother => h other (List.mem_cons_of_mem _ hother)
      rw [line, items_pieces hfirst (by simp), items, items_line hnext hrest]
      rfl

theorem pieces_ends : ∀ {e : Arithmetic α}, e.Grouped → ∃ before a, e.pieces = before ++ [.term a]
  | .missing, h => h.elim
  | .term a, _ => ⟨[], a, rfl⟩
  | .binary left o right, ⟨_, hright, _⟩ => by
      obtain ⟨before, a, hpieces⟩ := pieces_ends hright
      exact ⟨left.pieces ++ .operator o :: before, a, by simp [Arithmetic.pieces, hpieces]⟩

theorem line_begins {first : Arithmetic α} (h : first.Grouped)
    (rest : List (Separator × Arithmetic α)) : ∃ a others, line first rest = .term a :: others := by
  obtain ⟨a, hfirst⟩ := h.first_eq
  have hpieces : first.pieces = .term a :: first.others := by
    rw [first.pieces_eq, hfirst]
    rfl
  cases rest with
  | nil => exact ⟨a, _, hpieces⟩
  | cons next rest => exact ⟨a, _, by rw [line, hpieces]; rfl⟩

theorem line_ends : ∀ {first : Arithmetic α} {rest : List (Separator × Arithmetic α)},
    first.Grouped → (∀ next ∈ rest, next.2.Grouped) →
      ∃ before a, line first rest = before ++ [.term a]
  | _, [], hfirst, _ => pieces_ends hfirst
  | first, (s, next) :: rest, _, h => by
      obtain ⟨before, a, hline⟩ := line_ends (h (s, next) (List.mem_cons_self ..))
        fun other hother => h other (List.mem_cons_of_mem _ hother)
      exact ⟨first.pieces ++ .separator s :: before, a, by simp [line, hline]⟩

/-- A line begins and ends with a term, so no white space is around it. -/
theorem trimSpaces_line {first : Arithmetic α} {rest : List (Separator × Arithmetic α)}
    (hfirst : first.Grouped) (h : ∀ next ∈ rest, next.2.Grouped) :
    trimSpaces (line first rest) = line first rest := by
  obtain ⟨a, others, hbegins⟩ := line_begins hfirst rest
  obtain ⟨before, b, hends⟩ := line_ends hfirst h
  rw [trimSpaces, hbegins, List.dropWhile_cons_of_neg (by simp), ← hbegins, hends,
    List.reverse_concat, List.dropWhile_cons_of_neg (by simp), List.reverse_cons,
    List.reverse_reverse]

/-- White space around a line is not part of it. -/
theorem ofPieces_eq {pieces : List (Piece α)} {first : Arithmetic α}
    {rest : List (Separator × Arithmetic α)} (hpieces : trimSpaces pieces = line first rest)
    (hfirst : first.Grouped) (h : ∀ next ∈ rest, next.2.Grouped) :
    ofPieces pieces = if rest.isEmpty then .single first else .list (lineItems first rest) := by
  rw [ofPieces, hpieces, items_line hfirst h]
  cases rest with
  | nil => rfl
  | cons next rest => rfl

theorem line_append (first : Arithmetic α) (s : Separator) (next : Arithmetic α)
    (others : List (Separator × Arithmetic α)) :
    ∀ rest, line first (rest ++ (s, next) :: others) =
      line first rest ++ .separator s :: line next others
  | [] => rfl
  | (s', next') :: rest => by
      rw [List.cons_append, line, line, line_append next' s next others rest]
      simp

end Expression

/-! ## Other terms -/

section Map

variable {β : Type} (f : α → β)

def Piece.map : Piece α → Piece β
  | separator s => .separator s
  | operator o => .operator o
  | term a => .term (f a)

def Arithmetic.map : Arithmetic α → Arithmetic β
  | missing => .missing
  | term a => .term (f a)
  | binary left o right => .binary left.map o right.map

namespace Arithmetic

theorem pieces_map : ∀ e : Arithmetic α, (e.map f).pieces = e.pieces.map (Piece.map f)
  | missing | term _ => rfl
  | binary left o right => by simp [map, pieces, pieces_map left, pieces_map right, Piece.map]

theorem isSum_map (e : Arithmetic α) : (e.map f).isSum = e.isSum := by
  cases e <;> rfl

theorem isOperation_map (e : Arithmetic α) : (e.map f).isOperation = e.isOperation := by
  cases e <;> rfl

theorem grouped_map {f : α → β} : ∀ {e : Arithmetic α}, (e.map f).Grouped ↔ e.Grouped
  | .missing | .term _ => Iff.rfl
  | .binary left o right => by
      simp only [map, Grouped, isSum_map, isOperation_map, grouped_map]

end Arithmetic

theorem Expression.line_map (first : Arithmetic α) :
    ∀ rest : List (Separator × Arithmetic α),
      line (first.map f) (rest.map fun next => (next.1, next.2.map f)) =
        (line first rest).map (Piece.map f)
  | [] => first.pieces_map f
  | (s, next) :: rest => by
      simp [line, line_map next rest, Arithmetic.pieces_map, Piece.map]

theorem Expression.trimSpaces_map (pieces : List (Piece α)) :
    trimSpaces (pieces.map (Piece.map f)) = (trimSpaces pieces).map (Piece.map f) := by
  have hisSpace {isSpace : Piece α → Bool} {isSpace' : Piece β → Bool}
      (h : ∀ piece, isSpace' (piece.map f) = isSpace piece) (pieces : List (Piece α)) :
      (pieces.map (Piece.map f)).dropWhile isSpace' =
        (pieces.dropWhile isSpace).map (Piece.map f) := by
    rw [List.dropWhile_map]
    exact congrArg (List.map _) (congrArg (List.dropWhile · pieces) (funext h))
  simp only [trimSpaces]
  rw [hisSpace, ← List.map_reverse, hisSpace, List.map_reverse]
  all_goals
    intro piece
    rcases piece with (_ | _) | _ | _ <;> rfl

def Item.map : Item α → Item β
  | separator s => .separator s
  | expression e => .expression (e.map f)

def Expression.map : Expression α → Expression β
  | single e => .single (e.map f)
  | list items => .list (items.map (Item.map f))

namespace Arithmetic

theorem close_map (sum : Option (Arithmetic α × Operator)) (product : Arithmetic α) :
    (close sum product).map f = close (sum.map fun s => (s.1.map f, s.2)) (product.map f) := by
  cases sum <;> rfl

theorem ofChain_map (sum : Option (Arithmetic α × Operator)) (product : Arithmetic α)
    (operands : List (Operator × Arithmetic α)) :
    (ofChain sum product operands).map f =
      ofChain (sum.map fun s => (s.1.map f, s.2)) (product.map f)
        (operands.map fun next => (next.1, next.2.map f)) := by
  fun_induction ofChain sum product operands with
  | case1 sum product => exact close_map f sum product
  | case2 sum product o operand rest ho ih =>
      rw [ih, List.map_cons, ofChain, if_pos ho]
      rfl
  | case3 sum product o operand rest ho ih =>
      rw [ih, List.map_cons, ofChain, if_neg ho, ← close_map]
      rfl

end Arithmetic

namespace Expression

theorem chain_map (pieces : List (Piece α)) :
    chain (pieces.map (Piece.map f)) =
      ((chain pieces).1.map fun next => (next.1, next.2.map f),
        (chain pieces).2.map (Piece.map f)) := by
  fun_induction chain pieces with
  | case1 o a rest operands after hrest ih =>
      rw [hrest] at ih
      simp only [List.map_cons, Piece.map, chain, ih, Arithmetic.map]
  | case2 o rest hterm operands after hrest ih =>
      rw [hrest] at ih
      rw [List.map_cons, Piece.map, chain, ih]
      · rfl
      · rintro a others h
        cases rest with
        | nil => cases h
        | cons piece rest =>
            cases piece with
            | term b => exact hterm b rest rfl
            | separator | operator => cases h
  | case3 rest hterm hoperator =>
      cases rest with
      | nil => rfl
      | cons piece rest =>
          cases piece with
          | operator o => exact (hoperator o rest rfl).elim
          | separator | term => rfl

theorem items_map (pieces : List (Piece α)) :
    items (pieces.map (Piece.map f)) = (items pieces).map (Item.map f) := by
  fun_induction items pieces with
  | case1 => simp [items]
  | case2 s rest ih => simp [items, ih, Piece.map, Item.map]
  | case3 a rest ih =>
      rw [List.map_cons, Piece.map, items, chain_map, ih, List.map_cons, Item.map,
        Arithmetic.ofChain_map]
      rfl
  | case4 o rest ih =>
      have h := chain_map f (.operator o :: rest)
      rw [List.map_cons, Piece.map] at h ⊢
      rw [items, h, ih, List.map_cons, Item.map, Arithmetic.ofChain_map]
      rfl

/-- Grouping a run does not look into its terms. -/
theorem ofPieces_map (pieces : List (Piece α)) :
    ofPieces (pieces.map (Piece.map f)) = (ofPieces pieces).map f := by
  rw [ofPieces, trimSpaces_map, items_map, ofPieces]
  rcases items (trimSpaces pieces) with _ | ⟨_ | _, _ | _⟩ <;> rfl

end Expression

end Map

end Cascade
