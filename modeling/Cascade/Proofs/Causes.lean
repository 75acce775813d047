import Cascade.Evaluation

/-!
# What computing can fail for

An expression whose variables have been replaced can only fail for the units, the
colors and the arguments in it (`Token.value_computes`). Whatever else goes wrong
while a value is evaluated is a variable that leads back to itself, which is what
lets the cycle check be read off the fault.

The tree of an expression does not look into its terms, so that the terms of the
tree are the terms of the pieces it is made of is shown for any property of terms
(`Expression.Each`).
-/

namespace Cascade

theorem bind_eq_ok {ε α β : Type} {e : Except ε α} {f : α → Except ε β} {b : β}
    (h : e >>= f = .ok b) : ∃ a, e = .ok a ∧ f a = .ok b := by
  cases e with
  | error => cases h
  | ok a => exact ⟨a, rfl, h⟩

theorem map_eq_ok {ε α β : Type} {e : Except ε α} {f : α → β} {b : β}
    (h : e.map f = .ok b) : ∃ a, e = .ok a ∧ f a = b := by
  cases e with
  | error => cases h
  | ok a => exact ⟨a, rfl, Except.ok.inj h⟩

theorem eq_ok_of_toOption {ε α : Type} {x : Except ε α} {a : α} (h : x.toOption = some a) :
    x = .ok a := by
  cases x with
  | error e => cases h
  | ok b => exact congrArg Except.ok (Option.some.inj h)

theorem bind_eq_error {ε α β : Type} {e : Except ε α} {f : α → Except ε β} {fault : ε}
    (h : e >>= f = .error fault) : e = .error fault ∨ ∃ a, e = .ok a ∧ f a = .error fault := by
  cases e with
  | error =>
      cases h
      exact .inl rfl
  | ok a => exact .inr ⟨a, rfl, h⟩

/-- A cause that lies in the operands and arguments of a computation. -/
def Cause.IsComputing (c : Cause) : Prop :=
  c.category = .unitMismatch ∨ c.category = .invalidColor ∨ c.category = .invalidArgument

theorem Cause.IsComputing.ne_recursion {c : Cause} (h : c.IsComputing) :
    c.category ≠ .recursion := by
  rcases h with h | h | h <;> rw [h] <;> decide

/-- A computation that fails for nothing but its operands and arguments. -/
def Computes {α : Type} (e : Except Cause α) : Prop := ∀ c, e = .error c → c.IsComputing

namespace Computes

variable {α β : Type}

theorem ok (a : α) : Computes (.ok a) := fun _ h => by cases h

theorem error {c : Cause} (hc : c.IsComputing) : Computes (.error c : Except Cause α) :=
  fun _ h => by cases h; exact hc

theorem bind {e : Except Cause α} {f : α → Except Cause β} (he : Computes e)
    (hf : ∀ a, Computes (f a)) : Computes (e >>= f) := by
  cases e with
  | error c => exact .error (he c rfl)
  | ok a => exact hf a

theorem map {e : Except Cause α} (f : α → β) (he : Computes e) : Computes (e.map f) := by
  cases e with
  | error c => exact .error (he c rfl)
  | ok a => exact .ok (f a)

theorem mapM {f : α → Except Cause β} :
    ∀ {l : List α}, (∀ a ∈ l, Computes (f a)) → Computes (l.mapM f)
  | [], _ => .ok _
  | a :: rest, h => by
      rw [List.mapM_cons]
      refine (h a (List.mem_cons_self ..)).bind fun b => ?_
      exact (mapM fun a ha => h a (List.mem_cons_of_mem _ ha)).bind fun bs => .ok _

end Computes

theorem subset_of_mem_splitOnP {α : Type} {p : α → Bool} {part : List α} :
    ∀ {l : List α}, part ∈ l.splitOnP p → part ⊆ l
  | [], h => by
      rw [List.splitOnP_nil, List.mem_singleton] at h
      exact h ▸ List.Subset.refl _
  | a :: rest, h => by
      rw [List.splitOnP_cons_eq_if_modifyHead] at h
      split at h
      · rcases List.mem_cons.mp h with rfl | h
        · exact List.nil_subset _
        · exact List.Subset.trans (subset_of_mem_splitOnP h) (List.subset_cons_self ..)
      · obtain ⟨first, others, hsplit⟩ := List.exists_cons_of_ne_nil (List.splitOnP_ne_nil p rest)
        have hmem {part : List α} (h : part ∈ first :: others) : part ⊆ rest :=
          subset_of_mem_splitOnP (hsplit ▸ h)
        rw [hsplit, List.modifyHead_cons] at h
        rcases List.mem_cons.mp h with rfl | h
        · exact List.cons_subset_cons a (hmem (List.mem_cons_self ..))
        · exact List.Subset.trans (hmem (List.mem_cons_of_mem _ h)) (List.subset_cons_self ..)

/-! ## Operations, comparisons and functions -/

theorem Operand.ofValue_computes : ∀ v : Value, Computes (Operand.ofValue v)
  | .color _ | .quantity _ => .ok _
  | .text t => by
      rw [Operand.ofValue]
      split
      · exact .ok _
      · split
        · exact .error (.inr (.inl rfl))
        · exact .ok _

theorem Operand.conflict?_isComputing {l r : Operand} {c : Cause}
    (h : l.conflict? r = some c) : c.IsComputing := by
  cases l <;> cases r <;> simp only [conflict?, Option.ite_none_right_eq_some] at h
  · cases h
  all_goals
    obtain ⟨-, h⟩ := h
    cases h
    exact .inl rfl

theorem Operator.operate_computes (o : Operator) (left right : Value) :
    Computes (o.operate left right) := by
  refine (Operand.ofValue_computes left).bind fun l => ?_
  cases l with
  | none => exact .ok _
  | some l =>
      refine (Operand.ofValue_computes right).bind fun r => ?_
      cases r with
      | none => exact .ok _
      | some r =>
          cases hconflict : l.conflict? r with
          | some cause =>
              simp only [hconflict]
              exact .error (Operand.conflict?_isComputing hconflict)
          | none =>
              simp only [hconflict]
              exact .ok _

theorem Argument.agree_computes (expected : Option Kind) (found : Kind) :
    Computes (agree expected found) := by
  unfold agree
  split
  · exact .ok _
  · split
    · exact .ok _
    · exact .error (.inl rfl)

theorem Argument.ofValue_computes (expected : Option Kind) :
    ∀ v : Value, Computes (Argument.ofValue expected v)
  | .color _ => (agree_computes _ _).map _
  | .quantity q => by
      rw [Argument.ofValue]
      split
      · exact .ok _
      · exact (agree_computes _ _).map _
  | .text t => by
      rw [Argument.ofValue]
      split
      · exact .error (.inr (.inl rfl))
      · exact .ok _

theorem Comparison.decide_computes (t : Text) : Computes (Comparison.decide t) := by
  unfold Comparison.decide
  split
  · exact .ok _
  · refine (Argument.ofValue_computes _ _).bind fun (left, kind) => ?_
    refine (Argument.ofValue_computes _ _).bind fun (right, _) => ?_
    cases left <;> cases right
    · exact .ok _
    · exact .error (.inl rfl)
    · exact .error (.inl rfl)
    · exact .ok _

theorem Comparison.decide_eq_none_iff {t : Text} : decide t = .ok none ↔ split? t = none := by
  unfold decide
  cases split? t with
  | none => exact iff_of_true rfl rfl
  | some sides =>
      obtain ⟨left, comparison, right⟩ := sides
      refine iff_of_false (fun h => ?_) nofun
      obtain ⟨⟨left, kind⟩, -, h⟩ := bind_eq_ok h
      obtain ⟨⟨right, _⟩, -, h⟩ := bind_eq_ok h
      simp only at h
      split at h <;> cases h

namespace Builtin

theorem numbers_computes (b : Builtin) :
    ∀ (kind : Option Kind) (arguments : List Value), Computes (b.numbers kind arguments)
  | _, [] => .ok _
  | kind, value :: rest => by
      refine (Argument.ofValue_computes kind value).bind fun (a, kind) => ?_
      cases a with
      | color c => exact .error (.inr (.inr rfl))
      | number x => exact (numbers_computes b kind rest).bind fun _ => .ok _

theorem someNumbers_computes (b : Builtin) (arguments : List Value) :
    Computes (b.someNumbers arguments) := by
  unfold someNumbers
  split
  · exact .error (.inr (.inr rfl))
  · exact b.numbers_computes none arguments

theorem firstNumber_computes (b : Builtin) :
    ∀ arguments : List Value, Computes (b.firstNumber arguments)
  | [] => .error (.inr (.inr rfl))
  | value :: _ => by
      refine (Argument.ofValue_computes _ value).bind fun (a, kind) => ?_
      cases a with
      | color c => exact .error (.inr (.inr rfl))
      | number x => exact .ok _

theorem firstColor_computes (b : Builtin) :
    ∀ arguments : List Value, Computes (b.firstColor arguments)
  | [] => .error (.inr (.inr rfl))
  | value :: _ => by
      refine (Argument.ofValue_computes _ value).bind fun (a, kind) => ?_
      cases a with
      | color c => exact .ok _
      | number x => exact .error (.inr (.inr rfl))

theorem secondAmount_computes (b : Builtin) :
    ∀ arguments : List Value, Computes (b.secondAmount arguments)
  | [] | [_] => .error (.inr (.inr rfl))
  | _ :: value :: _ => by
      refine (Argument.ofValue_computes _ value).bind fun (a, kind) => ?_
      cases a with
      | color c => exact .error (.inr (.inr rfl))
      | number x => exact .ok _

theorem evalChoose_computes (arguments : List Value) : Computes (evalChoose arguments) := by
  unfold evalChoose
  split
  · refine (Comparison.decide_computes _).bind fun outcome => ?_
    rcases outcome with _ | (_ | _) <;> exact .ok _
  · exact .ok _

theorem eval_computes (b : Builtin) (arguments : List Value) : Computes (b.eval arguments) := by
  cases b with
  | choose => exact evalChoose_computes arguments
  | min | max | avg => exact (someNumbers_computes _ _).bind fun _ => .ok _
  | ceil | floor | round => exact (firstNumber_computes _ _).bind fun _ => .ok _
  | lighten | darken =>
      exact (firstColor_computes _ _).bind fun _ =>
        (secondAmount_computes _ _).bind fun _ => .ok _
  | greyscale => exact (firstColor_computes _ _).bind fun _ => .ok _

end Builtin

/-! ## The terms of a tree -/

section Terms

variable {α : Type} (p : α → Prop)

/-- Every term of a tree has the property. -/
def Arithmetic.Each : Arithmetic α → Prop
  | missing => True
  | term a => p a
  | binary left _ right => left.Each ∧ right.Each

def Item.Each : Item α → Prop
  | separator _ => True
  | expression e => e.Each p

def Expression.Each : Expression α → Prop
  | single e => e.Each p
  | list items => ∀ i ∈ items, i.Each p

def Piece.Each : Piece α → Prop
  | term a => p a
  | separator _ | operator _ => True

variable {p}

theorem Arithmetic.close_each {sum : Option (Arithmetic α × Operator)} {product : Arithmetic α}
    (hsum : ∀ s ∈ sum, s.1.Each p) (hproduct : product.Each p) : (close sum product).Each p := by
  cases sum with
  | none => exact hproduct
  | some s => exact ⟨hsum s rfl, hproduct⟩

theorem Arithmetic.ofChain_each {sum : Option (Arithmetic α × Operator)} {product : Arithmetic α} :
    ∀ {operands : List (Operator × Arithmetic α)}, (∀ s ∈ sum, s.1.Each p) → product.Each p →
      (∀ operand ∈ operands, operand.2.Each p) → (ofChain sum product operands).Each p
  | [], hsum, hproduct, _ => close_each hsum hproduct
  | (o, operand) :: rest, hsum, hproduct, h => by
      have hoperand := h (o, operand) (List.mem_cons_self ..)
      have hrest := fun next hnext => h next (List.mem_cons_of_mem _ hnext)
      rw [ofChain]
      split
      · exact ofChain_each hsum ⟨hproduct, hoperand⟩ hrest
      · refine ofChain_each ?_ hoperand hrest
        intro s hs
        obtain rfl := Option.some.inj hs
        exact close_each hsum hproduct

namespace Expression

theorem chain_each (pieces : List (Piece α)) (h : ∀ piece ∈ pieces, piece.Each p) :
    (∀ operand ∈ (chain pieces).1, operand.2.Each p) ∧
      ∀ piece ∈ (chain pieces).2, piece.Each p := by
  fun_induction chain pieces with
  | case1 o a rest operands after hrest ih =>
      rw [hrest] at ih
      obtain ⟨hoperands, hafter⟩ := ih fun piece hpiece =>
        h piece (List.mem_cons_of_mem _ (List.mem_cons_of_mem _ hpiece))
      refine ⟨fun operand hoperand => ?_, hafter⟩
      rcases List.mem_cons.mp hoperand with rfl | hoperand
      · exact h (.term a) (List.mem_cons_of_mem _ (List.mem_cons_self ..))
      · exact hoperands operand hoperand
  | case2 o rest _ operands after hrest ih =>
      rw [hrest] at ih
      obtain ⟨hoperands, hafter⟩ := ih fun piece hpiece => h piece (List.mem_cons_of_mem _ hpiece)
      refine ⟨fun operand hoperand => ?_, hafter⟩
      rcases List.mem_cons.mp hoperand with rfl | hoperand
      · trivial
      · exact hoperands operand hoperand
  | case3 => exact ⟨fun _ => List.not_mem_nil.elim, h⟩

theorem items_each (pieces : List (Piece α)) (h : ∀ piece ∈ pieces, piece.Each p) :
    ∀ i ∈ items pieces, i.Each p := by
  -- What follows an expression is what its chain leaves, so both halves of
  -- `chain_each` are needed at every operand.
  have tree {product : Arithmetic α} {rest : List (Piece α)} (hproduct : product.Each p)
      (hrest : ∀ piece ∈ rest, piece.Each p) :
      (Item.expression (.ofChain none product (chain rest).1)).Each p :=
    Arithmetic.ofChain_each (fun _ hs => by cases hs) hproduct (chain_each rest hrest).1
  fun_induction items pieces with
  | case1 => exact fun _ hi => by cases hi
  | case2 s rest ih =>
      intro i hi
      rcases List.mem_cons.mp hi with rfl | hi
      · trivial
      · exact ih (fun piece hpiece => h piece (List.mem_cons_of_mem _ hpiece)) i hi
  | case3 a rest ih =>
      have hrest := fun piece hpiece => h piece (List.mem_cons_of_mem _ hpiece)
      intro i hi
      rcases List.mem_cons.mp hi with rfl | hi
      · exact tree (h (.term a) (List.mem_cons_self ..)) hrest
      · exact ih (chain_each rest hrest).2 i hi
  | case4 o rest ih =>
      intro i hi
      rcases List.mem_cons.mp hi with rfl | hi
      · exact tree trivial h
      · exact ih (chain_each _ h).2 i hi

theorem trimSpaces_sublist (pieces : List (Piece α)) : (trimSpaces pieces).Sublist pieces := by
  have trim (q : Piece α → Bool) :
      ((pieces.dropWhile q).reverse.dropWhile q).reverse.Sublist pieces := by
    refine List.Sublist.trans (List.reverse_sublist.mp ?_) (List.dropWhile_sublist q)
    rw [List.reverse_reverse]
    exact List.dropWhile_sublist q
  exact trim _

/-- The terms of an expression are terms of its pieces. -/
theorem ofPieces_each {pieces : List (Piece α)} (h : ∀ piece ∈ pieces, piece.Each p) :
    (ofPieces pieces).Each p := by
  have hitems := items_each (trimSpaces pieces) fun piece hpiece =>
    h piece ((trimSpaces_sublist pieces).subset hpiece)
  unfold ofPieces
  split
  · trivial
  · trivial
  · rename_i e heq
    rw [heq] at hitems
    exact hitems _ (List.mem_cons_self ..)
  · exact hitems

end Expression

end Terms

/-! ## Expressions -/

/-- A term computes in every way its surroundings may ask for. -/
structure Computed.Computes (c : Computed) : Prop where
  value : Cascade.Computes c.value
  operand : Cascade.Computes c.operand
  verbatim : Cascade.Computes c.verbatim

theorem Arithmetic.operand_computes :
    ∀ {e : Arithmetic Computed}, e.Each Computed.Computes → Computes e.operand
  | missing, _ => .ok _
  | term _, h => h.operand
  | binary left o right, h => by
      refine (operand_computes h.1).bind fun l => (operand_computes h.2).bind fun r => ?_
      refine (o.operate_computes l r).bind fun result => ?_
      cases result <;> exact .ok _

theorem Arithmetic.value_computes :
    ∀ {e : Arithmetic Computed}, e.Each Computed.Computes → Computes e.value
  | term _, h => h.value
  | missing, h | binary _ _ _, h => operand_computes h

theorem Expression.value_computes {e : Expression Computed} (h : e.Each Computed.Computes) :
    Computes e.value := by
  cases e with
  | single e => exact e.value_computes h
  | list items =>
      refine Computes.map _ (Computes.mapM fun i hi => ?_)
      cases i with
      | separator s => exact .ok _
      | expression e => exact (Arithmetic.value_computes (h _ hi)).map _

namespace Piece

variable {pieces : List (Piece Computed)}

theorem valueOf_computes (h : ∀ piece ∈ pieces, piece.Each Computed.Computes) :
    Computes (valueOf pieces) :=
  Expression.value_computes (Expression.ofPieces_each h)

theorem verbatims_computes (h : ∀ piece ∈ pieces, piece.Each Computed.Computes) :
    Computes (verbatims pieces) := by
  refine Computes.map _ (Computes.mapM fun piece hpiece => ?_)
  cases piece with
  | separator | operator => exact .ok _
  | term a => exact (h _ hpiece).verbatim

theorem mem_of_mem_arguments {argument : List (Piece Computed)}
    (h : argument ∈ arguments pieces) : argument ⊆ pieces := by
  unfold arguments at h
  simp only at h
  split at h
  · cases h
  · exact subset_of_mem_splitOnP h

theorem call_computes (name : Text) (h : ∀ piece ∈ pieces, piece.Each Computed.Computes) :
    (call name pieces).Computes := by
  unfold call
  split
  · rename_i b _
    have hvalue : Computes (do b.eval (← (arguments pieces).mapM valueOf)) := by
      refine Computes.bind (Computes.mapM fun argument hargument => ?_) b.eval_computes
      exact valueOf_computes fun piece hpiece => h piece (mem_of_mem_arguments hargument hpiece)
    exact ⟨hvalue, hvalue, hvalue.map _⟩
  · have htext := (verbatims_computes h).map fun inside => name ++ '(' :: inside ++ [')']
    exact ⟨htext.map _, htext.map _, htext⟩

end Piece

mutual

theorem Token.compute_computes : ∀ token : Token, token.compute.Each Computed.Computes
  | .space | .comma _ | .operator _ => trivial
  | .word _ | .reference _ => ⟨.ok _, .ok _, .ok _⟩
  | .call name arguments => Piece.call_computes name (computeAll_computes arguments)
  | .group inside => by
      have h := computeAll_computes inside
      refine ⟨?_, Piece.valueOf_computes h, (Piece.verbatims_computes h).map _⟩
      exact (Piece.valueOf_computes h).bind fun _ =>
        (Piece.verbatims_computes h).bind fun _ => .ok _

theorem Token.computeAll_computes :
    ∀ tokens : List Token, ∀ piece ∈ computeAll tokens, piece.Each Computed.Computes
  | [], _, h => by cases h
  | token :: rest, piece, h => by
      rw [computeAll] at h
      rcases List.mem_cons.mp h with rfl | h
      · exact compute_computes token
      · exact computeAll_computes rest piece h

end

/-- Tokens without variables fail for nothing but their operands and arguments. -/
theorem Token.value_computes (tokens : List Token) : Computes (Token.value tokens) :=
  Piece.valueOf_computes (Token.computeAll_computes tokens)

end Cascade
