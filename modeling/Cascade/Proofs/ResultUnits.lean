import Cascade.Proofs.Operands
import Cascade.Proofs.Strings

/-!
# The units of results

An operation that is computed comes to a color if an operand is one, and to a number
otherwise. Its unit is the unit proper of the operands, which agree on it, and a percentage
counts only if there is none. The sides play no part in this.

So the unit of a chain of operations, however its operators and parentheses group them, is the
one unit proper that any of its numbers has (`Arithmetic.carries`).
-/

namespace Cascade

/-! ## What values are, apart from their numbers -/

/-- The kind of a value: a number with a unit, or a color with or without an alpha channel. -/
inductive Shape where
  | number (unit : NumberUnit)
  | color (alpha : Bool)
deriving DecidableEq, Repr

namespace Value

def shape? : Value → Option Shape
  | quantity q => some (.number q.unit)
  | color c => some (.color c.alpha.isSome)
  | text _ => none

def HasAlpha : Value → Prop
  | color c => c.alpha.isSome = true
  | quantity _ | text _ => False

def IsPercentage : Value → Prop
  | quantity q => q.unit = .percent
  | color _ | text _ => False

/-- The unit of two operands together. -/
structure UnitOf (a b : Value) (unit : NumberUnit) : Prop where
  real : ∀ u, a.realUnit? = some u ∨ b.realUnit? = some u → unit = u
  percent : a.realUnit? = none → b.realUnit? = none → a.IsPercentage ∨ b.IsPercentage →
    unit = .percent
  plain : a.realUnit? = none → b.realUnit? = none → ¬ a.IsPercentage → ¬ b.IsPercentage →
    unit = .plain

/-- What an operation comes to is, apart from its numbers, told by its operands. -/
structure ResultOf (a b v : Value) : Prop where
  isColor : v.IsColor ↔ a.IsColor ∨ b.IsColor
  hasAlpha : v.HasAlpha ↔ a.HasAlpha ∨ b.HasAlpha
  number : ¬ v.IsColor → ∃ x unit, v = .number x unit ∧ UnitOf a b unit

section Sides

variable {a b v v' : Value} {unit unit' : NumberUnit}

theorem UnitOf.symm (h : UnitOf a b unit) : UnitOf b a unit where
  real := fun u hu => h.real u hu.symm
  percent := fun hb ha hpercent => h.percent ha hb hpercent.symm
  plain := fun hb ha hnot hnot' => h.plain ha hb hnot' hnot

theorem UnitOf.unique (h : UnitOf a b unit) (h' : UnitOf a b unit') : unit = unit' := by
  cases ha : a.realUnit? with
  | some u => exact (h.real u (.inl ha)).trans (h'.real u (.inl ha)).symm
  | none =>
      cases hb : b.realUnit? with
      | some u => exact (h.real u (.inr hb)).trans (h'.real u (.inr hb)).symm
      | none =>
          by_cases hpercent : a.IsPercentage ∨ b.IsPercentage
          · exact (h.percent ha hb hpercent).trans (h'.percent ha hb hpercent).symm
          · obtain ⟨hnot, hnot'⟩ := not_or.mp hpercent
            exact (h.plain ha hb hnot hnot').trans (h'.plain ha hb hnot hnot').symm

/-- A unit proper of the result is one of an operand. -/
theorem UnitOf.realUnit? (h : UnitOf a b unit) (hreal : unit.isReal = true) :
    a.realUnit? = some unit ∨ b.realUnit? = some unit := by
  cases ha : a.realUnit? with
  | some u => exact .inl (congrArg some (h.real u (.inl ha)).symm)
  | none =>
      cases hb : b.realUnit? with
      | some u => exact .inr (congrArg some (h.real u (.inr hb)).symm)
      | none =>
          by_cases hpercent : a.IsPercentage ∨ b.IsPercentage
          · rw [h.percent ha hb hpercent] at hreal
            cases hreal
          · obtain ⟨hnot, hnot'⟩ := not_or.mp hpercent
            rw [h.plain ha hb hnot hnot'] at hreal
            cases hreal

theorem ResultOf.symm (h : ResultOf a b v) : ResultOf b a v where
  isColor := h.isColor.trans or_comm
  hasAlpha := h.hasAlpha.trans or_comm
  number := fun hnot =>
    let ⟨x, unit, hv, hunit⟩ := h.number hnot
    ⟨x, unit, hv, hunit.symm⟩

theorem exists_color_of_isColor (h : v.IsColor) : ∃ c, v = .color c := by
  cases v with
  | color c => exact ⟨c, rfl⟩
  | quantity | text => exact h.elim

/-- The operands tell the shape of a result. -/
theorem ResultOf.shape?_eq (h : ResultOf a b v) (h' : ResultOf a b v') : v.shape? = v'.shape? := by
  by_cases hcolor : a.IsColor ∨ b.IsColor
  · obtain ⟨c, rfl⟩ := exists_color_of_isColor (h.isColor.mpr hcolor)
    obtain ⟨d, rfl⟩ := exists_color_of_isColor (h'.isColor.mpr hcolor)
    have halpha : c.alpha.isSome = true ↔ d.alpha.isSome = true := h.hasAlpha.trans h'.hasAlpha.symm
    exact congrArg (some ∘ Shape.color) (Bool.eq_iff_iff.mpr halpha)
  · obtain ⟨x, unit, rfl, hunit⟩ := h.number (h.isColor.not.mpr hcolor)
    obtain ⟨x', unit', rfl, hunit'⟩ := h'.number (h'.isColor.not.mpr hcolor)
    exact congrArg (some ∘ Shape.number) (hunit.unique hunit')

end Sides

end Value

/-! ## One operation -/

namespace Operand

theorem exists_ofNumbers (o : Operator) (a : Float) (left : NumberUnit) (b : Float)
    (right : NumberUnit) :
    ∃ x, ofNumbers o a left b right = .number x (resultUnit left right) := by
  unfold ofNumbers
  cases resultUnit left right with
  | percent | plain | known | other => exact ⟨_, rfl⟩

/-- Operands that are numbers, and what their values have for units. -/
theorem Of.number_unit {v : Value} {x : Float} {unit : NumberUnit} (h : Of v (number x unit)) :
    ¬ v.IsColor ∧ ¬ v.HasAlpha ∧ v.realUnit? = (if unit.isReal then some unit else none) ∧
      (v.IsPercentage ↔ unit = .percent) := by
  cases h with
  | quantity q => exact ⟨id, id, rfl, Iff.rfl⟩
  | blank => exact ⟨id, id, rfl, by simp [Value.IsPercentage]⟩

theorem Of.color_eq {v : Value} {c : Color} (h : Of v (Operand.color c)) : v = .color c := by
  cases h
  rfl

theorem resultUnit_of_not_real {left right : NumberUnit} (hleft : left.isReal = false)
    (hright : right.isReal = false) : resultUnit left right =
      if left = .percent ∨ right = .percent then .percent else .plain := by
  simp [resultUnit, hleft, hright]

variable {a b : Value} {l r : Operand}

theorem unitOf_resultUnit {x y : Float} {left right : NumberUnit} (ha : Of a (number x left))
    (hb : Of b (number y right)) (h : (number x left).conflict? (number y right) = none) :
    Value.UnitOf a b (resultUnit left right) := by
  obtain ⟨-, -, hreal, hpercent⟩ := ha.number_unit
  obtain ⟨-, -, hreal', hpercent'⟩ := hb.number_unit
  have hnone : ∀ {unit : NumberUnit}, (if unit.isReal then some unit else none) = none →
      unit.isReal = false := by simp
  constructor
  · intro u hu
    rw [hreal, hreal'] at hu
    rcases hu with hu | hu
    · obtain ⟨hleft, hu⟩ := Option.ite_none_right_eq_some.mp hu
      obtain rfl := Option.some.inj hu
      exact if_pos hleft
    · obtain ⟨hright, hu⟩ := Option.ite_none_right_eq_some.mp hu
      obtain rfl := Option.some.inj hu
      unfold resultUnit
      split
      · -- Both units are proper, and they do not keep apart.
        rename_i hleft
        by_contra hne
        simp [conflict?, hleft, hright, hne] at h
      · rfl
  · intro hleft hright hpercentage
    rw [hpercent, hpercent'] at hpercentage
    rw [resultUnit_of_not_real (hnone (hreal ▸ hleft)) (hnone (hreal' ▸ hright)),
      if_pos hpercentage]
  · intro hleft hright hnot hnot'
    rw [hpercent] at hnot
    rw [hpercent'] at hnot'
    rw [resultUnit_of_not_real (hnone (hreal ▸ hleft)) (hnone (hreal' ▸ hright)),
      if_neg (not_or.mpr ⟨hnot, hnot'⟩)]

theorem resultOf_numbers (o : Operator) {x y : Float} {left right : NumberUnit}
    (ha : Of a (number x left)) (hb : Of b (number y right))
    (h : (number x left).conflict? (number y right) = none) :
    Value.ResultOf a b (ofNumbers o x left y right) := by
  obtain ⟨z, hz⟩ := exists_ofNumbers o x left y right
  obtain ⟨hcolor, halpha, -⟩ := ha.number_unit
  obtain ⟨hcolor', halpha', -⟩ := hb.number_unit
  rw [hz]
  exact ⟨iff_of_false id (not_or.mpr ⟨hcolor, hcolor'⟩),
    iff_of_false id (not_or.mpr ⟨halpha, halpha'⟩),
    fun _ => ⟨z, _, rfl, unitOf_resultUnit ha hb h⟩⟩

/-- A color comes out, and its alpha channel is there if an operand has one. -/
theorem resultOf_bounded {rgb : Rgb Float} {alpha : Option Float}
    (hcolor : a.IsColor ∨ b.IsColor) (halpha : alpha.isSome = true ↔ a.HasAlpha ∨ b.HasAlpha) :
    Value.ResultOf a b (bounded rgb alpha) where
  isColor := iff_of_true trivial hcolor
  hasAlpha := by
    rw [← halpha, bounded, Value.HasAlpha, Color.computed, Option.isSome_map]
  number := fun hnot => (hnot trivial).elim

theorem resultOf_compute (o : Operator) (ha : Of a l) (hb : Of b r)
    (h : l.conflict? r = none) : Value.ResultOf a b (compute o l r) := by
  cases l with
  | number x left =>
      cases r with
      | number y right => exact resultOf_numbers o ha hb h
      | color d =>
          obtain rfl := hb.color_eq
          obtain ⟨-, halpha, -⟩ := ha.number_unit
          refine resultOf_bounded (.inr trivial) ?_
          rw [Option.isSome_map]
          exact (or_iff_right halpha).symm
  | color c =>
      obtain rfl := ha.color_eq
      cases r with
      | number y right =>
          obtain ⟨-, halpha, -⟩ := hb.number_unit
          refine resultOf_bounded (.inl trivial) ?_
          rw [Option.isSome_map]
          exact (or_iff_left halpha).symm
      | color d =>
          obtain rfl := hb.color_eq
          refine resultOf_bounded (.inl trivial) ?_
          cases hc : c.alpha <;> cases hd : d.alpha <;> simp [Value.HasAlpha, hc, hd]

end Operand

namespace Operator

variable {o : Operator} {a b v : Value}

/-- An operation that comes to a value has two operands that do not keep apart. -/
theorem operands_of_some (h : o.operate a b = .ok (some v)) :
    ∃ l r, Operand.Of a l ∧ Operand.Of b r ∧ l.conflict? r = none ∧ v = Operand.compute o l r := by
  rcases Operand.ofValue_cases a with ⟨-, cause, ha⟩ | ⟨-, ha⟩ | ⟨l, hl, ha⟩
  · rw [operate, ha] at h
    cases h
  · rw [operate_of_left ha] at h
    cases h
  rcases Operand.ofValue_cases b with ⟨-, cause, hb⟩ | ⟨-, hb⟩ | ⟨r, hr, hb⟩
  · rw [operate, ha, hb] at h
    cases h
  · rw [operate_of_right ha hb] at h
    cases h
  rw [o.operate_of_operands ha hb] at h
  cases hconflict : l.conflict? r with
  | some cause =>
      rw [hconflict] at h
      cases h
  | none =>
      rw [hconflict] at h
      obtain ⟨-, hv⟩ := Option.ite_none_left_eq_some.mp (Except.ok.inj h)
      exact ⟨l, r, hl, hr, hconflict, (Option.some.inj hv).symm⟩

theorem resultOf (h : o.operate a b = .ok (some v)) : Value.ResultOf a b v := by
  obtain ⟨l, r, hl, hr, hconflict, rfl⟩ := operands_of_some h
  exact Operand.resultOf_compute o hl hr hconflict

/-- The sides of the operands tell nothing about the result. -/
theorem shape?_comm {v' : Value} (h : o.operate a b = .ok (some v))
    (h' : o.operate b a = .ok (some v')) : v.shape? = v'.shape? :=
  (resultOf h).shape?_eq (resultOf h').symm

end Operator

/-! ## Chains of operations -/

namespace Value

/-- What counts as a number in an operation: a number, or a missing operand. -/
def Counts (v : Value) : Prop := ∃ x unit, Operand.Of v (.number x unit)

variable {t : Text} {v : Value}

theorem not_counts_text {c : Char} (hc : c ∈ t) (hsolid : isBlank c = false) :
    ¬ Counts (text t) := by
  rintro ⟨x, unit, h⟩
  cases h with
  | blank hblank =>
      rcases Text.mem_trim_or_isBlank hc with hmem | hblank'
      · rw [hblank] at hmem
        cases hmem
      · rw [hsolid] at hblank'
        cases hblank'

theorem Counts.quantity (q : Quantity) : Counts (.quantity q) := ⟨_, _, .quantity q⟩

/-- An operation comes to a number only for operands that count as numbers. -/
theorem ResultOf.counts {o : Operator} {a b : Value} (h : o.operate a b = .ok (some v))
    (hv : v.Counts) : a.Counts ∧ b.Counts := by
  obtain ⟨l, r, ha, hb, -, rfl⟩ := Operator.operands_of_some h
  obtain ⟨x, unit, hof⟩ := hv
  obtain ⟨hnot, -⟩ := hof.number_unit
  have hresult := (Operator.resultOf h).isColor.not.mp hnot
  cases l with
  | color c => exact (hresult (.inl (ha.color_eq ▸ trivial))).elim
  | number x left =>
      cases r with
      | color d => exact (hresult (.inr (hb.color_eq ▸ trivial))).elim
      | number y right => exact ⟨⟨_, _, ha⟩, ⟨_, _, hb⟩⟩

/-- A unit proper of an operand is that of the result. -/
theorem ResultOf.realUnit? {a b : Value} {u : NumberUnit} (h : ResultOf a b v) (hv : v.Counts)
    (hunit : a.realUnit? = some u ∨ b.realUnit? = some u) (hreal : u.isReal = true) :
    v.realUnit? = some u := by
  obtain ⟨_, _, hof⟩ := hv
  obtain ⟨x, unit, rfl, hunitOf⟩ := h.number hof.number_unit.1
  rw [← hunitOf.real u hunit] at hreal ⊢
  exact if_pos hreal

end Value

theorem Token.expression_eq {tokens : List Token} {e : Arithmetic Token}
    (h : Expression.trimSpaces (tokens.map piece) = e.pieces) (hgrouped : e.Grouped) :
    expression tokens = .single e := by
  have hline : Expression.trimSpaces (tokens.map piece) = Expression.line e [] := h
  rw [expression, Expression.ofPieces_eq hline hgrouped nofun]
  rfl

/-- The value of a run that is a single expression. -/
theorem Token.value_eq {tokens : List Token} {e : Arithmetic Token}
    (h : expression tokens = .single e) : value tokens = (e.map computed).value := by
  rw [value, computeAll_eq, Piece.valueOf, Expression.ofPieces_map]
  exact congrArg (fun e => (e.map computed).value) h

namespace Arithmetic

/-- The units of the numbers in an expression, and in the parentheses in it. -/
inductive Meets : Arithmetic Token → NumberUnit → Prop
  | term {token : Token} {q : Quantity} :
      token.computed.operand = .ok (.quantity q) → Meets (.term token) q.unit
  | left {left right : Arithmetic Token} {o : Operator} {u : NumberUnit} :
      Meets left u → Meets (.binary left o right) u
  | right {left right : Arithmetic Token} {o : Operator} {u : NumberUnit} :
      Meets right u → Meets (.binary left o right) u
  | group {inside : List Token} {e : Arithmetic Token} {u : NumberUnit} :
      Token.expression inside = .single e → Meets e u → Meets (.term (.group inside)) u

/-- Operations on numbers, each of which is computed, in parentheses or not. -/
inductive OnNumbers : Arithmetic Token → Prop
  | term {token : Token} {q : Quantity} :
      token.computed.operand = .ok (.quantity q) → OnNumbers (.term token)
  | group {inside : List Token} {left right : Arithmetic Token} {o : Operator} :
      Token.expression inside = .single (.binary left o right) →
      OnNumbers (.binary left o right) → OnNumbers (.term (.group inside))
  | binary {left right : Arithmetic Token} {o : Operator} {l r v : Value} :
      OnNumbers left → OnNumbers right → (left.map Token.computed).operand = .ok l →
      (right.map Token.computed).operand = .ok r → o.operate l r = .ok (some v) →
      OnNumbers (.binary left o right)

/-- The unit is the one unit proper that is met, if one is. -/
structure Carries (e : Arithmetic Token) (unit : NumberUnit) : Prop where
  eq_of_meets : ∀ u, e.Meets u → u.isReal = true → unit = u
  meets : unit.isReal = true → e.Meets unit

theorem operand_of_some {left right : Arithmetic Computed} {o : Operator} {l r v : Value}
    (hl : left.operand = .ok l) (hr : right.operand = .ok r) (h : o.operate l r = .ok (some v)) :
    (binary left o right).operand = .ok v := by
  simp only [operand, hl, hr, bind, Except.bind, h]
  rfl

/-- Numbers come to a number. -/
theorem OnNumbers.operand {e : Arithmetic Token} (h : e.OnNumbers) :
    ∃ q, (e.map Token.computed).operand = .ok (.quantity q) := by
  induction h with
  | term h => exact ⟨_, h⟩
  | group h _ ih =>
      obtain ⟨q, hq⟩ := ih
      exact ⟨q, (Token.value_eq h).trans hq⟩
  | @binary _ _ o l r v _ _ hl hr hv ihl ihr =>
      obtain ⟨p, hp⟩ := ihl
      obtain ⟨q, hq⟩ := ihr
      cases hl.symm.trans hp
      cases hr.symm.trans hq
      have hresult := Operator.resultOf hv
      obtain ⟨x, unit, rfl, -⟩ :=
        hresult.number fun hcolor => (hresult.isColor.mp hcolor).elim id id
      exact ⟨⟨x, unit, none⟩, operand_of_some hl hr hv⟩

/-- An operation that counts as a number is computed. -/
theorem operand_binary_counts {left right : Arithmetic Computed} {o : Operator} {v : Value}
    (h : (binary left o right).operand = .ok v) (hv : v.Counts) :
    ∃ l r, left.operand = .ok l ∧ right.operand = .ok r ∧ o.operate l r = .ok (some v) := by
  obtain ⟨l, r, result, hl, hr, hresult, rfl⟩ := operand_binary h
  cases result with
  | some v => exact ⟨l, r, hl, hr, hresult⟩
  | none =>
      have hmem : o.char ∈ written l.css o r.css := by
        have hsep : [o.char] ∈ [l.css, [o.char], r.css].filter (!·.isEmpty) := by simp
        exact Text.mem_join_of_mem (List.mem_singleton_self _) hsep
      exact (Value.not_counts_text hmem o.isBlank_char hv).elim

end Arithmetic

theorem Piece.operand_call (name : Text) (pieces : List (Piece Computed)) :
    (call name pieces).operand = (call name pieces).value := by
  unfold call
  split <;> rfl

namespace Token

/-- What counts as a number on its own does so as an operand. -/
theorem operand_of_value {token : Token} {v : Value} (h : token.computed.value = .ok v)
    (hv : v.Counts) : token.computed.operand = .ok v := by
  cases token with
  | space | comma | operator | word | reference => exact h
  | call name arguments => exact (Piece.operand_call name (computeAll arguments)).trans h
  | group inside =>
      obtain ⟨w, hw, h⟩ := bind_eq_ok h
      obtain ⟨t, -, h⟩ := bind_eq_ok h
      obtain h := Except.ok.inj h
      split at h
      · subst h
        exact (Value.not_counts_text (List.mem_cons_self ..) rfl hv).elim
      · subst h
        exact hw

end Token

namespace Arithmetic

/-- An expression that counts as a number on its own does so as an operand. -/
theorem operand_of_value {e : Arithmetic Token} {v : Value}
    (h : (e.map Token.computed).value = .ok v) (hv : v.Counts) :
    (e.map Token.computed).operand = .ok v := by
  cases e with
  | missing | binary => exact h
  | term token => exact Token.operand_of_value h hv

/-- A unit proper that is met is the unit of the result. -/
theorem Meets.realUnit? {e : Arithmetic Token} {u : NumberUnit} (h : e.Meets u)
    (hreal : u.isReal = true) : ∀ {v : Value}, (e.map Token.computed).operand = .ok v → v.Counts →
      v.realUnit? = some u := by
  induction h with
  | @term token q h =>
      intro v hv _
      cases hv.symm.trans h
      exact if_pos hreal
  | left _ ih =>
      intro v hv hcounts
      obtain ⟨l, r, hl, hr, hresult⟩ := operand_binary_counts hv hcounts
      have hunit := ih hreal hl (Value.ResultOf.counts hresult hcounts).1
      exact (Operator.resultOf hresult).realUnit? hcounts (.inl hunit) hreal
  | right _ ih =>
      intro v hv hcounts
      obtain ⟨l, r, hl, hr, hresult⟩ := operand_binary_counts hv hcounts
      have hunit := ih hreal hr (Value.ResultOf.counts hresult hcounts).2
      exact (Operator.resultOf hresult).realUnit? hcounts (.inr hunit) hreal
  | group h _ ih =>
      intro v hv hcounts
      refine ih hreal (operand_of_value ?_ hcounts) hcounts
      rw [← Token.value_eq h]
      exact hv

theorem meets_of_realUnit? {e : Arithmetic Token} {u : NumberUnit} : ∀ {v : Value},
    (e.map Token.computed).operand = .ok v → v.realUnit? = some u → e.Meets u := by
  induction e with
  | missing =>
      intro v hv hunit
      cases hv
      cases hunit
  | term token =>
      intro v hv hunit
      cases v with
      | quantity q =>
          obtain ⟨-, hu⟩ := Option.ite_none_right_eq_some.mp hunit
          obtain rfl := Option.some.inj hu
          exact .term hv
      | color | text => cases hunit
  | binary left o right ihl ihr =>
      intro v hv hunit
      cases v with
      | quantity q =>
          obtain ⟨hreal, hu⟩ := Option.ite_none_right_eq_some.mp hunit
          obtain rfl := Option.some.inj hu
          obtain ⟨l, r, hl, hr, hresult⟩ := operand_binary_counts hv (.quantity q)
          obtain ⟨x, unit, hq, hunitOf⟩ := (Operator.resultOf hresult).number id
          cases hq
          rcases hunitOf.realUnit? hreal with hunit | hunit
          · exact .left (ihl hl hunit)
          · exact .right (ihr hr hunit)
      | color | text => cases hunit

/-- The unit of a number that operations come to is the unit proper that they meet. -/
theorem carries {e : Arithmetic Token} {q : Quantity}
    (h : (e.map Token.computed).operand = .ok (.quantity q)) : e.Carries q.unit where
  eq_of_meets := fun u hmeets hreal => by
    obtain ⟨-, hu⟩ := Option.ite_none_right_eq_some.mp (hmeets.realUnit? hreal h (.quantity q))
    exact Option.some.inj hu
  meets := fun hreal => meets_of_realUnit? h (if_pos hreal)

end Arithmetic

/-! ## Operations and chains of them -/

namespace Operator

/-- Of two operands, the result of an operation has the kind and the unit that they have
between them, whichever side they are on. So a chain of operations on numbers carries the one
unit proper that it meets, in parentheses and out of them. -/
theorem units_carried :
    (∀ (o : Operator) (a b v : Value), o.operate a b = .ok (some v) →
      Value.ResultOf a b v ∧
        ∀ v', o.operate b a = .ok (some v') → v.shape? = v'.shape?) ∧
    (∀ e : Arithmetic Token, e.OnNumbers →
      ∃ q, (e.map Token.computed).operand = .ok (.quantity q)) ∧
    (∀ (e : Arithmetic Token) (q : Quantity),
      (e.map Token.computed).operand = .ok (.quantity q) → e.Carries q.unit) ∧
    ∀ (tokens : List Token) (e : Arithmetic Token) (q : Quantity),
      Token.expression tokens = .single e → Token.value tokens = .ok (.quantity q) →
        e.Carries q.unit := by
  refine ⟨fun o a b v h => ⟨resultOf h, fun v' h' => shape?_comm h h'⟩,
    fun e h => h.operand, fun e q h => Arithmetic.carries h, fun tokens e q he h => ?_⟩
  rw [Token.value_eq he] at h
  exact Arithmetic.carries (Arithmetic.operand_of_value h (.quantity q))

/-- The unit is the same if the sides are changed, and it comes out of parentheses. -/
theorem units_carried_parentheses :
    (∃ v v', plus.operate (.ofWord "10px") (.ofWord "50%") = .ok (some v) ∧
      plus.operate (.ofWord "50%") (.ofWord "10px") = .ok (some v') ∧ v.shape? = v'.shape?) ∧
    ∃ e q, e.OnNumbers ∧
      Token.expression [.group [.word "10px", .operator plus, .word "50%"], .operator times,
        .word "2"] = .single e ∧
      Token.value [.group [.word "10px", .operator plus, .word "50%"], .operator times,
        .word "2"] = .ok (.quantity q) ∧
      q.unit = .known .px := by
  obtain ⟨hresult, hnumbers, -, hvalue⟩ := units_carried
  obtain ⟨x, hx⟩ : ∃ x, Value.ofWord "10px" = .quantity ⟨x, .known .px, some "10px"⟩ := ⟨_, rfl⟩
  obtain ⟨y, hy⟩ : ∃ y, Value.ofWord "50%" = .quantity ⟨y, .percent, some "50%"⟩ := ⟨_, rfl⟩
  obtain ⟨z, hz⟩ : ∃ z, Value.ofWord "2" = .quantity ⟨z, .plain, some "2"⟩ := ⟨_, rfl⟩
  have hleft : (Arithmetic.term (Token.word "10px").computed).operand = .ok (.quantity _) :=
    congrArg Except.ok hx
  have hright : (Arithmetic.term (Token.word "50%").computed).operand = .ok (.quantity _) :=
    congrArg Except.ok hy
  have hfactor : (Arithmetic.term (Token.word "2").computed).operand = .ok (.quantity _) :=
    congrArg Except.ok hz
  have hsum : (Arithmetic.binary (.term (.word "10px")) plus (.term (.word "50%"))).OnNumbers :=
    .binary (.term hleft) (.term hright) hleft hright rfl
  have hsides := (hresult plus (.quantity ⟨x, .known .px, some "10px"⟩)
    (.quantity ⟨y, .percent, some "50%"⟩) _ rfl).2 _ rfl
  refine ⟨⟨_, _, by rw [hx, hy]; rfl, by rw [hx, hy]; rfl, hsides⟩, ?_⟩
  have hinside : Token.expression [.word "10px", .operator plus, .word "50%"] =
      .single (.binary (.term (.word "10px")) plus (.term (.word "50%"))) :=
    Token.expression_eq rfl ⟨trivial, trivial, rfl, nofun⟩
  have he : Token.expression [.group [.word "10px", .operator plus, .word "50%"],
      .operator times, .word "2"] = .single (.binary (.term (.group [.word "10px",
        .operator plus, .word "50%"])) times (.term (.word "2"))) :=
    Token.expression_eq rfl ⟨trivial, trivial, rfl, fun _ => ⟨rfl, rfl⟩⟩
  have hgroup : (Token.group [.word "10px", .operator plus, .word "50%"]).computed.operand =
      .ok (.number _ (.known .px)) :=
    (Token.value_eq hinside).trans (Arithmetic.operand_of_some hleft hright rfl)
  have hchain : (Arithmetic.binary (.term (.group [.word "10px", .operator plus, .word "50%"]))
      times (.term (.word "2"))).OnNumbers :=
    .binary (.group hinside (.binary (.term hleft) (.term hright) hleft hright rfl))
      (.term hfactor) hgroup hfactor rfl
  obtain ⟨q, hq⟩ := hnumbers _ hchain
  have hmeets : Arithmetic.Meets (.binary (.term (.group [.word "10px", .operator plus,
      .word "50%"])) times (.term (.word "2"))) (.known .px) :=
    .left (.group hinside (.left (.term hleft)))
  have hvalued := (Token.value_eq he).trans hq
  exact ⟨_, q, hchain, he, hvalued, (hvalue _ _ _ he hvalued).eq_of_meets _ hmeets rfl⟩

end Operator

end Cascade
