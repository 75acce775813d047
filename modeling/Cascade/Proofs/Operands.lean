import Cascade.Proofs.Steady

/-!
# Which operations fail

An operation fails for its operands only: for a malformed color, or for two operands that do
not go together (`Value.Clashes`). Neither depends on the operator, and going together does
not depend on the side.

Being malformed does. Operands are looked at from left to right, and the operation is given up
at the first that cannot be computed with, so a malformed color is passed over if such a text
stands on its left. That is the one case in which an operation fails on one side alone
(`Operator.fails_iff`).
-/

namespace Cascade

/-! ## What a value is to an operation -/

namespace Value

def IsColor : Value → Prop
  | color _ => True
  | quantity _ | text _ => False

/-- The unit of a number, if it is a unit proper. -/
def realUnit? : Value → Option NumberUnit
  | quantity q => if q.unit.isReal then some q.unit else none
  | color _ | text _ => none

/-- A text that begins like a color; what is a color is no text. -/
def IsMalformed : Value → Prop
  | text t => t.head? = some '#'
  | quantity _ | color _ => False

/-- A text that cannot be computed with and is left alone: a keyword, a string, a list. -/
def IsInert : Value → Prop
  | text t => Text.trim t ≠ [] ∧ t.head? ≠ some '#'
  | quantity _ | color _ => False

/-- Two different units proper, or a unit proper and a color. -/
def Clashes (a b : Value) : Prop :=
  (∃ u ∈ a.realUnit?, ∃ u' ∈ b.realUnit?, u ≠ u') ∨
    (a.IsColor ∧ b.realUnit?.isSome) ∨ (b.IsColor ∧ a.realUnit?.isSome)

variable {a b v : Value}

theorem Clashes.symm (h : Clashes a b) : Clashes b a := by
  rcases h with ⟨u, ha, u', hb, hne⟩ | ha | hb
  · exact .inl ⟨u', hb, u, ha, hne.symm⟩
  · exact .inr (.inr ha)
  · exact .inr (.inl hb)

theorem not_clashes_text (t : Text) (b : Value) : ¬ Clashes (text t) b := by
  simp [Clashes, realUnit?, IsColor]

theorem IsInert.not_isMalformed (h : v.IsInert) : ¬ v.IsMalformed := by
  cases v with
  | text t => exact h.2
  | quantity | color => exact h.elim

theorem IsInert.not_clashes (h : v.IsInert) (b : Value) : ¬ Clashes v b := by
  cases v with
  | text t => exact not_clashes_text t b
  | quantity | color => exact h.elim

end Value

open Value (Clashes)

/-! ## Single operands -/

namespace Operand

/-- What a value that can be computed with counts as. A missing operand is a zero. -/
inductive Of : Value → Operand → Prop
  | color (c : Color) : Of (.color c) (.color c)
  | quantity (q : Quantity) : Of (.quantity q) (.number q.magnitude q.unit)
  | blank {t : Text} : Text.trim t = [] → Of (.text t) (.number 0.0 .plain)

/-- What a value is to an operation, and what it is read as. -/
theorem ofValue_cases (v : Value) :
    (v.IsMalformed ∧ ∃ cause, ofValue v = .error cause) ∨
      (v.IsInert ∧ ofValue v = .ok none) ∨
        ∃ operand, Of v operand ∧ ofValue v = .ok (some operand) := by
  cases v with
  | color c => exact .inr (.inr ⟨_, .color c, rfl⟩)
  | quantity q => exact .inr (.inr ⟨_, .quantity q, rfl⟩)
  | text t =>
      by_cases hblank : Text.trim t = []
      · exact .inr (.inr ⟨_, .blank hblank, by simp [ofValue, hblank]⟩)
      by_cases hhash : t.head? = some '#'
      · exact .inl ⟨hhash, .badColorOperand t, by simp [ofValue, hblank, hhash]⟩
      · exact .inr (.inl ⟨⟨hblank, hhash⟩, by simp [ofValue, hblank, hhash]⟩)

namespace Of

variable {a b v : Value} {l r operand : Operand}

theorem not_isMalformed (h : Of v operand) : ¬ v.IsMalformed := by
  cases h with
  | color | quantity => exact id
  | @blank t hblank =>
      intro hhash
      cases t with
      | nil => cases hhash
      | cons c rest =>
          obtain rfl : c = '#' := Option.some.inj hhash
          have hbegins : Token.Begins ('#' :: rest) := ⟨rfl, by decide, by decide⟩
          exact hbegins.trim_ne_nil hblank

theorem not_isInert (h : Of v operand) : ¬ v.IsInert := by
  cases h with
  | color | quantity => exact id
  | blank hblank => exact fun hinert => hinert.1 hblank

theorem unique {operand' : Operand} (h : Of v operand) (h' : Of v operand') :
    operand = operand' := by
  cases h <;> cases h' <;> rfl

/-- Operands are kept apart exactly if their values clash. -/
theorem conflict?_iff (ha : Of a l) (hb : Of b r) :
    (∃ cause, l.conflict? r = some cause) ↔ Clashes a b := by
  have hplain : NumberUnit.plain.isReal = false := rfl
  cases ha with
  | color c => cases hb <;> simp [conflict?, Clashes, Value.realUnit?, Value.IsColor, hplain]
  | quantity p =>
      cases hb with
      | color d => simp [conflict?, Clashes, Value.realUnit?, Value.IsColor]
      | quantity q =>
          by_cases hreal : p.unit.isReal = true
          · by_cases hreal' : q.unit.isReal = true
            · simp [conflict?, Clashes, Value.realUnit?, Value.IsColor, hreal, hreal']
            · simp [conflict?, Clashes, Value.realUnit?, Value.IsColor, hreal']
          · simp [conflict?, Clashes, Value.realUnit?, Value.IsColor, hreal]
      | blank => simp [conflict?, Clashes, Value.realUnit?, Value.IsColor, hplain]
  | blank => cases hb <;> simp [conflict?, Clashes, Value.realUnit?, Value.IsColor, hplain]

end Of

end Operand

/-! ## Operations -/

namespace Operator

/-- The operation fails, for whatever cause. -/
def Fails (o : Operator) (a b : Value) : Prop := ∃ cause, o.operate a b = .error cause

variable (o : Operator) {a b : Value}

theorem fails_of_isMalformed (h : a.IsMalformed) : o.Fails a b := by
  rcases Operand.ofValue_cases a with ⟨-, cause, ha⟩ | ⟨hinert, -⟩ | ⟨l, hl, -⟩
  · exact ⟨cause, by rw [operate, ha]; rfl⟩
  · exact (hinert.not_isMalformed h).elim
  · exact (hl.not_isMalformed h).elim

/-- A text on the left is where the operation is given up. -/
theorem not_fails_of_isInert (h : a.IsInert) : ¬ o.Fails a b := by
  rintro ⟨cause, hfails⟩
  rcases Operand.ofValue_cases a with ⟨hmalformed, -⟩ | ⟨-, ha⟩ | ⟨l, hl, -⟩
  · exact h.not_isMalformed hmalformed
  · rw [operate_of_left ha] at hfails
    cases hfails
  · exact hl.not_isInert h

theorem operate_of_operands {l r : Operand} (ha : Operand.ofValue a = .ok (some l))
    (hb : Operand.ofValue b = .ok (some r)) :
    o.operate a b = match l.conflict? r with
      | some cause => .error cause
      | none => .ok
          (if o = .dividedBy && r.isZero then none else some (Operand.compute o l r)) := by
  simp only [operate, ha, hb, bind, Except.bind]
  cases l.conflict? r <;> rfl

/-- Behind a left side that can be computed with the right side is looked at. -/
theorem fails_iff_of_operand {l : Operand} (hl : Operand.Of a l)
    (ha : Operand.ofValue a = .ok (some l)) : o.Fails a b ↔ b.IsMalformed ∨ Clashes a b := by
  rcases Operand.ofValue_cases b with ⟨hmalformed, cause, hb⟩ | ⟨hinert, hb⟩ | ⟨r, hr, hb⟩
  · exact ⟨fun _ => .inl hmalformed, fun _ => ⟨cause, by rw [operate, ha, hb]; rfl⟩⟩
  · constructor
    · rintro ⟨cause, hfails⟩
      rw [operate_of_right ha hb] at hfails
      cases hfails
    · rintro (hmalformed | hclash)
      · exact (hinert.not_isMalformed hmalformed).elim
      · exact (hinert.not_clashes a hclash.symm).elim
  · rw [or_iff_right hr.not_isMalformed, ← hl.conflict?_iff hr, Fails, o.operate_of_operands ha hb]
    cases l.conflict? r with
    | none => simp
    | some cause => simp

theorem fails_iff_or :
    o.Fails a b ↔ a.IsMalformed ∨ ¬ a.IsInert ∧ (b.IsMalformed ∨ Clashes a b) := by
  rcases Operand.ofValue_cases a with ⟨hmalformed, -⟩ | ⟨hinert, -⟩ | ⟨l, hl, ha⟩
  · exact ⟨fun _ => .inl hmalformed, fun _ => o.fails_of_isMalformed hmalformed⟩
  · have hmalformed := hinert.not_isMalformed
    simp [o.not_fails_of_isInert hinert, hmalformed, hinert]
  · rw [o.fails_iff_of_operand hl ha, or_iff_right hl.not_isMalformed]
    exact (and_iff_right hl.not_isInert).symm

/-- An operation fails if its operands clash or one of them is malformed, unless that one
stands on the right of a text that is left alone. So it fails on both sides or on none, unless
one operand is malformed and the other such a text. -/
theorem fails_iff (o : Operator) (a b : Value) :
    (o.Fails a b ↔
        (Clashes a b ∨ a.IsMalformed ∨ b.IsMalformed) ∧ ¬ (a.IsInert ∧ b.IsMalformed)) ∧
      ((o.Fails a b ↔ o.Fails b a) ↔
        ¬ (a.IsInert ∧ b.IsMalformed) ∧ ¬ (b.IsInert ∧ a.IsMalformed)) := by
  have hcomm : Clashes b a ↔ Clashes a b := ⟨.symm, .symm⟩
  have hleft : a.IsInert → ¬ a.IsMalformed ∧ ¬ Clashes a b := fun h =>
    ⟨h.not_isMalformed, h.not_clashes b⟩
  have hright : b.IsInert → ¬ b.IsMalformed ∧ ¬ Clashes a b := fun h =>
    ⟨h.not_isMalformed, fun hclash => h.not_clashes a hclash.symm⟩
  rw [o.fails_iff_or, o.fails_iff_or, hcomm]
  by_cases ha : a.IsInert
  · by_cases hb : b.IsInert
    · simp [ha, hb, hleft ha, hright hb]
    · simp [ha, hb, hleft ha]
  · by_cases hb : b.IsInert
    · simp [ha, hb, hright hb]
    · grind

/-- A malformed color is passed over on the right of a keyword, and is not on its left. -/
theorem not_fails_comm :
    (Value.ofWord "#abcd").IsMalformed ∧ ¬ plus.Fails (.ofWord "auto") (.ofWord "#abcd") ∧
      plus.Fails (.ofWord "#abcd") (.ofWord "auto") := by
  have hmalformed : (Value.ofWord "#abcd").IsMalformed := rfl
  have hinert : (Value.ofWord "auto").IsInert := ⟨by decide, by decide⟩
  exact ⟨hmalformed, plus.not_fails_of_isInert hinert, plus.fails_of_isMalformed hmalformed⟩

end Operator

end Cascade
