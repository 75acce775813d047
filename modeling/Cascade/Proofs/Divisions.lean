import Cascade.Proofs.Operands

/-!
# Divisors

A division is refused if it would divide by zero, and the expression stays as it was written.
To say what a division divides by when it is not refused, it is done again with a record of
every divisor (`Operator.divide`), the hundreds of percentages included.

The test for zero looks at a number and at the three channels of a color, and not at its alpha
channel. So every divisor on the record is other than zero exactly if the right side is no
color with an alpha channel of zero (`Operator.divide_exact`).
-/

namespace Cascade

def IsNonzero (x : Float) : Prop := (x == 0.0) = false

instance (x : Float) : Decidable (IsNonzero x) := inferInstanceAs (Decidable (_ = false))

/-! ## Computing with a record -/

/-- A computation that keeps a record of what it divides by. -/
abbrev Recorded := StateM (List Float)

namespace Recorded

variable {α β : Type} {m : Recorded α} {a : α} {p q : Prop}

def divide (x y : Float) : Recorded Float := do
  modify (y :: ·)
  return x / y

/-- The computation comes to `a`, and what it puts on the record is other than zero exactly if
the condition holds. -/
structure Comes (m : Recorded α) (a : α) (p : Prop) : Prop where
  value : ∀ record, (m record).1 = a
  divisors : ∀ record, (∀ d ∈ (m record).2, IsNonzero d) ↔ p ∧ ∀ d ∈ record, IsNonzero d

namespace Comes

theorem pure (a : α) : Comes (Pure.pure a) a True :=
  ⟨fun _ => rfl, fun _ => (and_iff_right trivial).symm⟩

theorem divide (x y : Float) : Comes (divide x y) (x / y) (IsNonzero y) :=
  ⟨fun _ => rfl, fun _ => List.forall_mem_cons⟩

theorem bind {f : α → Recorded β} {b : β} (hm : Comes m a p) (hf : Comes (f a) b q) :
    Comes (m >>= f) b (p ∧ q) := by
  have hrun (record : List Float) : (m >>= f) record = f a (m record).2 :=
    congrArg (f · (m record).2) (hm.value record)
  refine ⟨fun record => ?_, fun record => ?_⟩
  · rw [hrun, hf.value]
  · rw [hrun, hf.divisors, hm.divisors, and_left_comm, and_assoc]

theorem map (f : α → β) (hm : Comes m a p) : Comes (f <$> m) (f a) p :=
  ⟨fun record => congrArg f (hm.value record), hm.divisors⟩

theorem congr (hm : Comes m a p) (h : p ↔ q) : Comes m a q :=
  ⟨hm.value, fun record => by rw [hm.divisors, h]⟩

theorem mapM {f : α → Recorded β} {g : α → β} {r : α → Prop} (h : ∀ a, Comes (f a) (g a) (r a))
    (x : Option α) : Comes (x.mapM f) (x.map g) (∀ a ∈ x, r a) := by
  cases x with
  | none => exact (Comes.pure none).congr (by simp)
  | some a => exact ((h a).map some).congr (by simp)

end Comes

end Recorded

open Recorded (Comes)

/-! ## Divisions -/

namespace Operand

/-- `scaled`, with a record. -/
def scaledQuotient (magnitude : Float) (unit : NumberUnit) : Recorded Float :=
  if unit = .percent then Recorded.divide magnitude 100.0 else return magnitude

/-- `channelwise`, with a record. -/
def channelwiseQuotient (a b : Rgb Float) : Recorded (Rgb Float) := do
  let red ← Recorded.divide a.red b.red
  let green ← Recorded.divide a.green b.green
  let blue ← Recorded.divide a.blue b.blue
  return ⟨red, green, blue⟩

/-- The alpha channel of one color divided by that of another, with a record. A channel that
only one of them lacks is 1. -/
def alphaQuotient (alpha alpha' : Option Float) : Recorded (Option Float) :=
  if alpha.isNone && alpha'.isNone then return none
  else some <$> Recorded.divide (alpha.getD 1.0) (alpha'.getD 1.0)

/-- `ofNumbers` for a division, with a record. -/
def numberQuotient (a : Float) (left : NumberUnit) (b : Float) (right : NumberUnit) :
    Recorded Value := do
  let a ← scaledQuotient a left
  let b ← scaledQuotient b right
  let result ← Recorded.divide a b
  match resultUnit left right with
  | .percent =>
    let places := Float.ofNat (Nat.pow 10 2)
    let rounded ← Recorded.divide (result * 100.0 * places).round places
    return .number rounded .percent
  | unit => return .number result unit

/-- `compute` for a division, with a record. -/
def quotient : Operand → Operand → Recorded Value
  | number a left, number b right => numberQuotient a left b right
  | color a, color b => do
    let rgb ← channelwiseQuotient a.rgb b.rgb
    let alpha ← alphaQuotient a.alpha b.alpha
    return bounded rgb alpha
  | color a, number b unit => do
    let b ← scaledQuotient b unit
    let rgb ← channelwiseQuotient a.rgb ⟨b, b, b⟩
    let alpha ← a.alpha.mapM fun alpha => Recorded.divide alpha b
    return bounded rgb alpha
  | number a unit, color b => do
    let a ← scaledQuotient a unit
    let rgb ← channelwiseQuotient ⟨a, a, a⟩ b.rgb
    let alpha ← b.alpha.mapM fun alpha => Recorded.divide a alpha
    return bounded rgb alpha

/-- Dividing by the operand divides by nothing that is zero. -/
def Divides : Operand → Prop
  | number magnitude unit => IsNonzero (scaled magnitude unit)
  | color c => (∀ channel ∈ c.channels, IsNonzero channel) ∧ ∀ alpha ∈ c.alpha, IsNonzero alpha

theorem scaledQuotient_comes (magnitude : Float) (unit : NumberUnit) :
    Comes (scaledQuotient magnitude unit) (scaled magnitude unit) True := by
  have hhundred : IsNonzero 100.0 := by decide
  unfold scaledQuotient scaled
  split
  · exact (Comes.divide magnitude 100.0).congr (iff_true_intro hhundred)
  · exact .pure magnitude

theorem channelwiseQuotient_comes (a b : Rgb Float) :
    Comes (channelwiseQuotient a b) (channelwise .dividedBy a b)
      (∀ channel ∈ [b.red, b.green, b.blue], IsNonzero channel) := by
  have h : Comes (channelwiseQuotient a b) (channelwise .dividedBy a b)
      (IsNonzero b.red ∧ IsNonzero b.green ∧ IsNonzero b.blue ∧ True) :=
    (Comes.divide a.red b.red).bind ((Comes.divide a.green b.green).bind
      ((Comes.divide a.blue b.blue).bind (.pure _)))
  exact h.congr (by simp)

theorem alphaQuotient_comes (alpha alpha' : Option Float) :
    Comes (alphaQuotient alpha alpha')
      (if alpha.isNone && alpha'.isNone then none else some (alpha.getD 1.0 / alpha'.getD 1.0))
      (∀ x ∈ alpha', IsNonzero x) := by
  have hone : IsNonzero 1.0 := by decide
  cases alpha' with
  | some y =>
      have h := (Comes.divide (alpha.getD 1.0) y).map some
      simpa [alphaQuotient] using h
  | none =>
      cases alpha with
      | none => exact (Comes.pure none).congr (by simp)
      | some x => exact ((Comes.divide x 1.0).map some).congr (by simp [hone])

/-- The result of a percentage is divided once more, by a power of ten. -/
theorem numberQuotient_comes (a : Float) (left : NumberUnit) (b : Float) (right : NumberUnit) :
    Comes (numberQuotient a left b right) (ofNumbers .dividedBy a left b right)
      (IsNonzero (scaled b right)) := by
  have hplaces : IsNonzero (Float.ofNat (Nat.pow 10 2)) := by decide
  have hleft := scaledQuotient_comes a left
  have hright := scaledQuotient_comes b right
  have hresult := Comes.divide (scaled a left) (scaled b right)
  unfold numberQuotient ofNumbers
  cases resultUnit left right with
  | percent =>
      have hrounded := Comes.divide (scaled a left / scaled b right * 100.0 *
        Float.ofNat (Nat.pow 10 2)).round (Float.ofNat (Nat.pow 10 2))
      refine .congr (.bind hleft (.bind hright (.bind hresult (.bind hrounded
        (.pure (Value.number _ .percent)))))) ?_
      simp [hplaces]
  | plain | known | other =>
      refine .congr (.bind hleft (.bind hright (.bind hresult (.pure (Value.number _ _))))) ?_
      simp

/-- A division comes to the same with a record, and divides by zero exactly if its right side
has a zero in it. -/
theorem quotient_comes (l r : Operand) :
    Comes (quotient l r) (compute .dividedBy l r) r.Divides := by
  cases l with
  | color a =>
      cases r with
      | color b =>
          have hchannels := channelwiseQuotient_comes a.rgb b.rgb
          have halpha := alphaQuotient_comes a.alpha b.alpha
          refine .congr (.bind hchannels (.bind halpha (.pure (bounded _ _)))) ?_
          simp [Divides, Color.channels]
      | number y unit =>
          have hscaled := scaledQuotient_comes y unit
          have hchannels := channelwiseQuotient_comes a.rgb
            ⟨scaled y unit, scaled y unit, scaled y unit⟩
          have halpha := Comes.mapM (fun x => Comes.divide x (scaled y unit)) a.alpha
          refine .congr (.bind hscaled (.bind hchannels (.bind halpha (.pure (bounded _ _))))) ?_
          constructor
          · rintro ⟨-, hrgb, -⟩
            exact hrgb _ (.head _)
          · intro hscaled
            exact ⟨trivial, by simpa [Divides] using hscaled, fun _ _ => hscaled, trivial⟩
  | number x unit =>
      have hscaled := scaledQuotient_comes x unit
      cases r with
      | color b =>
          have hchannels := channelwiseQuotient_comes
            ⟨scaled x unit, scaled x unit, scaled x unit⟩ b.rgb
          have halpha := Comes.mapM (fun y => Comes.divide (scaled x unit) y) b.alpha
          refine .congr (.bind hscaled (.bind hchannels (.bind halpha (.pure (bounded _ _))))) ?_
          simp [Divides, Color.channels]
      | number y unit' => exact numberQuotient_comes x unit y unit'

/-- What is not taken for zero has a zero in its alpha channel at most. -/
theorem divides_iff {r : Operand} (h : r.isZero = false) :
    r.Divides ↔ ∀ c, r = color c → ∀ alpha ∈ c.alpha, IsNonzero alpha := by
  cases r with
  | color c =>
      have hchannels : ∀ channel ∈ c.channels, IsNonzero channel := fun channel hmem => by
        rw [isZero, List.any_eq_false] at h
        simpa [IsNonzero] using h channel hmem
      simp only [Divides, color.injEq, forall_eq', and_iff_right hchannels]
  | number x unit => exact ⟨fun _ => nofun, fun _ => h⟩

end Operand

/-! ## Dividing values -/

namespace Value

/-- The value counts as a number that is zero, or as a color with a channel that is. -/
def CountsAsZero (v : Value) : Prop := ∃ operand, Operand.Of v operand ∧ operand.isZero = true

def HasZeroAlpha (v : Value) : Prop := ∃ c, v = color c ∧ ∃ alpha ∈ c.alpha, ¬ IsNonzero alpha

end Value

theorem Operand.Of.divides_iff {v : Value} {r : Operand} (hr : Operand.Of v r)
    (h : r.isZero = false) : r.Divides ↔ ¬ v.HasZeroAlpha := by
  rw [Operand.divides_iff h]
  cases hr with
  | color c => simp [Value.HasZeroAlpha]
  | quantity | blank => simp [Value.HasZeroAlpha]

namespace Operator

/-- `operate` for a division, with a record of what was divided by. -/
def divide (left right : Value) : Except Cause (Option (Value × List Float)) := do
  match ← Operand.ofValue left with
  | none => return none
  | some l =>
    match ← Operand.ofValue right with
    | none => return none
    | some r =>
      match l.conflict? r with
      | some cause => throw cause
      | none => return if r.isZero then none else some ((Operand.quotient l r).run [])

/-- How a division ends, and what the one with a record does then. -/
inductive Divided (left right : Value) : Prop
  | failed {cause : Cause} : dividedBy.operate left right = .error cause →
      divide left right = .error cause → Divided left right
  | refused : left.IsInert ∨ right.IsInert ∨ right.CountsAsZero →
      dividedBy.operate left right = .ok none → divide left right = .ok none → Divided left right
  | computed {l r : Operand} : Operand.Of left l → Operand.Of right r → r.isZero = false →
      dividedBy.operate left right = .ok (some (Operand.compute dividedBy l r)) →
      divide left right = .ok (some ((Operand.quotient l r).run [])) → Divided left right

theorem divided (left right : Value) : Divided left right := by
  rcases Operand.ofValue_cases left with ⟨-, cause, ha⟩ | ⟨hinert, ha⟩ | ⟨l, hl, ha⟩
  · exact .failed (by rw [operate, ha]; rfl) (by rw [divide, ha]; rfl)
  · exact .refused (.inl hinert) (operate_of_left ha) (by rw [divide, ha]; rfl)
  rcases Operand.ofValue_cases right with ⟨-, cause, hb⟩ | ⟨hinert, hb⟩ | ⟨r, hr, hb⟩
  · exact .failed (by rw [operate, ha, hb]; rfl) (by rw [divide, ha, hb]; rfl)
  · exact .refused (.inr (.inl hinert)) (operate_of_right ha hb) (by rw [divide, ha, hb]; rfl)
  have hoperate := dividedBy.operate_of_operands ha hb
  have hdivide : divide left right = match l.conflict? r with
      | some cause => .error cause
      | none => .ok (if r.isZero then none else some ((Operand.quotient l r).run [])) := by
    simp only [divide, ha, hb, bind, Except.bind]
    cases l.conflict? r <;> rfl
  cases hconflict : l.conflict? r with
  | some cause =>
      rw [hconflict] at hoperate hdivide
      exact .failed hoperate hdivide
  | none =>
      rw [hconflict] at hoperate hdivide
      cases hzero : r.isZero with
      | true =>
          rw [hzero] at hoperate hdivide
          exact .refused (.inr (.inr ⟨r, hr, hzero⟩)) hoperate hdivide
      | false =>
          rw [hzero] at hoperate hdivide
          exact .computed hl hr hzero hoperate hdivide

/-- A division with a record is the division itself, and everything on the record is other
than zero exactly if the right side is no color with an alpha channel of zero. A division that
does not fail is refused for a text on either side or a zero on the right, and then it is
written as it was. -/
theorem divide_exact (left right : Value) :
    dividedBy.operate left right = (divide left right).map (Option.map Prod.fst) ∧
      (∀ v divisors, divide left right = .ok (some (v, divisors)) →
        ((∀ d ∈ divisors, IsNonzero d) ↔ ¬ right.HasZeroAlpha)) ∧
      (dividedBy.operate left right = .ok none ↔ ¬ dividedBy.Fails left right ∧
        (left.IsInert ∨ right.IsInert ∨ right.CountsAsZero)) ∧
      ∀ l r : Arithmetic Computed, l.operand = .ok left → r.operand = .ok right →
        dividedBy.operate left right = .ok none →
        (Arithmetic.binary l dividedBy r).operand =
          .ok (.text (Arithmetic.written left.css dividedBy right.css)) := by
  refine ⟨?_, ?_, ?_, fun l r hl hr => Arithmetic.operand_of_binary hl hr⟩
  · cases divided left right with
    | failed hoperate hdivide | refused _ hoperate hdivide => rw [hoperate, hdivide]; rfl
    | @computed l r _ _ _ hoperate hdivide =>
        rw [hoperate, hdivide]
        exact congrArg (Except.ok ∘ some) ((Operand.quotient_comes l r).value []).symm
  · intro v divisors hsome
    cases divided left right with
    | failed _ hdivide | refused _ _ hdivide =>
        rw [hdivide] at hsome
        cases hsome
    | @computed l r _ hr hzero _ hdivide =>
        obtain ⟨-, hdivisors⟩ : _ ∧ ((Operand.quotient l r).run []).2 = divisors := by
          rw [hdivide] at hsome
          exact Prod.ext_iff.mp (Option.some.inj (Except.ok.inj hsome))
        rw [← hr.divides_iff hzero, ← hdivisors]
        exact ((Operand.quotient_comes l r).divisors []).trans (and_iff_left (by simp))
  · cases divided left right with
    | failed hoperate => simp [Fails, hoperate]
    | refused hwhy hoperate => simp [Fails, hoperate, hwhy]
    | @computed l r hl hr hzero hoperate =>
        have hnot : ¬ right.CountsAsZero := by
          rintro ⟨r', hr', hzero'⟩
          rw [hr.unique hr', hzero'] at hzero
          cases hzero
        simp [hoperate, hl.not_isInert, hr.not_isInert, hnot]

/-- A color with an alpha channel divided by one without, and that one divided by zero. -/
theorem divide_exact_color :
    let a : Value := .color ⟨⟨10.0, 20.0, 30.0⟩, some 0.5, some "rgba(10, 20, 30, 0.5)"⟩
    let b : Value := .color ⟨⟨1.0, 2.0, 3.0⟩, none, some "#010203"⟩
    let zero : Value := .number 0.0 .plain
    (∃ v divisors, divide a b = .ok (some (v, divisors)) ∧ ∀ d ∈ divisors, IsNonzero d) ∧
      (Arithmetic.binary (.term (.ofText b "#010203")) dividedBy
        (.term (.ofText zero "0"))).operand = .ok (.text "#010203 / 0") := by
  intro a b zero
  have hopaque : ¬ b.HasZeroAlpha := by simp [b, Value.HasZeroAlpha]
  have hzero : zero.IsZero := ⟨0.0, .plain, rfl, rfl, by decide⟩
  have hwritten : Arithmetic.written b.css dividedBy zero.css = "#010203 / 0" := by decide +kernel
  refine ⟨⟨_, _, rfl, ((divide_exact a b).2.1 _ _ rfl).mpr hopaque⟩, ?_⟩
  rw [← hwritten]
  exact (divide_exact b zero).2.2.2 (.term (.ofText b "#010203")) (.term (.ofText zero "0"))
    rfl rfl (operate_zero hzero rfl)

/-- A color whose channels are not zero is divided by, whatever its alpha channel is. -/
theorem divide_zero_alpha :
    let a : Value := .color ⟨⟨10.0, 20.0, 30.0⟩, some 0.5, some "rgba(10, 20, 30, 0.5)"⟩
    let b : Value := .color ⟨⟨1.0, 2.0, 3.0⟩, some 0.0, some "rgba(1, 2, 3, 0)"⟩
    ∃ v divisors, divide a b = .ok (some (v, divisors)) ∧ ∃ d ∈ divisors, ¬ IsNonzero d :=
  ⟨_, _, rfl, 0.0, .head _, by decide⟩

end Operator

end Cascade
