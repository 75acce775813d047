import Cascade.Proofs.Arguments
import Cascade.Proofs.Operands

/-!
# The unit of a call

`min`, `max` and `avg` read their arguments from left to right and keep the first unit they
meet. What comes out of it does not depend on the order: the arguments are accepted if none of
them is a color or a malformed one and all their units are equal, and the result has that unit
(`Builtin.eval_shared_unit`). A percentage is a unit like any other here, and a plain number
or a text has none.
-/

namespace Cascade

/-- The unit or percent sign that a value brings along. -/
def Value.mark? : Value → Option NumberUnit
  | quantity q => if q.unit = .plain then none else some q.unit
  | color _ | text _ => none

/-- The units and percent signs among the values. -/
def marks (values : List Value) : List NumberUnit := values.filterMap Value.mark?

theorem mem_marks {values : List Value} {u : NumberUnit} :
    u ∈ marks values ↔ ∃ v ∈ values, v.mark? = some u := List.mem_filterMap

namespace Value

theorem counts_iff (v : Value) :
    (∃ x, Argument.of? v = some (.number x)) ↔ ¬ v.IsColor ∧ ¬ v.IsMalformed := by
  cases v with
  | quantity q => simp [Argument.of?, IsColor, IsMalformed]
  | color c => simp [Argument.of?, IsColor]
  | text t =>
      by_cases hhash : t.head? = some '#'
      · simp [Argument.of?, IsMalformed, hhash]
      · simp [Argument.of?, IsColor, IsMalformed, hhash]

/-- What is no color brings a kind along only as a unit. -/
theorem kind?_eq {v : Value} (h : ¬ v.IsColor) : v.kind? = v.mark?.map .unit := by
  cases v with
  | quantity q => by_cases hplain : q.unit = .plain <;> simp [kind?, mark?, hplain]
  | color c => exact (h trivial).elim
  | text t => rfl

end Value

/-- Arguments go together if none is a color, none is malformed, and their units are equal. -/
theorem goTogether_iff {values : List Value} :
    GoTogether values ↔ (∀ v ∈ values, ¬ v.IsColor ∧ ¬ v.IsMalformed) ∧
      ∀ u ∈ marks values, ∀ u' ∈ marks values, u = u' := by
  have hcounts : (∀ v ∈ values, ∃ x, Argument.of? v = some (.number x)) ↔
      ∀ v ∈ values, ¬ v.IsColor ∧ ¬ v.IsMalformed :=
    forall₂_congr fun v _ => v.counts_iff
  constructor
  · intro h
    have hproper := hcounts.mp h.counts
    refine ⟨hproper, fun u hu u' hu' => ?_⟩
    obtain ⟨v, hv, hmark⟩ := mem_marks.mp hu
    obtain ⟨v', hv', hmark'⟩ := mem_marks.mp hu'
    have hkind : v.kind? = some (.unit u) := by rw [Value.kind?_eq (hproper v hv).1, hmark]; rfl
    have hkind' : v'.kind? = some (.unit u') := by
      rw [Value.kind?_eq (hproper v' hv').1, hmark']; rfl
    exact Kind.unit.inj (h.same_unit v hv v' hv' _ hkind _ hkind')
  · rintro ⟨hproper, hsame⟩
    refine ⟨hcounts.mpr hproper, fun v hv v' hv' k hk k' hk' => ?_⟩
    rw [Value.kind?_eq (hproper v hv).1] at hk
    rw [Value.kind?_eq (hproper v' hv').1] at hk'
    obtain ⟨u, hmark, rfl⟩ := Option.map_eq_some_iff.mp hk
    obtain ⟨u', hmark', rfl⟩ := Option.map_eq_some_iff.mp hk'
    rw [hsame u (mem_marks.mpr ⟨v, hv, hmark⟩) u' (mem_marks.mpr ⟨v', hv', hmark'⟩)]

namespace Builtin

/-- The unit of the numbers is that of any argument that has one, or the one expected before
them; without either they are plain. -/
theorem numbers_unit {b : Builtin} : ∀ {values : List Value} {kind : Option Kind}
    {xs : List Float} {unit : NumberUnit}, b.numbers kind values = .ok (xs, unit) →
      (∀ k ∈ kind, unit = Argument.unitOf (some k)) ∧ (∀ u ∈ marks values, unit = u) ∧
        (kind = none → marks values = [] → unit = .plain)
  | [], kind, xs, unit, h => by
      cases h
      refine ⟨?_, fun _ => List.not_mem_nil.elim, ?_⟩
      · rintro k rfl
        rfl
      · rintro rfl -
        rfl
  | v :: rest, kind, xs, unit, h => by
      obtain ⟨x, xs', kind', unit', ha, hrest, hpair⟩ := numbers_cons_eq_ok_iff.mp h
      cases hpair
      obtain ⟨hof, hexpected, rfl⟩ := Argument.ofValue_eq_ok_iff.mp ha
      obtain ⟨hkind, hmarks, hplain⟩ := numbers_unit hrest
      have hcolor := (v.counts_iff.mp ⟨x, hof⟩).1
      -- What is expected from here on is the unit of this argument, if it has one.
      cases hmark : v.mark? with
      | none =>
          have hor : v.kind?.or kind = kind := by rw [Value.kind?_eq hcolor, hmark]; rfl
          have hrest : marks (v :: rest) = marks rest := List.filterMap_cons_none hmark
          rw [hor] at hkind hplain
          rw [hrest]
          exact ⟨hkind, hmarks, hplain⟩
      | some u =>
          have hv : v.kind? = some (.unit u) := by rw [Value.kind?_eq hcolor, hmark]; rfl
          have hrest : marks (v :: rest) = u :: marks rest := List.filterMap_cons_some hmark
          have hunit : unit = u := hkind (.unit u) (by rw [hv]; rfl)
          rw [hrest]
          refine ⟨fun k hk => ?_, List.forall_mem_cons.mpr ⟨hunit, hmarks⟩, nofun⟩
          rw [hexpected k hk _ hv]
          exact hunit

/-- The functions that take any number of numbers. -/
def TakesAll : Builtin → Prop
  | min | max | avg => True
  | choose | ceil | floor | round | lighten | darken | greyscale => False

theorem TakesAll.needsNumber {b : Builtin} (h : b.TakesAll) : b.needsNumber 0 = true := by
  cases b with
  | min | max | avg => rfl
  | choose | ceil | floor | round | lighten | darken | greyscale => exact h.elim

theorem TakesAll.numberArguments {b : Builtin} (h : b.TakesAll) (values : List Value) :
    b.numberArguments values = values := by
  cases b with
  | min | max | avg => rfl
  | choose | ceil | floor | round | lighten | darken | greyscale => exact h.elim

section

variable {b : Builtin} {values : List Value}

theorem TakesAll.eval_ok_iff (h : b.TakesAll) (hne : values ≠ []) :
    (∃ v, b.eval values = .ok v) ↔ (∀ v ∈ values, ¬ v.IsColor ∧ ¬ v.IsMalformed) ∧
      ∀ u ∈ marks values, ∀ u' ∈ marks values, u = u' := by
  rw [← goTogether_iff, (Builtin.eval_ok_iff h.needsNumber (List.length_pos_iff.mpr hne)).1,
    h.numberArguments]

/-- The result is a number with the unit of the arguments. -/
theorem TakesAll.eval_unit (h : b.TakesAll) {v : Value} (hv : b.eval values = .ok v) :
    ∃ x unit, v = .number x unit ∧ (∀ u ∈ marks values, unit = u) ∧
      (marks values = [] → unit = .plain) := by
  obtain ⟨x, xs, unit, rfl, hnumbers⟩ :
      ∃ x xs unit, v = .number x unit ∧ b.someNumbers values = .ok (xs, unit) := by
    cases b with
    | min | max | avg =>
        obtain ⟨⟨xs, unit⟩, hnumbers, hv⟩ := bind_eq_ok hv
        cases hv
        exact ⟨_, xs, unit, rfl, hnumbers⟩
    | choose | ceil | floor | round | lighten | darken | greyscale => exact h.elim
  rw [someNumbers] at hnumbers
  split at hnumbers
  · cases hnumbers
  · obtain ⟨-, hmarks, hplain⟩ := numbers_unit hnumbers
    exact ⟨x, unit, rfl, hmarks, hplain rfl⟩

/-- A function of any number of numbers succeeds if its arguments are neither colors nor
malformed and share one unit, which is that of the result. So the order of the arguments
decides neither whether it succeeds nor the unit. -/
theorem eval_shared_unit (h : b.TakesAll) (hne : values ≠ []) :
    ((∃ v, b.eval values = .ok v) ↔ (∀ v ∈ values, ¬ v.IsColor ∧ ¬ v.IsMalformed) ∧
        ∀ u ∈ marks values, ∀ u' ∈ marks values, u = u') ∧
      (∀ v, b.eval values = .ok v → ∃ x unit, v = .number x unit ∧
        (∀ u ∈ marks values, unit = u) ∧ (marks values = [] → unit = .plain)) ∧
      ∀ values', values.Perm values' →
        ((∃ cause, b.eval values = .error cause) ∧ ∃ cause, b.eval values' = .error cause) ∨
          ∃ x x' unit, b.eval values = .ok (.number x unit) ∧
            b.eval values' = .ok (.number x' unit) := by
  refine ⟨h.eval_ok_iff hne, fun v hv => h.eval_unit hv, fun values' hperm => ?_⟩
  have hmarks : (marks values).Perm (marks values') := hperm.filterMap _
  have hiff : (∃ v, b.eval values = .ok v) ↔ ∃ v, b.eval values' = .ok v := by
    have hne' : values' ≠ [] := fun hnil => hne (List.perm_nil.mp (hnil ▸ hperm))
    rw [h.eval_ok_iff hne, h.eval_ok_iff hne']
    simp only [hperm.mem_iff, hmarks.mem_iff]
  cases hv : b.eval values with
  | error cause =>
      cases hv' : b.eval values' with
      | error cause' => exact .inl ⟨⟨cause, rfl⟩, cause', rfl⟩
      | ok v' =>
          obtain ⟨v, hok⟩ := hiff.mpr ⟨v', hv'⟩
          cases hv.symm.trans hok
  | ok v =>
      obtain ⟨v', hv'⟩ := hiff.mp ⟨v, hv⟩
      obtain ⟨x, unit, rfl, hunit, hplain⟩ := h.eval_unit hv
      obtain ⟨x', unit', rfl, hunit', hplain'⟩ := h.eval_unit hv'
      have hsame : unit' = unit := by
        by_cases hnil : marks values = []
        · rw [hplain hnil, hplain' (List.nil_perm.mp (hnil ▸ hmarks))]
        · obtain ⟨u, hu⟩ := List.exists_mem_of_ne_nil _ hnil
          rw [hunit u hu, hunit' u (hmarks.mem_iff.mp hu)]
      exact .inr ⟨x, x', unit, rfl, hsame ▸ hv'⟩

/-- A plain number and a keyword fit the unit of the others, and stand in front of them just as
well as behind. -/
theorem eval_shared_unit_px :
    max.TakesAll ∧ [Value.number 1.0 (.known .px), .number 2.0 .plain, .text "auto"] ≠ [] ∧
      ∃ x x', max.eval [.number 1.0 (.known .px), .number 2.0 .plain, .text "auto"] =
          .ok (.number x (.known .px)) ∧
        max.eval [.text "auto", .number 2.0 .plain, .number 1.0 (.known .px)] =
          .ok (.number x' (.known .px)) := by
  have hne : [Value.number 1.0 (.known .px), .number 2.0 .plain, .text "auto"] ≠ [] :=
    List.cons_ne_nil _ _
  have hmarks : marks [Value.number 1.0 (.known .px), .number 2.0 .plain, .text "auto"] =
      [.known .px] := rfl
  obtain ⟨hiff, hunit, horder⟩ := eval_shared_unit (b := max) trivial hne
  have hsame : ∀ u ∈ [NumberUnit.known .px], ∀ u' ∈ [NumberUnit.known .px], u = u' := by simp
  obtain ⟨v, hv⟩ := hiff.mpr
    ⟨by simp [Value.number, Value.IsColor, Value.IsMalformed], hmarks ▸ hsame⟩
  refine ⟨trivial, hne, ?_⟩
  rcases horder _ (List.reverse_perm _).symm with ⟨⟨cause, herror⟩, -⟩ | ⟨x, x', unit, hok, hok'⟩
  · cases hv.symm.trans herror
  · obtain ⟨y, unit', hnumber, hmark, -⟩ := hunit _ hok
    cases hnumber
    obtain rfl := hmark _ (hmarks ▸ List.mem_singleton_self _)
    exact ⟨x, x', hok, hok'⟩

end

end Builtin

end Cascade
