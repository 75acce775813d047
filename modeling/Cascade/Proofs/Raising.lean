import Cascade.Proofs.Comparisons
import Cascade.Proofs.Siblings

/-!
# What is warned about

A drafting that warns adds to a log, in which a span stands once, with the warning that came
first. `Drafting.Raises` says of a drafting what it comes to and which warnings it raises,
before any is left out: they are the same from any draft, whatever the log holds. A step that
goes after another raises its warnings if the first comes to a value (`Raises.bind`), and a
list of steps raises those of each step that is come to (`Raises.mapM`, `Raises.forM`). The
turn of a rule among its siblings is such steps in a row (`Siblings.turn_raises`).

A warning that is raised is logged as long as none of another kind is raised with its span
(`Warnings.mem_record`).
-/

namespace Cascade

/-! ## Logs -/

namespace Warnings

/-- The log with the warnings added one after the other. -/
def record (log raised : Warnings) : Warnings := raised.foldl (fun log x => log.add x.1 x.2) log

variable {log raised raised' : Warnings} {span : Span} {w : Warning} {x : Span × Warning}

theorem record_append : log.record (raised ++ raised') = (log.record raised).record raised' :=
  List.foldl_append

theorem mem_add : x ∈ log.add span w ↔ x ∈ log ∨ x = (span, w) ∧ ∀ y ∈ log, y.1 ≠ span := by
  unfold add
  split
  · rename_i hany
    obtain ⟨y, hy, hspan⟩ := List.any_eq_true.mp hany
    exact ⟨.inl, Or.rec id fun h => (h.2 y hy (beq_iff_eq.mp hspan)).elim⟩
  · rename_i hany
    have habsent : ∀ y ∈ log, y.1 ≠ span := fun y hy heq =>
      hany (List.any_eq_true.mpr ⟨y, hy, beq_iff_eq.mpr heq⟩)
    rw [List.mem_append, List.mem_singleton, and_iff_left habsent]

/-- No two warnings of a log have the same span. -/
theorem nodup_add (h : (log.map Prod.fst).Nodup) : ((log.add span w).map Prod.fst).Nodup := by
  unfold add
  split
  · exact h
  · rename_i hany
    rw [List.map_append]
    refine h.append (List.nodup_singleton _) fun other hmem hother => hany ?_
    obtain ⟨y, hy, rfl⟩ := List.mem_map.mp hmem
    exact List.any_eq_true.mpr ⟨y, hy, beq_iff_eq.mpr (List.mem_singleton.mp hother)⟩

theorem nodup_record : ∀ raised log : Warnings, (log.map Prod.fst).Nodup →
    ((log.record raised).map Prod.fst).Nodup
  | [], _, h => h
  | x :: rest, log, h => nodup_record rest (log.add x.1 x.2) (nodup_add h)

/-- What is logged stays, and is either old or raised. -/
theorem record_spec : ∀ raised log : Warnings, log ⊆ log.record raised ∧
    (∀ x ∈ log.record raised, x ∈ log ∨ x ∈ raised) ∧
    ∀ x ∈ raised, ∃ w, (x.1, w) ∈ log.record raised
  | [], log => ⟨List.Subset.refl _, fun _ => .inl, fun _ => List.not_mem_nil.elim⟩
  | y :: rest, log => by
      obtain ⟨hkept, hfrom, hall⟩ := record_spec rest (log.add y.1 y.2)
      refine ⟨fun x hx => hkept (mem_add.mpr (.inl hx)), fun x hx => ?_, fun x hx => ?_⟩
      · rcases hfrom x hx with hx | hx
        · rcases mem_add.mp hx with hx | ⟨rfl, -⟩
          · exact .inl hx
          · exact .inr (List.mem_cons_self ..)
        · exact .inr (List.mem_cons_of_mem _ hx)
      · rcases List.mem_cons.mp hx with rfl | hx
        · by_cases hlogged : ∃ z ∈ log, z.1 = x.1
          · obtain ⟨⟨_, w⟩, hz, rfl⟩ := hlogged
            exact ⟨w, hkept (mem_add.mpr (.inl hz))⟩
          · refine ⟨x.2, hkept (mem_add.mpr (.inr ⟨rfl, fun z hz heq => hlogged ?_⟩))⟩
            exact ⟨z, hz, heq⟩
        · exact hall x hx

/-- If a span tells what is raised, all that is raised is logged, and nothing else. -/
theorem mem_record (h : ∀ x ∈ raised, ∀ y ∈ raised, x.1 = y.1 → x = y) :
    x ∈ record [] raised ↔ x ∈ raised := by
  obtain ⟨-, hfrom, hall⟩ := record_spec raised []
  refine ⟨fun hx => (hfrom x hx).resolve_left List.not_mem_nil, fun hx => ?_⟩
  obtain ⟨w, hw⟩ := hall x hx
  have hraised := (hfrom _ hw).resolve_left List.not_mem_nil
  rwa [h x hx _ hraised rfl]

end Warnings

/-! ## Draftings that warn -/

/-- From any draft the outcome is the same, and the warnings that are raised are those that
the predicate says. -/
def Drafting.Raises {α : Type} (m : Drafting α) (e : Except Fault α)
    (P : Span → Warning → Prop) : Prop :=
  ∃ raised : Warnings, (∀ span w, (span, w) ∈ raised ↔ P span w) ∧
    ∀ d : Draft, (m.run.run d).1 = e ∧ (m.run.run d).2.warnings = d.warnings.record raised

/-- What is done with the elements of the list before the number `i` comes to a value. -/
def Through {α β : Type} (g : α → Except Fault β) (l : List α) (i : Nat) : Prop :=
  ∀ j < i, ∀ a, l[j]? = some a → ∃ b, g a = .ok b

theorem through_succ {α β : Type} {g : α → Except Fault β} {a : α} {l : List α} {i : Nat} :
    Through g (a :: l) (i + 1) ↔ (∃ b, g a = .ok b) ∧ Through g l i := by
  refine ⟨fun h => ⟨h 0 (Nat.succ_pos i) a rfl, fun j hj b hb => h (j + 1) (by omega) b hb⟩, ?_⟩
  rintro ⟨hfirst, hrest⟩ (_ | j) hj b hb
  · cases hb
    exact hfirst
  · exact hrest j (by omega) b hb

namespace Drafting.Raises

variable {α β γ : Type} {m : Drafting α} {e e' : Except Fault α} {P Q : Span → Warning → Prop}

theorem iff (h : m.Raises e P) (hiff : ∀ span w, P span w ↔ Q span w) : m.Raises e Q := by
  obtain ⟨raised, hraised, hrun⟩ := h
  exact ⟨raised, fun span w => (hraised span w).trans (hiff span w), hrun⟩

/-- The outcome may be known from elsewhere. -/
theorem outcome (h : m.Raises e P) (h' : ∀ d, (m.run.run d).1 = e') : m.Raises e' P := by
  obtain ⟨raised, hraised, hrun⟩ := h
  exact ⟨raised, hraised, fun d => ⟨h' d, (hrun d).2⟩⟩

/-- A step that does not touch the warnings. -/
theorem silent (h : ∀ d, (m.run.run d).1 = e ∧ (m.run.run d).2.warnings = d.warnings) :
    m.Raises e fun _ _ => False :=
  ⟨[], by simp, h⟩

theorem pure (a : α) : Raises (Pure.pure a) (.ok a) fun _ _ => False :=
  silent fun _ => ⟨rfl, rfl⟩

theorem throw (fault : Fault) :
    Raises (MonadExcept.throw fault : Drafting α) (.error fault) fun _ _ => False :=
  silent fun _ => ⟨rfl, rfl⟩

theorem lift (e : Except Fault α) : Raises (liftM e) e fun _ _ => False := by
  cases e with
  | error fault => exact .throw fault
  | ok a => exact .pure a

theorem write (f : Css.Writer → Css.Writer) : Raises (Drafting.write f) (.ok ⟨⟩) fun _ _ => False :=
  silent fun _ => ⟨rfl, rfl⟩

theorem warn (span : Span) (w : Warning) :
    Raises (Drafting.warn span w) (.ok ⟨⟩) fun span' w' => span' = span ∧ w' = w :=
  ⟨[(span, w)], by simp [Prod.ext_iff], fun _ => ⟨rfl, rfl⟩⟩

/-- What comes second is only come to if the first comes to a value. -/
theorem bind {f : α → Drafting β} {g : α → Except Fault β} {Q : α → Span → Warning → Prop}
    (h : m.Raises e P) (hf : ∀ a, e = .ok a → (f a).Raises (g a) (Q a)) :
    (m >>= f).Raises (e >>= g) fun span w => P span w ∨ ∃ a, e = .ok a ∧ Q a span w := by
  obtain ⟨raised, hraised, hm⟩ := h
  cases e with
  | error fault =>
      refine ⟨raised, by simpa using hraised, fun d => ?_⟩
      obtain ⟨houtcome, hwarnings⟩ := hm d
      have hrun := run_bind_error (f := f) (Prod.ext houtcome rfl)
      rw [hrun]
      exact ⟨rfl, hwarnings⟩
  | ok a =>
      obtain ⟨raised', hraised', hfa⟩ := hf a rfl
      refine ⟨raised ++ raised', fun span w => ?_, fun d => ?_⟩
      · simp [hraised, hraised']
      · obtain ⟨houtcome, hwarnings⟩ := hm d
        obtain ⟨houtcome', hwarnings'⟩ := hfa (m.run.run d).2
        rw [run_bind_ok (f := f) (Prod.ext houtcome rfl), Warnings.record_append, ← hwarnings]
        exact ⟨houtcome', hwarnings'⟩

/-- What is written before does not matter. -/
theorem after_write {m : Drafting PUnit} {e : Except Fault PUnit} (h : m.Raises e P)
    (f : Css.Writer → Css.Writer) : (Drafting.write f >>= fun _ => m).Raises e P := by
  obtain ⟨raised, hraised, hrun⟩ := h
  refine ⟨raised, hraised, fun d => ?_⟩
  have hwrite : (Drafting.write f).run.run d = (.ok ⟨⟩, { d with writer := f d.writer }) := rfl
  rw [run_bind_ok hwrite]
  exact hrun _

theorem mapM {f : γ → Drafting β} {g : γ → Except Fault β} :
    ∀ {l : List γ} {P : Nat → γ → Span → Warning → Prop},
      (∀ i a, l[i]? = some a → (f a).Raises (g a) (P i a)) →
      (l.mapM f).Raises (l.mapM g) fun span w =>
        ∃ i a, l[i]? = some a ∧ Through g l i ∧ P i a span w
  | [], _, _ => (pure []).iff (by simp)
  | a :: rest, P, h => by
      rw [List.mapM_cons, List.mapM_cons]
      have hrest := Raises.mapM fun i b hb => h (i + 1) b hb
      refine ((h 0 a rfl).bind fun b _ => hrest.bind fun bs _ => .pure (b :: bs)).iff
        fun span w => ?_
      constructor
      · rintro (hfirst | ⟨b, hb, ⟨i, c, hc, hthrough, hP⟩ | ⟨_, _, hfalse⟩⟩)
        · exact ⟨0, a, rfl, nofun, hfirst⟩
        · exact ⟨i + 1, c, hc, through_succ.mpr ⟨⟨b, hb⟩, hthrough⟩, hP⟩
        · exact hfalse.elim
      · rintro ⟨_ | i, c, hc, hthrough, hP⟩
        · cases hc
          exact .inl hP
        · obtain ⟨⟨b, hb⟩, hthrough⟩ := through_succ.mp hthrough
          exact .inr ⟨b, hb, .inl ⟨i, c, hc, hthrough, hP⟩⟩

theorem forM {f : γ → Drafting PUnit} {g : γ → Except Fault PUnit} :
    ∀ {l : List γ} {P : Nat → γ → Span → Warning → Prop},
      (∀ i a, l[i]? = some a → (f a).Raises (g a) (P i a)) →
      (forM l f : Drafting PUnit).Raises (forM l g) fun span w =>
        ∃ i a, l[i]? = some a ∧ Through g l i ∧ P i a span w
  | [], _, _ => (pure PUnit.unit).iff (by simp)
  | a :: rest, P, h => by
      rw [List.forM_cons, List.forM_cons]
      have hrest := Raises.forM fun i b hb => h (i + 1) b hb
      refine ((h 0 a rfl).bind fun _ _ => hrest).iff fun span w => ?_
      constructor
      · rintro (hfirst | ⟨b, hb, i, c, hc, hthrough, hP⟩)
        · exact ⟨0, a, rfl, nofun, hfirst⟩
        · exact ⟨i + 1, c, hc, through_succ.mpr ⟨⟨b, hb⟩, hthrough⟩, hP⟩
      · rintro ⟨_ | i, c, hc, hthrough, hP⟩
        · cases hc
          exact .inl hP
        · obtain ⟨⟨b, hb⟩, hthrough⟩ := through_succ.mp hthrough
          exact .inr ⟨b, hb, i, c, hc, hthrough, hP⟩

/-- Writing afterwards changes neither the outcome nor the warnings. -/
theorem run_bind_write (m : Drafting PUnit) (f : Css.Writer → Css.Writer) (d : Draft) :
    ((m >>= fun _ => Drafting.write f).run.run d).1 = (m.run.run d).1 ∧
      ((m >>= fun _ => Drafting.write f).run.run d).2.warnings = (m.run.run d).2.warnings := by
  cases hm : (m.run.run d).1 with
  | error fault =>
      rw [run_bind_error (Prod.ext hm rfl)]
      exact ⟨rfl, rfl⟩
  | ok =>
      rw [run_bind_ok (Prod.ext hm rfl)]
      exact ⟨rfl, rfl⟩

/-- An at-rule raises what its contents raise. -/
theorem atRule {m : Drafting PUnit} {e : Except Fault PUnit} (h : m.Raises e P) (prelude : Text)
    (selectors : List Text) (declarations : List Css.Declaration) :
    (Drafting.atRule prelude selectors declarations m).Raises e P := by
  have hcontents : (Drafting.contents selectors declarations m).Raises e P := by
    unfold Drafting.contents
    split
    · split <;> exact h.after_write _
    · exact h
  obtain ⟨raised, hraised, hrun⟩ := hcontents
  refine ⟨raised, hraised, fun d => ?_⟩
  rw [Drafting.run_atRule]
  obtain ⟨houtcome, hwarnings⟩ := run_bind_write (Drafting.contents selectors declarations m)
    (·.closeBlock (d.writer.openBlock prelude).1) ⟨(d.writer.openBlock prelude).2, d.warnings⟩
  exact ⟨houtcome.trans (hrun _).1, hwarnings.trans (hrun _).2⟩

end Drafting.Raises

/-! ## Conditions -/

open Drafting (Raises)

/-- Testing a condition warns about a text that is not shaped like a comparison. -/
theorem Chain.test_raises (idle : List DefinitionKey) (s : Scope) (condition : Raw) :
    (test idle s condition).Raises (holds idle s condition) fun span w =>
      ∃ t, s.evaluate idle condition = .ok t ∧ ¬Comparison.IsShaped t ∧
        span = condition.span ∧ w = .malformedCondition t := by
  unfold test holds
  refine ((Raises.lift _).bind fun t _ => (Raises.lift _).bind
    (Q := fun decided span w => decided = none ∧ span = condition.span ∧
      w = .malformedCondition t) fun decided _ => ?_).iff fun span w => ?_
  · cases decided with
    | some outcome => exact (Raises.pure outcome).iff (by simp)
    | none => exact ((Raises.warn _ _).bind fun _ _ => .pure false).iff (by simp)
  · have hblame (t : Text) : blame condition.span (Comparison.decide t) = .ok none ↔
        ¬Comparison.IsShaped t := by
      rw [← Comparison.split?_eq_none_iff, ← Comparison.decide_eq_none_iff]
      cases Comparison.decide t <;> simp [blame]
    simp only [false_or]
    constructor
    · rintro ⟨t, ht, _, hdecided, rfl, hwarning⟩
      exact ⟨t, ht, (hblame t).mp hdecided, hwarning⟩
    · rintro ⟨t, ht, hshape, hwarning⟩
      exact ⟨t, ht, none, (hblame t).mpr hshape, rfl, hwarning⟩

/-! ## Siblings -/

namespace Siblings

variable (idle : List DefinitionKey) (scope : Scope) (rules : List Rule)

/-- What is done about the rule `i` does not fail: its condition can be tested, if it has
its turn, and it can be written, if it takes part. -/
structure Passes (rule : Rule) (i : Nat) : Prop where
  tested : Tested rules (outcome idle scope rules) i →
    ∀ c, rule.condition.bind Condition.text? = some c → ∃ b, Chain.holds idle scope c = .ok b
  written : Written rules (outcome idle scope rules) i → ∃ nodes, rule.forest idle scope = .ok nodes

/-- Tests the condition of the rule `i`, if it has its turn. -/
def testCondition (rule : Rule) (i : Nat) : Drafting PUnit :=
  if Tested rules (outcome idle scope rules) i then
    forM (rule.condition.bind Condition.text?) fun c => do let _ ← Chain.test idle scope c
  else pure ⟨⟩

/-- Warns about the rule `i` if it has no chain to go on with. -/
def warnOrphan (rule : Rule) (i : Nat) : Drafting PUnit :=
  if Orphaned rules i then
    forM (rule.condition.bind Condition.orphan?) (Drafting.warn rule.span)
  else pure ⟨⟩

/-- Writes the rule `i` if it takes part. -/
def writeRule (rule : Rule) (i : Nat) : Drafting PUnit :=
  if Written rules (outcome idle scope rules) i then rule.draft idle scope else pure ⟨⟩

theorem turn_eq (rule : Rule) (i : Nat) : turn idle scope rules rule i = (do
    testCondition idle scope rules rule i
    warnOrphan rules rule i
    writeRule idle scope rules rule i) := by
  unfold turn testCondition warnOrphan writeRule
  split <;> split <;> split <;> simp

/-- What testing the condition of the rule `i` comes to, if it has its turn. -/
def testing (rule : Rule) (i : Nat) : Except Fault PUnit :=
  if Tested rules (outcome idle scope rules) i then
    forM (rule.condition.bind Condition.text?) fun c => do
      let _ ← Chain.holds idle scope c
  else pure ⟨⟩

/-- What the turn of the rule `i` comes to. -/
def verdict (rule : Rule) (i : Nat) : Except Fault PUnit := do
  testing idle scope rules rule i
  if Written rules (outcome idle scope rules) i then (rule.forest idle scope).map fun _ => ⟨⟩
  else pure ⟨⟩

variable {idle scope rules} {rule : Rule} {i : Nat}

theorem testing_ok_iff : testing idle scope rules rule i = .ok ⟨⟩ ↔
    (Tested rules (outcome idle scope rules) i → ∀ c,
      rule.condition.bind Condition.text? = some c → ∃ b, Chain.holds idle scope c = .ok b) := by
  unfold testing
  split
  · rename_i htested
    cases hc : rule.condition.bind Condition.text? with
    | none => exact iff_of_true rfl nofun
    | some c =>
        cases hholds : Chain.holds idle scope c with
        | error fault => simp [Option.forM_some, htested, hholds]
        | ok b => simp [Option.forM_some, hholds]
  · rename_i htested
    exact iff_of_true rfl fun h => (htested h).elim

/-- A condition that keeps a rule in has been tested. -/
theorem testing_of_written (hrule : rules[i]? = some rule)
    (h : Written rules (outcome idle scope rules) i) :
    testing idle scope rules rule i = .ok ⟨⟩ := by
  refine testing_ok_iff.mpr fun htested c hc => ?_
  have houtcome : outcome idle scope rules i = true := by
    unfold Written Tested IsIf IsElseIf IsElse at *
    rcases h with hnone | ⟨-, htrue⟩ | ⟨-, htrue, -⟩ | ⟨helse, -⟩
    · simp [hnone] at htested
    · exact htrue
    · exact htrue
    · simp [helse, Condition.isTest, Condition.isOrTest] at htested
  rw [outcome, condition?_of_getElem? hrule, hc] at houtcome
  cases hholds : Chain.holds idle scope c with
  | error fault =>
      simp only [hholds] at houtcome
      cases houtcome
  | ok b => exact ⟨b, rfl⟩

/-- A turn does not fail if and only if the rule passes. -/
theorem verdict_ok_iff :
    (∃ u, verdict idle scope rules rule i = .ok u) ↔ Passes idle scope rules rule i := by
  have hpasses : Passes idle scope rules rule i ↔ testing idle scope rules rule i = .ok ⟨⟩ ∧
      (Written rules (outcome idle scope rules) i →
        ∃ nodes, rule.forest idle scope = .ok nodes) := by
    rw [testing_ok_iff]
    exact ⟨fun h => ⟨h.tested, h.written⟩, fun h => ⟨h.1, h.2⟩⟩
  rw [hpasses]
  unfold verdict
  cases testing idle scope rules rule i with
  | error fault => exact iff_of_false nofun nofun
  | ok u =>
      split
      · rename_i hwritten
        cases rule.forest idle scope with
        | error fault => exact iff_of_false nofun fun h => nomatch h.2 hwritten
        | ok nodes => exact iff_of_true ⟨⟨⟩, rfl⟩ ⟨rfl, fun _ => ⟨nodes, rfl⟩⟩
      · rename_i hwritten
        exact iff_of_true ⟨⟨⟩, rfl⟩ ⟨rfl, fun h => (hwritten h).elim⟩

/-- What the turn of a rule raises: what its condition raises, the warning that there is no
chain, and what writing the rule raises. -/
def TurnRaises (idle : List DefinitionKey) (scope : Scope) (rules : List Rule)
    (P : Span → Warning → Prop) (rule : Rule) (i : Nat) (span : Span) (w : Warning) : Prop :=
  (Tested rules (outcome idle scope rules) i ∧ ∃ c t,
      rule.condition.bind Condition.text? = some c ∧ scope.evaluate idle c = .ok t ∧
        ¬Comparison.IsShaped t ∧ span = c.span ∧ w = .malformedCondition t) ∨
    (Orphaned rules i ∧ rule.condition.bind Condition.orphan? = some w ∧ span = rule.span) ∨
    (Written rules (outcome idle scope rules) i ∧ P span w)

/-- A rule that would go on with a chain where there is none is not tested. -/
theorem Orphaned.not_tested {outcome : Nat → Bool} (h : Orphaned rules i) :
    ¬Tested rules outcome i := by
  obtain ⟨hcondition, hchain⟩ := h
  rintro (hif | ⟨-, hundecided⟩)
  · unfold IsIf IsElseIf IsElse at *
    rcases hcondition with helse | helse
    · cases hi : condition? rules i with
      | none => simp [hi] at hif
      | some c =>
          rw [hi] at hif helse
          cases c <;> simp_all [Condition.isTest, Condition.isOrTest]
    · simp [helse, Condition.isTest] at hif
  · exact hchain hundecided.inChain

theorem testCondition_raises : (testCondition idle scope rules rule i).Raises
    (testing idle scope rules rule i) fun span w =>
      Tested rules (outcome idle scope rules) i ∧ ∃ c t,
        rule.condition.bind Condition.text? = some c ∧ scope.evaluate idle c = .ok t ∧
          ¬Comparison.IsShaped t ∧ span = c.span ∧ w = .malformedCondition t := by
  unfold testCondition testing
  split
  · rename_i htested
    cases rule.condition.bind Condition.text? with
    | none => exact (Raises.pure PUnit.unit).iff (by simp)
    | some c =>
        refine ((Chain.test_raises idle scope c).bind fun _ _ => .pure PUnit.unit).iff ?_
        simp [htested]
  · rename_i htested
    exact (Raises.pure PUnit.unit).iff (by simp [htested])

theorem warnOrphan_raises : (warnOrphan rules rule i).Raises (.ok ⟨⟩) fun span w =>
    Orphaned rules i ∧ rule.condition.bind Condition.orphan? = some w ∧ span = rule.span := by
  unfold warnOrphan
  split
  · rename_i horphaned
    cases rule.condition.bind Condition.orphan? with
    | none => exact (Raises.pure PUnit.unit).iff (by simp)
    | some w => exact (Raises.warn _ _).iff (by simp [horphaned, and_comm, eq_comm])
  · rename_i horphaned
    exact (Raises.pure PUnit.unit).iff (by simp [horphaned])

theorem writeRule_raises {P : Span → Warning → Prop}
    (h : (rule.draft idle scope).Raises ((rule.forest idle scope).map fun _ => ⟨⟩) P) :
    (writeRule idle scope rules rule i).Raises
      (if Written rules (outcome idle scope rules) i then (rule.forest idle scope).map fun _ => ⟨⟩
      else pure ⟨⟩) fun span w => Written rules (outcome idle scope rules) i ∧ P span w := by
  unfold writeRule
  split
  · rename_i hwritten
    exact h.iff (by simp [hwritten])
  · rename_i hwritten
    exact (Raises.pure PUnit.unit).iff (by simp [hwritten])

theorem turn_raises {P : Span → Warning → Prop} (hrule : rules[i]? = some rule)
    (hdraft : (rule.draft idle scope).Raises ((rule.forest idle scope).map fun _ => ⟨⟩) P) :
    (turn idle scope rules rule i).Raises (verdict idle scope rules rule i)
      (TurnRaises idle scope rules P rule i) := by
  rw [turn_eq]
  refine (testCondition_raises.bind fun _ _ => warnOrphan_raises.bind fun _ _ =>
    writeRule_raises hdraft).iff fun span w => or_congr Iff.rfl ?_
  constructor
  · rintro ⟨_, -, horphan | ⟨_, -, hwrite⟩⟩
    · exact .inl horphan
    · exact .inr hwrite
  · rintro (horphan | hwrite)
    · exact ⟨⟨⟩, testing_ok_iff.mpr fun h => (horphan.1.not_tested h).elim, .inl horphan⟩
    · exact ⟨⟨⟩, testing_of_written hrule hwrite.1, .inr ⟨⟨⟩, rfl, hwrite⟩⟩

end Siblings

end Cascade
