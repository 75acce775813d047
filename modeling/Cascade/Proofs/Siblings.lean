import Cascade.Proofs.Forest

/-!
# Chains among siblings

Whether a rule with a condition is written depends on the rules before it, and a chain of
conditions is decided on the way, with one state that goes from sibling to sibling. Here
the same is said of each sibling by its place alone: an `@elseif` or `@else` goes on with
the chain of an `@if` if there are only `@elseif` rules between the two, and it has its
turn if all of the chain so far was false.

`Chain.Describes` ties the state to the places, and goes over to the next sibling
(`Chain.Describes.after`). So the rules of a block are written one after the other, each
by its own turn (`draftRules_turns`): the conditions that have their turn are tested,
rules without a chain to go on with are warned about, and the rules that take part are
written.
-/

namespace Cascade

namespace Condition

def isTest : Condition → Bool
  | test _ => true
  | orTest _ | otherwise => false

def isOrTest : Condition → Bool
  | orTest _ => true
  | test _ | otherwise => false

/-- What is tested, unless the condition is that nothing else was taken. -/
def text? : Condition → Option Raw
  | test c | orTest c => some c
  | otherwise => none

/-- What is said of a condition that has no chain to go on with. -/
def orphan? : Condition → Option Warning
  | test _ => none
  | orTest _ => some .orphanElseif
  | otherwise => some .orphanElse

end Condition

/-! ## Places in a chain -/

namespace Siblings

variable (rules : List Rule) (outcome : Nat → Bool)

def condition? (i : Nat) : Option Condition := rules[i]?.bind Rule.condition

def IsIf (i : Nat) : Prop := (condition? rules i).any Condition.isTest = true

def IsElseIf (i : Nat) : Prop := (condition? rules i).any Condition.isOrTest = true

def IsElse (i : Nat) : Prop := condition? rules i = some .otherwise

/-- The rule `j` is an `@if`, and between it and the rule `i` there are only `@elseif`
rules. -/
def Opens (j i : Nat) : Prop := IsIf rules j ∧ ∀ k < i, j < k → IsElseIf rules k

/-- There is a chain that the rule `i` can go on with. -/
def InChain (i : Nat) : Prop := ∃ j < i, Opens rules j i

/-- There is a chain that the rule `i` can go on with, and all of it was false. -/
def Undecided (i : Nat) : Prop :=
  ∃ j < i, Opens rules j i ∧ ∀ k < i, j ≤ k → outcome k = false

/-- The condition of the rule `i` is evaluated. -/
def Tested (i : Nat) : Prop := IsIf rules i ∨ IsElseIf rules i ∧ Undecided rules outcome i

/-- The rule `i` would go on with a chain, and there is none. -/
def Orphaned (i : Nat) : Prop := (IsElseIf rules i ∨ IsElse rules i) ∧ ¬InChain rules i

/-- The rule `i` takes part in the output. -/
def Written (i : Nat) : Prop :=
  condition? rules i = none ∨ IsIf rules i ∧ outcome i = true ∨
    IsElseIf rules i ∧ outcome i = true ∧ Undecided rules outcome i ∨
    IsElse rules i ∧ Undecided rules outcome i

instance (i : Nat) : Decidable (IsIf rules i) := inferInstanceAs (Decidable (_ = _))

instance (i : Nat) : Decidable (IsElseIf rules i) := inferInstanceAs (Decidable (_ = _))

instance (i : Nat) : Decidable (IsElse rules i) := inferInstanceAs (Decidable (_ = _))

instance (j i : Nat) : Decidable (Opens rules j i) := inferInstanceAs (Decidable (_ ∧ _))

instance (i : Nat) : Decidable (InChain rules i) := inferInstanceAs (Decidable (∃ j < i, _))

instance (i : Nat) : Decidable (Undecided rules outcome i) :=
  inferInstanceAs (Decidable (∃ j < i, _))

instance (i : Nat) : Decidable (Tested rules outcome i) := inferInstanceAs (Decidable (_ ∨ _))

instance (i : Nat) : Decidable (Orphaned rules i) := inferInstanceAs (Decidable (_ ∧ _))

instance (i : Nat) : Decidable (Written rules outcome i) := inferInstanceAs (Decidable (_ ∨ _))

variable {rules outcome} {i j : Nat}

theorem condition?_of_getElem? {rule : Rule} (hrule : rules[i]? = some rule) :
    condition? rules i = rule.condition := by
  rw [condition?, hrule]
  rfl

theorem opens_self : Opens rules i (i + 1) ↔ IsIf rules i := by
  refine ⟨And.left, fun h => ⟨h, fun k hk hlt => ?_⟩⟩
  omega

/-- A chain goes on past a rule as long as this is an `@elseif`. -/
theorem opens_succ (hj : j < i) : Opens rules j (i + 1) ↔ Opens rules j i ∧ IsElseIf rules i := by
  constructor
  · rintro ⟨hif, hrest⟩
    exact ⟨⟨hif, fun k hk => hrest k (Nat.lt_succ_of_lt hk)⟩, hrest i (Nat.lt_succ_self i) hj⟩
  · rintro ⟨⟨hif, hrest⟩, helseif⟩
    refine ⟨hif, fun k hk hlt => ?_⟩
    rcases Nat.lt_succ_iff_lt_or_eq.mp hk with hk | rfl
    · exact hrest k hk hlt
    · exact helseif

theorem inChain_succ :
    InChain rules (i + 1) ↔ IsIf rules i ∨ InChain rules i ∧ IsElseIf rules i := by
  constructor
  · rintro ⟨j, hj, hopens⟩
    rcases Nat.lt_succ_iff_lt_or_eq.mp hj with hj | rfl
    · obtain ⟨hopens, helseif⟩ := (opens_succ hj).mp hopens
      exact .inr ⟨⟨j, hj, hopens⟩, helseif⟩
    · exact .inl (opens_self.mp hopens)
  · rintro (hif | ⟨⟨j, hj, hopens⟩, helseif⟩)
    · exact ⟨i, Nat.lt_succ_self i, opens_self.mpr hif⟩
    · exact ⟨j, Nat.lt_succ_of_lt hj, (opens_succ hj).mpr ⟨hopens, helseif⟩⟩

theorem undecided_succ : Undecided rules outcome (i + 1) ↔
    outcome i = false ∧ (IsIf rules i ∨ Undecided rules outcome i ∧ IsElseIf rules i) := by
  constructor
  · rintro ⟨j, hj, hopens, hfalse⟩
    refine ⟨hfalse i (Nat.lt_succ_self i) (Nat.le_of_lt_succ hj), ?_⟩
    rcases Nat.lt_succ_iff_lt_or_eq.mp hj with hj | rfl
    · obtain ⟨hopens, helseif⟩ := (opens_succ hj).mp hopens
      exact .inr ⟨⟨j, hj, hopens, fun k hk => hfalse k (Nat.lt_succ_of_lt hk)⟩, helseif⟩
    · exact .inl (opens_self.mp hopens)
  · rintro ⟨hi, hif | ⟨⟨j, hj, hopens, hfalse⟩, helseif⟩⟩
    · refine ⟨i, Nat.lt_succ_self i, opens_self.mpr hif, fun k hk hle => ?_⟩
      rwa [Nat.le_antisymm (Nat.le_of_lt_succ hk) hle]
    · refine ⟨j, Nat.lt_succ_of_lt hj, (opens_succ hj).mpr ⟨hopens, helseif⟩, fun k hk hle => ?_⟩
      rcases Nat.lt_succ_iff_lt_or_eq.mp hk with hk | rfl
      · exact hfalse k hk hle
      · exact hi

theorem Undecided.inChain (h : Undecided rules outcome i) : InChain rules i := by
  obtain ⟨j, hj, hopens, -⟩ := h
  exact ⟨j, hj, hopens⟩

end Siblings

/-! ## The state on the way -/

open Siblings

namespace Chain

/-- What the state before the rule `i` says of the rules before it. -/
def Describes (rules : List Rule) (outcome : Nat → Bool) (i : Nat) : Chain → Prop
  | outside => ¬InChain rules i
  | pending => Undecided rules outcome i
  | taken => InChain rules i ∧ ¬Undecided rules outcome i

/-- The chain after a rule, given the outcome of its test. -/
def after (chain : Chain) (condition : Option Condition) (outcome : Bool) : Chain :=
  match chain.branch condition with
  | (.test _, _) => record outcome
  | (_, next) => next

variable {rules : List Rule} {outcome : Nat → Bool} {i : Nat} {chain : Chain}

theorem Describes.begin : outside.Describes rules outcome 0 := by
  rintro ⟨j, hj, -⟩
  exact Nat.not_lt_zero j hj

/-- What each state says about whether there is a chain, and about its tests. -/
theorem Describes.cases (h : chain.Describes rules outcome i) :
    (chain = outside ∧ ¬InChain rules i ∧ ¬Undecided rules outcome i) ∨
      (chain = pending ∧ InChain rules i ∧ Undecided rules outcome i) ∨
      (chain = taken ∧ InChain rules i ∧ ¬Undecided rules outcome i) := by
  cases chain with
  | outside => exact .inl ⟨rfl, h, fun hundecided => h hundecided.inChain⟩
  | pending => exact .inr (.inl ⟨rfl, Undecided.inChain h, h⟩)
  | taken => exact .inr (.inr ⟨rfl, h⟩)

/-- What is to be done with the rule `i`, by its place. -/
theorem Describes.branch (h : chain.Describes rules outcome i) :
    match (chain.branch (condition? rules i)).1 with
    | .take => ¬Tested rules outcome i ∧ ¬Orphaned rules i ∧ Written rules outcome i
    | .skip => ¬Tested rules outcome i ∧ ¬Orphaned rules i ∧ ¬Written rules outcome i
    | .test c => (condition? rules i).bind Condition.text? = some c ∧ Tested rules outcome i ∧
        ¬Orphaned rules i ∧ (Written rules outcome i ↔ outcome i = true)
    | .orphan w => (condition? rules i).bind Condition.orphan? = some w ∧
        ¬Tested rules outcome i ∧ Orphaned rules i ∧ ¬Written rules outcome i := by
  unfold Tested Orphaned Written IsIf IsElseIf IsElse
  rcases condition? rules i with _ | (c | c | _)
  · simp [Chain.branch]
  · simp [Chain.branch, Condition.isTest, Condition.isOrTest, Condition.text?]
  -- What goes on with a chain is tested or written only if the state is `pending`.
  · rcases h.cases with ⟨rfl, hin, hundecided⟩ | ⟨rfl, hin, hundecided⟩ | ⟨rfl, hin, hundecided⟩ <;>
      simp [Chain.branch, Condition.isTest, Condition.isOrTest, Condition.text?,
        Condition.orphan?, hin, hundecided]
  · rcases h.cases with ⟨rfl, hin, hundecided⟩ | ⟨rfl, hin, hundecided⟩ | ⟨rfl, hin, hundecided⟩ <;>
      simp [Chain.branch, Condition.isTest, Condition.isOrTest, Condition.orphan?, hin, hundecided]

/-- The state after the rule `i` is right for the next rule. -/
theorem Describes.after (h : chain.Describes rules outcome i) :
    (chain.after (condition? rules i) (outcome i)).Describes rules outcome (i + 1) := by
  have hin : InChain rules (i + 1) ↔ _ := inChain_succ
  have hundecided : Undecided rules outcome (i + 1) ↔ _ := undecided_succ
  unfold IsIf IsElseIf at hin hundecided
  unfold Chain.after
  cases hcondition : condition? rules i with
  | none => simpa [Chain.branch, Describes, hcondition] using hin
  | some condition =>
      rw [hcondition] at hin hundecided
      cases condition with
      | test c =>
          cases houtcome : outcome i <;> rw [houtcome] at hundecided <;>
            simp_all [Chain.branch, Describes, record, Condition.isTest]
      | orTest c =>
          have hchain : Undecided rules outcome i → InChain rules i := Undecided.inChain
          cases chain <;> cases houtcome : outcome i <;> rw [houtcome] at hundecided <;>
            simp_all [Chain.branch, Describes, record, Condition.isTest, Condition.isOrTest]
      | otherwise =>
          cases chain <;> simp_all [Chain.branch, Describes, Condition.isTest, Condition.isOrTest]

end Chain

/-! ## Turns -/

namespace Siblings

variable (idle : List DefinitionKey) (scope : Scope) (rules : List Rule)

/-- Whether the condition of the rule `i` holds. -/
def outcome (i : Nat) : Bool :=
  match (condition? rules i).bind Condition.text? with
  | some c => (Chain.holds idle scope c).toOption.getD false
  | none => false

/-- What is done about the rule `i`. -/
def turn (rule : Rule) (i : Nat) : Drafting PUnit := do
  if Tested rules (outcome idle scope rules) i then
    forM (rule.condition.bind Condition.text?) fun c => do
      let _ ← Chain.test idle scope c
  if Orphaned rules i then
    forM (rule.condition.bind Condition.orphan?) (Drafting.warn rule.span)
  if Written rules (outcome idle scope rules) i then rule.draft idle scope

end Siblings

namespace Drafting

variable {α β : Type} {m : Drafting α} {e : Except Fault α}

theorem ext {m m' : Drafting α} (h : ∀ d, m.run.run d = m'.run.run d) : m = m' :=
  funext h

/-- What goes on after a drafting that settles only needs to be known for what it
settles for. -/
theorem Settles.bind_congr {f g : α → Drafting β} (h : m.Settles e)
    (hfg : ∀ a, e = .ok a → f a = g a) : m >>= f = m >>= g := by
  refine ext fun d => ?_
  obtain ⟨warnings, hm⟩ := h d
  cases e with
  | error fault => rw [run_bind_error hm, run_bind_error hm]
  | ok a => rw [run_bind_ok hm, run_bind_ok hm, hfg a rfl]

end Drafting

section

variable {idle : List DefinitionKey} {scope : Scope} {rules : List Rule} {chain : Chain} {i : Nat}

theorem Siblings.outcome_eq_of_holds {c : Raw} {b : Bool}
    (hc : (condition? rules i).bind Condition.text? = some c)
    (h : Chain.holds idle scope c = .ok b) : outcome idle scope rules i = b := by
  rw [outcome, hc]
  simp only [h]
  rfl

/-- One rule is dealt with by its turn, and the state after it is right again. -/
theorem Chain.Describes.turn {rule : Rule} (hrule : rules[i]? = some rule)
    (h : chain.Describes rules (outcome idle scope rules) i) (go : Chain → Drafting PUnit)
    {next : Drafting PUnit}
    (hgo : ∀ after : Chain, after.Describes rules (outcome idle scope rules) (i + 1) →
      go after = next) :
    (do
      let (written, after) ← chain.takes idle scope rule
      if written then rule.draft idle scope
      go after) = (do
      Siblings.turn idle scope rules rule i
      next) := by
  have hcondition := condition?_of_getElem? hrule
  have hbranch := h.branch
  have hafter := h.after
  rw [Chain.after] at hafter
  rw [hcondition] at hbranch hafter
  rw [Chain.takes, Siblings.turn]
  generalize chain.branch rule.condition = decided at hbranch hafter
  obtain ⟨branch, after⟩ := decided
  cases branch with
  | take =>
      obtain ⟨htested, horphaned, hwritten⟩ := hbranch
      simp [htested, horphaned, hwritten, hgo after hafter]
  | skip =>
      obtain ⟨htested, horphaned, hwritten⟩ := hbranch
      simp [htested, horphaned, hwritten, hgo after hafter]
  | orphan warning =>
      obtain ⟨hwarning, htested, horphaned, hwritten⟩ := hbranch
      simp [hwarning, htested, horphaned, hwritten, hgo after hafter]
  | test c =>
      obtain ⟨hc, htested, horphaned, hwritten⟩ := hbranch
      simp only [hc, htested, horphaned, Option.forM_some, if_true, if_false, bind_assoc,
        pure_bind]
      refine (Chain.test_settles c).bind_congr fun b hb => ?_
      rw [← hcondition] at hc
      rw [outcome_eq_of_holds hc hb] at hafter hwritten
      cases b <;> simp [hwritten, hgo _ hafter]

/-- A rule takes part if it is to be written by its place. -/
theorem Chain.Describes.admits {rule : Rule} (hrule : rules[i]? = some rule)
    (h : chain.Describes rules (outcome idle scope rules) i) {written : Bool} {next : Chain}
    (hadmits : chain.admits idle scope rule = .ok (written, next)) :
    (written = true ↔ Written rules (outcome idle scope rules) i) ∧
      next.Describes rules (outcome idle scope rules) (i + 1) := by
  have hcondition := condition?_of_getElem? hrule
  have hbranch := h.branch
  have hafter := h.after
  rw [Chain.after] at hafter
  rw [hcondition] at hbranch hafter
  rw [Chain.admits_eq] at hadmits
  generalize chain.branch rule.condition = decided at hbranch hafter hadmits
  obtain ⟨branch, after⟩ := decided
  cases branch with
  | take =>
      cases hadmits
      exact ⟨iff_of_true rfl hbranch.2.2, hafter⟩
  | skip =>
      cases hadmits
      exact ⟨iff_of_false Bool.false_ne_true hbranch.2.2, hafter⟩
  | orphan warning =>
      cases hadmits
      exact ⟨iff_of_false Bool.false_ne_true hbranch.2.2.2, hafter⟩
  | test c =>
      obtain ⟨hc, -, -, hwritten⟩ := hbranch
      rw [← hcondition] at hc
      cases hholds : Chain.holds idle scope c with
      | error fault =>
          simp only [hholds] at hadmits
          cases hadmits
      | ok b =>
          simp only [hholds] at hadmits
          cases hadmits
          rw [outcome_eq_of_holds hc hholds] at hafter hwritten
          exact ⟨hwritten.symm, hafter⟩

/-- From any state that is right, the rules that are left are written by their turns. -/
theorem draftRules_turns_of_describes :
    ∀ (before rest : List Rule) (chain : Chain), rules = before ++ rest →
      chain.Describes rules (outcome idle scope rules) before.length →
      draftRules idle scope chain rest =
        forM (rest.zipIdx before.length) fun (rule, i) => Siblings.turn idle scope rules rule i
  | _, [], _, _, _ => rfl
  | before, rule :: rest, chain, hrules, h => by
      rw [draftRules, List.zipIdx_cons, List.forM_cons]
      have hrule : rules[before.length]? = some rule := by simp [hrules]
      refine h.turn hrule (draftRules idle scope · rest) fun after hafter => ?_
      have hrest := draftRules_turns_of_describes (before ++ [rule]) rest after (by simp [hrules])
      rw [List.length_append] at hrest
      exact hrest hafter

/-- The rules of a block are written one after the other, each by its turn: the
conditions of an `@if`, and of an `@elseif` that goes on with a chain all of which was
false, are tested; what would go on with a chain is warned about if there is none; and
what takes part in the output is written. -/
theorem draftRules_turns (idle : List DefinitionKey) (scope : Scope) (rules : List Rule) :
    draftRules idle scope .outside rules =
      forM rules.zipIdx fun (rule, i) => Siblings.turn idle scope rules rule i :=
  draftRules_turns_of_describes [] rules .outside rfl .begin

end

end Cascade
