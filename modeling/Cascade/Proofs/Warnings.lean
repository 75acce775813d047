import Cascade.Proofs.Constructs
import Cascade.Proofs.Origins
import Cascade.Proofs.Raising

/-!
# Exact warnings

Writing a style sheet warns about a mixin call that resolves to nothing, about an `@elseif` or
`@else` without a chain to go on with, and about a condition that is not shaped like a
comparison. Which of these are come to is said here by the document alone
(`Document.Warns`): what stands before them goes through, the rules around them take part in
the output, and a call is also come to in each body that is expanded for another.

A construct has only one warning, since it always stands in the same blocks
(`Document.Remarks.unique`), and in a document that has been read its span is its own. So the
log leaves out nothing but repetitions (`StyleSheet.warnings_exact`).
-/

namespace Cascade

open Drafting (Raises)

/-! ## Calls -/

namespace Scope

variable {idle : List DefinitionKey}

/-- The declaration with the number `i` is come to while the innermost block is expanded:
all before it stand for declarations. -/
structure ComesToDeclaration (idle : List DefinitionKey) (depth : Nat) (s : Scope) (i : Nat)
    (declaration : Declaration) : Prop where
  stands : s.body.declarations[i]? = some declaration
  before : Through (s.expansion idle depth) s.body.declarations i

/-- While the innermost block, at the address, is expanded, the call with the number `k` in
the block at `b` is come to, and it resolves to nothing. -/
inductive ComesToNothing (idle : List DefinitionKey) (b : Address) (k : Nat) (c : MixinCall) :
    (depth : Nat) → Address → Scope → Prop
  | here {depth : Nat} {s : Scope} : s.ComesToDeclaration idle depth k (.call c) →
      s.mixin? c.name = none → ComesToNothing idle b k c depth b s
  /-- In the body of another call. -/
  | inside {depth i : Nat} {a place : Address} {s home : Scope} {other : MixinCall} {rule : Rule}
      {bindings : Bindings} : s.ComesToDeclaration idle (depth + 1) i (.call other) →
      s.mixin? other.name = some (rule, home) → s.mixinPlace? other.name a = some place →
      other.bindings idle rule s = .ok bindings →
      ComesToNothing idle b k c depth place (home.ofCall rule.block bindings) →
      ComesToNothing idle b k c (depth + 1) a s

/-- What is warned about while the innermost block, at the address, is expanded. -/
def Misses (idle : List DefinitionKey) (depth : Nat) (a : Address) (s : Scope) (span : Span)
    (w : Warning) : Prop :=
  ∃ b k c, s.ComesToNothing idle b k c depth a ∧ span = c.span ∧ w = .undefinedMixin c.name

/-- What is warned about for one call in a scope at the address. -/
def CallMisses (idle : List DefinitionKey) (depth : Nat) (a : Address) (s : Scope) (c : MixinCall)
    (span : Span) (w : Warning) : Prop :=
  s.mixin? c.name = none ∧ span = c.span ∧ w = .undefinedMixin c.name ∨
    ∃ j rule home place bindings, depth = j + 1 ∧ s.mixin? c.name = some (rule, home) ∧
      s.mixinPlace? c.name a = some place ∧ c.bindings idle rule s = .ok bindings ∧
      (home.ofCall rule.block bindings).Misses idle j place span w

theorem misses_iff {depth : Nat} {a : Address} {s : Scope} {span : Span} {w : Warning} :
    s.Misses idle depth a span w ↔ ∃ i c, s.ComesToDeclaration idle depth i (.call c) ∧
      s.CallMisses idle depth a c span w := by
  constructor
  · rintro ⟨b, k, c, hnothing, rfl, rfl⟩
    cases hnothing with
    | here hi hmixin => exact ⟨k, c, hi, .inl ⟨hmixin, rfl, rfl⟩⟩
    | @inside j i _ place _ home other rule bindings hi hmixin hplace hbindings hnothing =>
        exact ⟨i, other, hi, .inr ⟨j, rule, home, place, bindings, rfl, hmixin, hplace, hbindings,
          b, k, c, hnothing, rfl, rfl⟩⟩
  · rintro ⟨i, c, hi, ⟨hmixin, hspan, hw⟩ |
      ⟨j, rule, home, place, bindings, rfl, hmixin, hplace, hbindings, b, k, c', hnothing, h⟩⟩
    · exact ⟨a, i, c, .here hi hmixin, hspan, hw⟩
    · exact ⟨b, k, c', .inside hi hmixin hplace hbindings hnothing, h⟩

/-- What a call raises, given what the bodies raise that it can be expanded to. -/
theorem expandCall_raises_of {depth : Nat} {s : Scope} {c : MixinCall} (a : Address)
    (hbody : ∀ (j : Nat) (place : Address) (t : Scope), depth = j + 1 →
      (t.declarations idle j t.body).Raises (t.expand idle j t.body) (t.Misses idle j place)) :
    (s.expandCall idle depth c).Raises (s.callExpansion idle depth c)
      (s.CallMisses idle depth a c) := by
  unfold expandCall callExpansion CallMisses
  cases hmixin : s.mixin? c.name with
  | none => exact ((Raises.warn _ _).bind fun _ _ => .pure []).iff (by simp)
  | some found =>
      obtain ⟨rule, home⟩ := found
      cases depth with
      | zero => exact (Raises.throw _).iff (by simp)
      | succ j =>
          obtain ⟨place, hplace⟩ := mixinPlace?_of_mixin? hmixin a
          refine ((Raises.lift _).bind fun bindings _ =>
            hbody j place (home.ofCall rule.block bindings) rfl).iff fun span w => ?_
          constructor
          · rintro (hfalse | ⟨bindings, hbindings, hmisses⟩)
            · exact hfalse.elim
            · exact .inr ⟨j, rule, home, place, bindings, rfl, rfl, hplace, hbindings, hmisses⟩
          · rintro (⟨hnone, -⟩ |
              ⟨_, _, _, place', bindings, heq, hfound, hplace', hbindings, hmisses⟩)
            · cases hnone
            · cases heq
              cases hfound
              obtain rfl := Option.some.inj (hplace.symm.trans hplace')
              exact .inr ⟨bindings, hbindings, hmisses⟩

/-- Expanding a block warns about the calls that are come to and resolve to nothing. -/
theorem declarations_raises (idle : List DefinitionKey) (depth : Nat) (a : Address) (s : Scope) :
    (s.declarations idle depth s.body).Raises (s.expand idle depth s.body)
      (s.Misses idle depth a) := by
  rw [declarations_eq, expand_eq]
  refine (Raises.bind (Raises.mapM (P := fun _ declaration span w =>
    ∃ c, declaration = .call c ∧ s.CallMisses idle depth a c span w) fun i declaration _ => ?_)
      fun expanded _ => .pure _).iff fun span w => ?_
  · cases declaration with
    | property p => exact ((Raises.lift _).bind fun t _ => .pure _).iff (by simp)
    | call c =>
        refine (expandCall_raises_of a fun j place t h => ?_).iff (by simp)
        subst h
        exact declarations_raises idle j place t
  rw [misses_iff]
  constructor
  · rintro (⟨i, _, hget, hbefore, c, rfl, hmisses⟩ | ⟨_, _, hfalse⟩)
    · exact ⟨i, c, ⟨hget, hbefore⟩, hmisses⟩
    · exact hfalse.elim
  · rintro ⟨i, c, ⟨hget, hbefore⟩, hmisses⟩
    exact .inl ⟨i, _, hget, hbefore, c, rfl, hmisses⟩

end Scope

/-! ## Rules -/

/-- The rule with the number `i` is come to while the rules of the innermost block are
written: what is done about the rules before it does not fail. -/
structure Scope.ComesToRule (idle : List DefinitionKey) (s : Scope) (i : Nat) (rule : Rule) :
    Prop where
  stands : s.body.children[i]? = some rule
  before : ∀ j < i, ∀ other, s.body.children[j]? = some other →
    Siblings.Passes idle s s.body.children other j

/-- What a block raises whose rules raise the given warnings when they are written. -/
theorem draftRules_raises_of (idle : List DefinitionKey) (s : Scope)
    {P : Nat → Rule → Span → Warning → Prop}
    (hdraft : ∀ (i : Nat) (rule : Rule), s.body.children[i]? = some rule →
      (rule.draft idle s).Raises ((rule.forest idle s).map fun _ => ⟨⟩) (P i rule)) :
    ∃ e, (draftRules idle s .outside s.body.children).Raises e fun span w =>
      ∃ i rule, s.ComesToRule idle i rule ∧
        Siblings.TurnRaises idle s s.body.children (P i rule) rule i span w := by
  rw [draftRules_turns]
  have hturns := Raises.forM (l := s.body.children.zipIdx)
    (f := fun entry => Siblings.turn idle s s.body.children entry.1 entry.2)
    (g := fun entry => Siblings.verdict idle s s.body.children entry.1 entry.2)
    (P := fun _ entry => Siblings.TurnRaises idle s s.body.children (P entry.2 entry.1) entry.1
      entry.2) fun i entry hentry => by
        obtain ⟨rule, hrule, rfl⟩ := by simpa [List.getElem?_zipIdx] using hentry
        exact Siblings.turn_raises hrule (hdraft i rule hrule)
  have hthrough (i : Nat) : Through (fun entry =>
      Siblings.verdict idle s s.body.children entry.1 entry.2) s.body.children.zipIdx i ↔
        ∀ j < i, ∀ other, s.body.children[j]? = some other →
          Siblings.Passes idle s s.body.children other j := by
    refine forall_congr' fun j => forall_congr' fun _ => ?_
    simp [List.getElem?_zipIdx, Siblings.verdict_ok_iff]
  refine ⟨_, hturns.iff fun span w => ?_⟩
  constructor
  · rintro ⟨i, entry, hentry, hbefore, hraises⟩
    obtain ⟨rule, hrule, rfl⟩ := by simpa [List.getElem?_zipIdx] using hentry
    exact ⟨i, rule, ⟨hrule, (hthrough i).mp hbefore⟩, hraises⟩
  · rintro ⟨i, rule, ⟨hrule, hbefore⟩, hraises⟩
    refine ⟨i, (rule, i), by simp [List.getElem?_zipIdx, hrule], (hthrough i).mpr hbefore, hraises⟩

/-- The rule is written with what is in its block. -/
def Rule.hasContents (r : Rule) : Bool :=
  match r.kind with
  | .style | .atRule _ => true
  | .mixin _ | .directive _ => false

/-- While the rules of the innermost block, at the address, are written, the construct is
come to and warned about. -/
inductive Scope.Warns (idle : List DefinitionKey) :
    Address → Scope → Construct → Span → Warning → Prop
  /-- An `@elseif` or `@else` without a chain. -/
  | orphan {a : Address} {s : Scope} {i : Nat} {rule : Rule} {w : Warning} :
      s.ComesToRule idle i rule → Siblings.Orphaned s.body.children i →
      rule.condition.bind Condition.orphan? = some w →
      Warns idle a s (.condition (.child i :: a)) rule.span w
  /-- A condition that is tested and is not shaped like a comparison. -/
  | malformed {a : Address} {s : Scope} {i : Nat} {rule : Rule} {c : Raw} {t : Text} :
      s.ComesToRule idle i rule →
      Siblings.Tested s.body.children (Siblings.outcome idle s s.body.children) i →
      rule.condition.bind Condition.text? = some c → s.evaluate idle c = .ok t →
      ¬Comparison.IsShaped t →
      Warns idle a s (.condition (.child i :: a)) c.span (.malformedCondition t)
  /-- A call that resolves to nothing, in the block of a rule that takes part or in a body
  that is expanded there. -/
  | call {a b : Address} {s : Scope} {i k : Nat} {rule : Rule} {c : MixinCall} :
      s.ComesToRule idle i rule →
      Siblings.Written s.body.children (Siblings.outcome idle s s.body.children) i →
      rule.hasContents = true →
      (s.nest rule.block).ComesToNothing idle b k c mixinLimit (.child i :: a) →
      Warns idle a s (.call b k) c.span (.undefinedMixin c.name)
  /-- In the block of a rule that takes part. -/
  | nested {a : Address} {s : Scope} {i : Nat} {rule : Rule} {x : Construct} {span : Span}
      {w : Warning} {declarations : List Css.Declaration} : s.ComesToRule idle i rule →
      Siblings.Written s.body.children (Siblings.outcome idle s s.body.children) i →
      rule.hasContents = true →
      (s.nest rule.block).expand idle mixinLimit rule.block = .ok declarations →
      Warns idle (.child i :: a) (s.nest rule.block) x span w → Warns idle a s x span w

/-- What is warned about while a rule at the address is written. -/
def Rule.Warns (idle : List DefinitionKey) (a : Address) (s : Scope) (rule : Rule) (span : Span)
    (w : Warning) : Prop :=
  rule.hasContents = true ∧ ((s.nest rule.block).Misses idle mixinLimit a span w ∨
    (∃ declarations, (s.nest rule.block).expand idle mixinLimit rule.block = .ok declarations) ∧
      ∃ x, (s.nest rule.block).Warns idle a x span w)

theorem Scope.warns_iff {idle : List DefinitionKey} {a : Address} {s : Scope} {span : Span}
    {w : Warning} : (∃ x, s.Warns idle a x span w) ↔ ∃ i rule, s.ComesToRule idle i rule ∧
      Siblings.TurnRaises idle s s.body.children (rule.Warns idle (.child i :: a) s) rule i
        span w := by
  constructor
  · rintro ⟨x, h⟩
    cases h with
    | orphan hi horphaned hw => exact ⟨_, _, hi, .inr (.inl ⟨horphaned, hw, rfl⟩)⟩
    | malformed hi htested hc ht hshape =>
        exact ⟨_, _, hi, .inl ⟨htested, _, _, hc, ht, hshape, rfl, rfl⟩⟩
    | call hi hwritten hcontents hnothing =>
        exact ⟨_, _, hi, .inr (.inr ⟨hwritten, hcontents, .inl ⟨_, _, _, hnothing, rfl, rfl⟩⟩)⟩
    | nested hi hwritten hcontents hexpand h =>
        exact ⟨_, _, hi, .inr (.inr ⟨hwritten, hcontents, .inr ⟨⟨_, hexpand⟩, _, h⟩⟩)⟩
  · rintro ⟨i, rule, hi, ⟨htested, c, t, hc, ht, hshape, rfl, rfl⟩ | ⟨horphaned, hw, rfl⟩ |
      ⟨hwritten, hcontents, ⟨b, k, c, hnothing, rfl, rfl⟩ | ⟨⟨_, hexpand⟩, x, h⟩⟩⟩
    · exact ⟨_, .malformed hi htested hc ht hshape⟩
    · exact ⟨_, .orphan hi horphaned hw⟩
    · exact ⟨_, .call hi hwritten hcontents hnothing⟩
    · exact ⟨x, .nested hi hwritten hcontents hexpand h⟩

/-- The contents of a rule: its declarations, and then what is done with them and its rules. -/
theorem Rule.contents_raises {idle : List DefinitionKey} {a : Address} {s : Scope} {rule : Rule}
    {f : List Css.Declaration → Drafting PUnit} (result : Except Fault PUnit)
    (hcontents : rule.hasContents = true)
    (hf : ∀ own, (f own).Raises result
      fun span w => ∃ x, (s.nest rule.block).Warns idle a x span w) :
    ((s.nest rule.block).declarations idle mixinLimit rule.block >>= f).Raises
      ((s.nest rule.block).expand idle mixinLimit rule.block >>= fun _ => result)
      (rule.Warns idle a s) := by
  have hdeclarations := (s.nest rule.block).declarations_raises idle mixinLimit a
  refine (hdeclarations.bind fun own _ => hf own).iff fun span w => ?_
  unfold Rule.Warns
  rw [and_iff_right hcontents]
  exact or_congr Iff.rfl exists_and_right

theorem Drafting.Prints.outcome {m : Drafting PUnit} {e : Except Fault (List Css.Node)}
    (h : m.Prints e) (d : Draft) : (m.run.run d).1 = e.map fun _ => ⟨⟩ := by
  have h := h d
  cases e with
  | error fault => exact h
  | ok nodes =>
      obtain ⟨warnings, h⟩ := h
      rw [h]
      rfl

section

variable {e : Document} {idle : List DefinitionKey}

theorem Document.IdleAlike.refl (e : Document) (idle : List DefinitionKey) :
    e.IdleAlike idle idle := fun _ _ => Iff.rfl

mutual

theorem Rule.draft_raises {layer : Layer} {outer : Scope} : ∀ (rule : Rule) (a : Address),
    e.HasScope (layer :: outer) → rule ∈ layer.block.children →
    (rule.draft idle (layer :: outer)).Raises
      ((rule.forest idle (layer :: outer)).map fun _ => ⟨⟩) (rule.Warns idle a (layer :: outer))
  | ⟨selectors, own, kind, condition, ⟨imports, definitions, declarations, children⟩, span⟩, a,
      hscope, hmem => by
      have hprints := Rule.draft_prints (.refl e idle) _ hscope hmem
      have hinner := hscope.nest hmem
      obtain ⟨result, hchildren⟩ := draftRules_raises_of idle
        (Scope.nest (layer :: outer) ⟨imports, definitions, declarations, children⟩)
        fun i rule hrule => draftRules_raises children rule (List.mem_of_getElem? hrule)
          (.child i :: a) hinner (List.mem_of_getElem? hrule)
      replace hchildren := hchildren.iff fun span w => Scope.warns_iff.symm
      suffices h : ∃ result, Raises _ result _ from h.elim fun _ h => h.outcome hprints.outcome
      rw [Rule.draft.eq_def]
      cases kind with
      | mixin _ => exact ⟨_, (Raises.pure PUnit.unit).iff (by simp [Rule.Warns, Rule.hasContents])⟩
      | directive t => exact ⟨_, (Raises.write _).iff (by simp [Rule.Warns, Rule.hasContents])⟩
      | style =>
          refine ⟨_, Rule.contents_raises result rfl fun own => ?_⟩
          split
          · exact hchildren.after_write _
          · exact hchildren
      | atRule prelude =>
          refine ⟨_, Rule.contents_raises result rfl fun own => ?_⟩
          split
          · -- There are no rules in the block, so nothing comes after the line.
            rename_i hempty
            obtain rfl : children = [] := List.isEmpty_iff.mp (Bool.and_eq_true_iff.mp hempty).2
            split
            · exact hchildren.after_write (·.inlineAtRule prelude own)
            · exact hchildren
          · exact hchildren.atRule _ _ _

theorem draftRules_raises : ∀ (rules : List Rule), ∀ rule ∈ rules,
    ∀ (a : Address) {layer : Layer} {outer : Scope},
      e.HasScope (layer :: outer) → rule ∈ layer.block.children →
      (rule.draft idle (layer :: outer)).Raises
        ((rule.forest idle (layer :: outer)).map fun _ => ⟨⟩) (rule.Warns idle a (layer :: outer))
  | first :: rest, rule, hmem, a, _, _, hscope, hchild => by
      rcases List.mem_cons.mp hmem with heq | hmem
      · rw [heq] at hchild ⊢
        exact first.draft_raises a hscope hchild
      · exact draftRules_raises rest rule hmem a hscope hchild

end

end

/-! ## Documents -/

/-- While a document at the address is written, the construct is come to and warned about.
What it imports comes before its own rules. -/
inductive Document.Warns (idle : List DefinitionKey) :
    Document → Address → Construct → Span → Warning → Prop
  | imported {e e' : Document} {a : Address} {i : Nat} {x : Construct} {span : Span} {w : Warning} :
      e.block.imports[i]? = some (.sheet e') → Through Import.forest e.block.imports i →
      Warns idle e' (.imported i :: a) x span w → Warns idle e a x span w
  | own {e : Document} {a : Address} {x : Construct} {span : Span} {w : Warning} :
      (∀ i ∈ e.block.imports, ∃ nodes, i.forest = .ok nodes) →
      (Scope.ofBlock e.block).Warns idle a x span w → Warns idle e a x span w

theorem importsForest_ok_iff {imports : List Import} :
    (∃ nodes, importsForest imports = .ok nodes) ↔
      ∀ i ∈ imports, ∃ nodes, i.forest = .ok nodes := by
  induction imports with
  | nil => exact iff_of_true ⟨[], rfl⟩ fun _ => List.not_mem_nil.elim
  | cons i rest ih =>
      rw [importsForest, List.forall_mem_cons, ← ih]
      cases i.forest with
      | error fault => exact iff_of_false (by rintro ⟨_, ⟨⟩⟩) (by rintro ⟨⟨_, ⟨⟩⟩, -⟩)
      | ok first =>
          cases importsForest rest with
          | error fault => exact iff_of_false (by rintro ⟨_, ⟨⟩⟩) (by rintro ⟨-, _, ⟨⟩⟩)
          | ok others => exact iff_of_true ⟨_, rfl⟩ ⟨⟨_, rfl⟩, _, rfl⟩

theorem map_unit_ok_iff {α : Type} {e : Except Fault α} :
    (∃ u, e.map (fun _ => PUnit.unit) = .ok u) ↔ ∃ a, e = .ok a := by
  cases e with
  | error fault => exact iff_of_false nofun nofun
  | ok a => exact iff_of_true ⟨_, rfl⟩ ⟨_, rfl⟩

section

variable {idle : List DefinitionKey}

mutual

/-- Writing a document warns about the constructs that are come to, with what goes before. -/
theorem Document.draft_raises : ∀ (e : Document) (a : Address), (∀ key ∈ e.keys, key ∈ idle) →
    (e.draft idle).Raises (e.forest.map fun _ => ⟨⟩) fun span w => ∃ x, e.Warns idle a x span w
  | ⟨path, ⟨imports, definitions, declarations, children⟩⟩, a, h => by
      have hprints := Document.draft_prints ⟨path, ⟨imports, definitions, declarations, children⟩⟩ h
      have himports := draftImports_raises imports a 0 fun key hkey => h key <|
        (Block.importKeys_sublist _).subset hkey
      have hscope : Document.HasScope ⟨path, ⟨imports, definitions, declarations, children⟩⟩
        (.ofBlock ⟨imports, definitions, declarations, children⟩) := .root
      obtain ⟨result, hrules⟩ := draftRules_raises_of idle
        (.ofBlock ⟨imports, definitions, declarations, children⟩)
        fun i rule hrule => rule.draft_raises (.child i :: a) hscope (List.mem_of_getElem? hrule)
      replace hrules := hrules.iff fun span w => Scope.warns_iff.symm
      suffices h : ∃ result, Raises _ result _ from h.elim fun _ h => h.outcome hprints.outcome
      rw [Document.draft.eq_def]
      refine ⟨_, (himports.bind fun _ _ => hrules).iff fun span w => ?_⟩
      rw [exists_and_right, map_unit_ok_iff, importsForest_ok_iff]
      constructor
      · rintro (⟨j, e', hget, hthrough, x, hx⟩ | ⟨hforest, x, hx⟩)
        · rw [Nat.zero_add] at hx
          exact ⟨x, .imported hget hthrough hx⟩
        · exact ⟨x, .own hforest hx⟩
      · rintro ⟨x, hx⟩
        cases hx with
        | imported hget hthrough hx => exact .inl ⟨_, _, hget, hthrough, x, Nat.zero_add _ ▸ hx⟩
        | own hforest hx => exact .inr ⟨hforest, x, hx⟩

theorem Import.draft_raises : ∀ (i : Import) (a : Address), (∀ key ∈ i.keys, key ∈ idle) →
    (i.draft idle).Raises (i.forest.map fun _ => ⟨⟩)
      fun span w => ∃ e x, i = .sheet e ∧ e.Warns idle a x span w
  | .sheet e, a, h => (e.draft_raises a h).iff (by simp)
  | .css t, _, _ => (Raises.write (·.raw t)).iff (by simp)

/-- The first of the imports has the number `i`. -/
theorem draftImports_raises : ∀ (imports : List Import) (a : Address) (i : Nat),
    (∀ key ∈ importKeys imports, key ∈ idle) →
      (draftImports idle imports).Raises ((importsForest imports).map fun _ => ⟨⟩) fun span w =>
        ∃ (j : Nat) (e : Document), imports[j]? = some (.sheet e) ∧
          Through Import.forest imports j ∧ ∃ x, e.Warns idle (.imported (i + j) :: a) x span w
  | [], _, _, _ => (Raises.pure PUnit.unit).iff (by simp)
  | first :: rest, a, i, h => by
      have hprints := draftImports_prints (first :: rest) h
      rw [importKeys] at h
      have hfirst := first.draft_raises (.imported i :: a) fun key hkey =>
        h key (List.mem_append_left _ hkey)
      have hrest := draftImports_raises rest a (i + 1) fun key hkey =>
        h key (List.mem_append_right _ hkey)
      rw [draftImports] at hprints ⊢
      refine ((hfirst.bind fun _ _ => hrest).outcome hprints.outcome).iff fun span w => ?_
      rw [exists_and_right, map_unit_ok_iff]
      constructor
      · rintro (⟨e, x, rfl, hx⟩ | ⟨hforest, j, e, hget, hthrough, x, hx⟩)
        · exact ⟨0, e, rfl, nofun, x, hx⟩
        · rw [Nat.add_right_comm, Nat.add_assoc] at hx
          exact ⟨j + 1, e, hget, through_succ.mpr ⟨hforest, hthrough⟩, x, hx⟩
      · rintro ⟨_ | j, e, hget, hthrough, x, hx⟩
        · cases hget
          exact .inl ⟨e, x, rfl, hx⟩
        · obtain ⟨hforest, hthrough⟩ := through_succ.mp hthrough
          refine .inr ⟨hforest, j, e, hget, hthrough, x, ?_⟩
          rw [Nat.add_right_comm, Nat.add_assoc]
          exact hx

end

end

/-! ## One warning for a construct -/

theorem mem_callMarks {c : MixinCall} (a : Address) : ∀ {l : List Declaration} {k : Nat} (i : Nat),
    l[k]? = some (.call c) → (c.span, Construct.call a (i + k)) ∈ callMarks a i l
  | _ :: rest, 0, i, h => by
      cases h
      exact List.mem_cons_self ..
  | first :: rest, k + 1, i, h => by
      have hrest : _ ∈ callMarks a (i + 1) rest := mem_callMarks a (i + 1) h
      rw [Nat.add_right_comm, Nat.add_assoc] at hrest
      cases first with
      | property p => exact hrest
      | call other => exact List.mem_cons_of_mem _ hrest

theorem subset_ruleMarks {rule : Rule} (a : Address) : ∀ {rules : List Rule} {k : Nat} (i : Nat),
    rules[k]? = some rule → rule.constructs (.child (i + k) :: a) ⊆ ruleMarks a i rules
  | _ :: rest, 0, i, h => by
      cases h
      exact List.subset_append_left ..
  | first :: rest, k + 1, i, h => by
      have hrest : _ ⊆ ruleMarks a (i + 1) rest := subset_ruleMarks a (i + 1) h
      rw [Nat.add_right_comm, Nat.add_assoc] at hrest
      exact List.Subset.trans hrest (List.subset_append_right ..)

theorem subset_importMarks {e : Document} (a : Address) :
    ∀ {imports : List Import} {k : Nat} (i : Nat), imports[k]? = some (.sheet e) →
      e.constructs (.imported (i + k) :: a) ⊆ importMarks a i imports
  | _ :: rest, 0, i, h => by
      cases h
      exact List.subset_append_left ..
  | first :: rest, k + 1, i, h => by
      have hrest : _ ⊆ importMarks a (i + 1) rest := subset_importMarks a (i + 1) h
      rw [Nat.add_right_comm, Nat.add_assoc] at hrest
      exact List.Subset.trans hrest (List.subset_append_right ..)

namespace Document.ScopeAt

variable {d : Document} {root a : Address} {s s' : Scope} {rule : Rule} {i : Nat}

theorem rule_constructs_subset (hget : s.body.children[i]? = some rule) :
    rule.constructs (.child i :: a) ⊆ s.body.constructs a := by
  have hrule := subset_ruleMarks a 0 hget
  rw [Nat.zero_add] at hrule
  rw [Block.constructs_eq]
  exact List.Subset.trans hrule (List.subset_append_right ..)

/-- The constructs of the innermost block are constructs of the document. -/
theorem constructs_subset (h : d.ScopeAt root a s) : s.body.constructs a ⊆ d.constructs root := by
  induction h with
  | root =>
      rw [d.constructs_eq]
      exact List.Subset.refl _
  | @imported b layer outer i e' _ hget ih =>
      refine List.Subset.trans ?_ ih
      have himport := subset_importMarks b 0 hget
      rw [Nat.zero_add, e'.constructs_eq] at himport
      refine List.Subset.trans himport ?_
      rw [Scope.body, Block.constructs_eq, List.append_assoc]
      exact List.subset_append_left ..
  | @body b layer outer i rule _ _ hget _ ih =>
      refine List.Subset.trans ?_ ih
      refine List.Subset.trans ?_ (rule_constructs_subset hget)
      rw [rule.constructs_eq]
      exact List.subset_append_right ..

/-- The address of a block tells it, and the blocks around it. -/
theorem blocks_unique (h : d.ScopeAt [] a s) (h' : d.ScopeAt [] a s') :
    s.map Layer.block = s'.map Layer.block := by
  induction h generalizing s' with
  | root =>
      cases h'
      rfl
  | imported _ hget ih =>
      cases h' with
      | imported h' hget' =>
          obtain ⟨hblock, -⟩ := List.cons.inj (ih h')
          rw [hblock] at hget
          cases hget.symm.trans hget'
          rfl
  | body _ hget _ ih =>
      cases h' with
      | body h' hget' =>
          have hblocks := ih h'
          rw [(List.cons.inj hblocks).1] at hget
          cases hget.symm.trans hget'
          exact congrArg (List.cons _) hblocks

theorem body_unique (h : d.ScopeAt [] a s) (h' : d.ScopeAt [] a s') : s.body = s'.body := by
  have hblocks := h.blocks_unique h'
  cases s with
  | nil => exact (h.hasScope.ne_nil rfl).elim
  | cons layer outer =>
      cases s' with
      | nil => exact (h'.hasScope.ne_nil rfl).elim
      | cons layer' outer' => exact (List.cons.inj hblocks).1

end Document.ScopeAt

/-- The scope of a place as it is visited, with nothing bound. -/
structure Document.VisitedAt (d : Document) (a : Address) (s : Scope) : Prop where
  stands : d.ScopeAt [] a s
  unbound : ∀ layer ∈ s, layer.bindings = []

namespace Document.VisitedAt

variable {d e : Document} {a : Address} {s s' : Scope} {rule : Rule} {i : Nat}

theorem imported (h : d.VisitedAt a (.ofBlock e.block)) {e' : Document}
    (hget : e.block.imports[i]? = some (.sheet e')) :
    d.VisitedAt (.imported i :: a) (.ofBlock e'.block) :=
  ⟨h.stands.imported hget, fun layer hlayer => by rw [List.mem_singleton.mp hlayer]⟩

theorem child (h : d.VisitedAt a s) (hget : s.body.children[i]? = some rule) :
    d.VisitedAt (.child i :: a) (s.nest rule.block) := by
  refine ⟨h.stands.child hget, fun layer hlayer => ?_⟩
  rcases List.mem_cons.mp hlayer with rfl | hlayer
  · rfl
  · exact h.unbound layer hlayer

theorem unique (h : d.VisitedAt a s) (h' : d.VisitedAt a s') : s = s' := by
  have bare {t : Scope} (ht : ∀ layer ∈ t, layer.bindings = []) :
      (t.map Layer.block).map (fun b => Layer.mk b []) = t := by
    rw [List.map_map]
    refine (List.map_congr_left fun layer hlayer => ?_).trans (List.map_id t)
    rw [Function.comp_apply, ← ht layer hlayer]
    rfl
  rw [← bare h.unbound, ← bare h'.unbound, h.stands.blocks_unique h'.stands]

end Document.VisitedAt

/-- What is warned about at a construct, if it is come to. -/
inductive Document.Remarks (d : Document) (idle : List DefinitionKey) :
    Construct → Span → Warning → Prop
  | call {a : Address} {s : Scope} {k : Nat} {c : MixinCall} : d.ScopeAt [] a s →
      s.body.declarations[k]? = some (.call c) →
      Remarks d idle (.call a k) c.span (.undefinedMixin c.name)
  | orphan {a : Address} {s : Scope} {i : Nat} {rule : Rule} {w : Warning} : d.VisitedAt a s →
      s.body.children[i]? = some rule → Siblings.Orphaned s.body.children i →
      rule.condition.bind Condition.orphan? = some w →
      Remarks d idle (.condition (.child i :: a)) rule.span w
  | malformed {a : Address} {s : Scope} {i : Nat} {rule : Rule} {c : Raw} {t : Text} :
      d.VisitedAt a s → s.body.children[i]? = some rule →
      Siblings.Tested s.body.children (Siblings.outcome idle s s.body.children) i →
      rule.condition.bind Condition.text? = some c → s.evaluate idle c = .ok t →
      Remarks d idle (.condition (.child i :: a)) c.span (.malformedCondition t)

/-- A call that is come to stands in a block of the document. -/
theorem Scope.ComesToNothing.stands {d : Document} {idle : List DefinitionKey} {depth k : Nat}
    {root a b : Address} {s : Scope} {c : MixinCall} (h : s.ComesToNothing idle b k c depth a)
    (hs : d.ScopeAt root a s) :
    ∃ t, d.ScopeAt root b t ∧ t.body.declarations[k]? = some (.call c) := by
  induction h with
  | here hi _ => exact ⟨_, hs, hi.stands⟩
  | inside _ hmixin hplace hbindings _ ih => exact ih (hs.called hmixin hplace hbindings)

namespace Document

variable {d e : Document} {idle : List DefinitionKey} {a : Address} {s : Scope} {x : Construct}
  {span span' : Span} {w w' : Warning}

theorem remarks_of_rules (hs : d.VisitedAt a s) (h : s.Warns idle a x span w) :
    d.Remarks idle x span w := by
  induction h with
  | orphan hi horphaned hw => exact .orphan hs hi.stands horphaned hw
  | malformed hi htested hc ht _ => exact .malformed hs hi.stands htested hc ht
  | call hi _ _ hnothing =>
      obtain ⟨t, ht, hget⟩ := hnothing.stands (hs.child hi.stands).stands
      exact .call ht hget
  | nested hi _ _ _ _ ih => exact ih (hs.child hi.stands)

theorem remarks_of_warns (he : d.VisitedAt a (.ofBlock e.block)) (h : e.Warns idle a x span w) :
    d.Remarks idle x span w := by
  induction h with
  | imported hget _ _ ih => exact ih (he.imported hget)
  | own _ h => exact remarks_of_rules he h

theorem Warns.remarks (h : d.Warns idle [] x span w) : d.Remarks idle x span w := by
  refine remarks_of_warns ⟨.root, fun layer hlayer => ?_⟩ h
  rw [List.mem_singleton.mp hlayer]

theorem mem_conditionMarks {rule : Rule} {condition : Condition} (a : Address)
    (hcondition : rule.condition = some condition) (hspan : span ∈ rule.span :: condition.spans) :
    (span, Construct.condition a) ∈ rule.constructs a := by
  rw [rule.constructs_eq, hcondition]
  exact List.mem_append_left _ (List.mem_map_of_mem hspan)

/-- A warning carries the span of what it is about. -/
theorem Remarks.mem_constructs (h : d.Remarks idle x span w) : (span, x) ∈ d.constructs [] := by
  cases h with
  | @call a s k c hs hget =>
      have hmark := mem_callMarks a 0 hget
      rw [Nat.zero_add] at hmark
      refine hs.constructs_subset ?_
      rw [Block.constructs_eq]
      exact List.mem_append_left _ (List.mem_append_right _ hmark)
  | orphan hs hget _ hw =>
      refine hs.stands.constructs_subset (ScopeAt.rule_constructs_subset hget ?_)
      obtain ⟨condition, hcondition, -⟩ := Option.bind_eq_some_iff.mp hw
      exact mem_conditionMarks _ hcondition (List.mem_cons_self ..)
  | malformed hs hget _ hc _ =>
      refine hs.stands.constructs_subset (ScopeAt.rule_constructs_subset hget ?_)
      obtain ⟨condition, hcondition, hc⟩ := Option.bind_eq_some_iff.mp hc
      refine mem_conditionMarks _ hcondition (List.mem_cons_of_mem _ ?_)
      cases condition <;> cases hc <;> exact List.mem_singleton_self _

/-- There is one warning about a construct at most. -/
theorem Remarks.unique (h : d.Remarks idle x span w) (h' : d.Remarks idle x span' w') :
    span = span' ∧ w = w' := by
  cases h with
  | call hs hget =>
      cases h' with
      | call hs' hget' =>
          rw [hs.body_unique hs'] at hget
          cases hget.symm.trans hget'
          exact ⟨rfl, rfl⟩
  | orphan hs hget horphaned hw =>
      cases h' with
      | orphan hs' hget' _ hw' =>
          obtain rfl := hs.unique hs'
          cases hget.symm.trans hget'
          exact ⟨rfl, Option.some.inj (hw.symm.trans hw')⟩
      | malformed hs' _ htested _ _ =>
          obtain rfl := hs.unique hs'
          exact (horphaned.not_tested htested).elim
  | malformed hs hget htested hc ht =>
      cases h' with
      | orphan hs' _ horphaned _ =>
          obtain rfl := hs.unique hs'
          exact (horphaned.not_tested htested).elim
      | malformed hs' hget' _ hc' ht' =>
          obtain rfl := hs.unique hs'
          cases hget.symm.trans hget'
          obtain rfl := Option.some.inj (hc.symm.trans hc')
          exact ⟨rfl, congrArg _ (Except.ok.inj (ht.symm.trans ht'))⟩

end Document

/-! ## The log -/

/-- The log of a run says exactly what has been come to: each construct that is warned about,
once, and nothing else. -/
structure Document.LoggedBy (d : Document) (log : Warnings) : Prop where
  unrepeated : (log.map Prod.fst).Nodup
  exact : ∀ span w, (span, w) ∈ log ↔ ∃ x, d.Warns d.keys [] x span w
  /-- A warning carries a span of its construct. -/
  marks : ∀ x span w, d.Warns d.keys [] x span w → (span, x) ∈ d.constructs []
  /-- No two constructs of the document share a span, so none is left out for another. -/
  apart : ∀ x y span, (span, x) ∈ d.constructs [] → (span, y) ∈ d.constructs [] → x = y
  /-- However often a construct is come to, the warning is the same. -/
  alike : ∀ x span span' w w', d.Warns d.keys [] x span w → d.Warns d.keys [] x span' w' →
    span = span' ∧ w = w'

theorem Document.loggedBy_of_read {options : Options} {path : Path} {text : Text} {d : Document}
    (h : (StyleSheet.readState options path text).1 = .ok d) : d.LoggedBy d.css.2 := by
  obtain ⟨raised, hraised, hrun⟩ := d.draft_raises [] fun (_ : DefinitionKey) => id
  have hlog : d.css.2 = Warnings.record [] raised := (hrun ⟨.empty, []⟩).2
  have hunique : ∀ x ∈ raised, ∀ y ∈ raised, x.1 = y.1 → x = y := by
    rintro ⟨span, w⟩ hw ⟨_, w'⟩ hw' rfl
    obtain ⟨x, hx⟩ := (hraised _ _).mp hw
    obtain ⟨y, hy⟩ := (hraised _ _).mp hw'
    obtain rfl := constructs_unique_of_read h hx.remarks.mem_constructs hy.remarks.mem_constructs
    rw [(hx.remarks.unique hy.remarks).2]
  rw [hlog]
  exact {
    unrepeated := Warnings.nodup_record raised [] .nil
    exact := fun span w => (Warnings.mem_record hunique).trans (hraised span w)
    marks := fun _ _ _ hx => hx.remarks.mem_constructs
    apart := fun _ _ _ => constructs_unique_of_read h
    alike := fun _ _ _ _ _ hx hy => hx.remarks.unique hy.remarks }

/-- A run that is not quiet warns about each mixin call that is come to and resolves to
nothing, each `@elseif` and `@else` that is come to without a chain and each condition that is
tested and is not shaped like a comparison. It warns about each of these once, and about
nothing else, also if it fails later on. -/
theorem StyleSheet.warnings_exact {options : Options} {path : Path} {text : Text}
    {sheet : StyleSheet} (hread : (read options path text).result = .ok sheet)
    (options' : Options) (hquiet : options'.quiet = false) :
    (sheet.output options').diagnostics = sheet.document.css.2.map
        (fun (span, w) => ⟨.warning, w.message, sheet.sources.locate span⟩) ∧
      sheet.document.LoggedBy sheet.document.css.2 := by
  refine ⟨by simp [output, Options.warnings, hquiet], ?_⟩
  unfold read at hread
  cases hstate : (readState options path text).1 with
  | error fault =>
      simp only [hstate] at hread
      cases hread
  | ok d =>
      simp only [hstate] at hread
      cases hread
      exact Document.loggedBy_of_read hstate

/-- A call in a mixin that is expanded twice, a condition that is none and an `@else` behind a
rule: three warnings. -/
theorem StyleSheet.warnings_exact_three :
    let text : Text := ".m \x7b .n; \x7d a \x7b .m; .m; \x7d " ++
      "b @if (c) \x7b \x7d d \x7b \x7d e @else \x7b \x7d"
    ∃ sheet, (read {} ⟨"a.less"⟩ text).result = .ok sheet ∧
      (sheet.output {}).diagnostics.map Diagnostic.message =
        (["Mixin .n is not defined; the call is ignored.",
          "Malformed condition \"c\" is treated as false.",
          "@else without a preceding @if is ignored."] : List Text) ∧
      sheet.document.LoggedBy sheet.document.css.2 := by
  intro text
  have hparts : (read {} ⟨"a.less"⟩ text).result.toOption.any (fun sheet =>
      (sheet.output {}).diagnostics.map Diagnostic.message =
        (["Mixin .n is not defined; the call is ignored.",
          "Malformed condition \"c\" is treated as false.",
          "@else without a preceding @if is ignored."] : List Text)) = true := by
    decide +kernel
  cases hread : (read {} ⟨"a.less"⟩ text).result with
  | error failure =>
      rw [hread] at hparts
      cases hparts
  | ok sheet =>
      rw [hread] at hparts
      exact ⟨sheet, rfl, of_decide_eq_true hparts, (warnings_exact hread {} rfl).2⟩

end Cascade
