import Cascade.Proofs.Relocation
import Cascade.Proofs.Simulation
import Mathlib.Data.List.InsertIdx

/-!
# The place of a mixin

A mixin with a parameter list is written nowhere, and a call finds it by its name. So it
may stand anywhere among the rules around it, before its calls or behind them, as long as
no other of these answers to its name, which could be found in its place, and none has a
condition, so that no chain is cut in two where the mixin comes to stand
(`Document.MovesMixin.same_css`).

The two documents are alike in all places but one, and so is every scope in which either
is written. Looking up a name gives the same in two such scopes, up to being alike, which
is a simulation for values and for bodies.
-/

namespace Cascade

/-! ## Moving a mixin -/

/-- The rule is a mixin with a parameter list, and among these siblings it may stand
anywhere: none answers to a name that it answers to, and none has a condition. -/
structure Rule.IsLoose (rule : Rule) (siblings : List Rule) : Prop where
  isMixin : rule.isMixin = true
  alone : ∀ name, rule.answersTo name = true →
    ∀ other ∈ siblings, other.answersTo name = false
  unconditional : ∀ other ∈ rule :: siblings, other.condition = none

/-- Somewhere in the block, at any depth and also in what is imported, a mixin has been
moved to another place among its siblings. -/
inductive Block.MovesMixin : Block → Block → Prop
  | here {imports : List Import} {definitions : List (Text × Raw)}
      {declarations : List Declaration} {rule : Rule} {siblings : List Rule} {i j : Nat} :
      rule.IsLoose siblings → i ≤ siblings.length → j ≤ siblings.length →
      MovesMixin ⟨imports, definitions, declarations, siblings.insertIdx i rule⟩
        ⟨imports, definitions, declarations, siblings.insertIdx j rule⟩
  | child {imports : List Import} {definitions : List (Text × Raw)}
      {declarations : List Declaration} {before after : List Rule} {rule : Rule} {b : Block} :
      MovesMixin rule.block b →
      MovesMixin ⟨imports, definitions, declarations, before ++ rule :: after⟩
        ⟨imports, definitions, declarations, before ++ { rule with block := b } :: after⟩
  | imported {before after : List Import} {e : Document} {b : Block}
      {definitions : List (Text × Raw)} {declarations : List Declaration}
      {children : List Rule} : MovesMixin e.block b →
      MovesMixin ⟨before ++ .sheet e :: after, definitions, declarations, children⟩
        ⟨before ++ .sheet { e with block := b } :: after, definitions, declarations, children⟩

/-- One of the mixins of the document has been moved to another place among its siblings. -/
def Document.MovesMixin (d d' : Document) : Prop := d.path = d'.path ∧ d.block.MovesMixin d'.block

/-! ## Definitions -/

theorem ruleKeys_eq_flatMap (rules : List Rule) : ruleKeys rules = rules.flatMap Rule.keys := by
  induction rules with
  | nil => rfl
  | cons rule rest ih => rw [ruleKeys, ih, List.flatMap_cons]

theorem importKeys_eq_flatMap (imports : List Import) :
    importKeys imports = imports.flatMap Import.keys := by
  induction imports with
  | nil => rfl
  | cons i rest ih => rw [importKeys, ih, List.flatMap_cons]

/-- The definitions are the same, in another order. -/
theorem Block.MovesMixin.keys_perm {b b' : Block} (h : b.MovesMixin b') : b.keys.Perm b'.keys := by
  induction h with
  | here _ hi hj =>
      rw [Block.keys, Block.keys, ruleKeys_eq_flatMap, ruleKeys_eq_flatMap]
      refine List.Perm.append_left _ (List.Perm.flatMap_right _ ?_)
      exact (List.perm_insertIdx _ _ hi).trans (List.perm_insertIdx _ _ hj).symm
  | child _ ih =>
      rw [Block.keys, Block.keys, ruleKeys_eq_flatMap, ruleKeys_eq_flatMap, List.flatMap_append,
        List.flatMap_append, List.flatMap_cons, List.flatMap_cons, Rule.keys_eq, Rule.keys_eq]
      exact .append_left _ (.append_left _ (.append_right _ (.append_left _ ih)))
  | imported _ ih =>
      rw [Block.keys, Block.keys, importKeys_eq_flatMap, importKeys_eq_flatMap,
        List.flatMap_append, List.flatMap_append, List.flatMap_cons, List.flatMap_cons,
        Import.keys, Import.keys, Document.keys_eq, Document.keys_eq]
      exact .append_right _ (.append_left _ (.append_left _ (.append_right _ ih)))

/-! ## Blocks that are alike -/

/-- The blocks are the same but for the place of a mixin at most. -/
def Block.Alike (b b' : Block) : Prop := b = b' ∨ b.MovesMixin b'

/-- The rules are the same but for the place of a mixin inside them at most. -/
def Rule.Alike (r r' : Rule) : Prop := r.block.Alike r'.block ∧ r' = { r with block := r'.block }

inductive Import.Alike : Import → Import → Prop
  | sheet {e e' : Document} : e.block.Alike e'.block → Import.Alike (.sheet e) (.sheet e')
  | css (t : Text) : Import.Alike (.css t) (.css t)

/-- Either the rules are alike one by one, or a mixin among them has been moved. -/
inductive RulesAlike : List Rule → List Rule → Prop
  | pointwise {rules rules' : List Rule} : List.Forall₂ Rule.Alike rules rules' →
      RulesAlike rules rules'
  | moved {rule : Rule} {siblings : List Rule} {i j : Nat} :
      rule.IsLoose siblings → i ≤ siblings.length → j ≤ siblings.length →
      RulesAlike (siblings.insertIdx i rule) (siblings.insertIdx j rule)

theorem Rule.Alike.refl (r : Rule) : r.Alike r := by
  cases r
  exact ⟨.inl rfl, rfl⟩

theorem Import.Alike.refl (i : Import) : i.Alike i := by
  cases i with
  | sheet _ => exact .sheet (.inl rfl)
  | css t => exact .css t

theorem Rule.forall₂_alike (rules : List Rule) : List.Forall₂ Rule.Alike rules rules :=
  List.forall₂_same.mpr fun r _ => .refl r

theorem Import.forall₂_alike (imports : List Import) : List.Forall₂ Import.Alike imports imports :=
  List.forall₂_same.mpr fun i _ => .refl i

/-- What is the same in blocks that are alike, and what is alike again. -/
structure Block.AlikeParts (b b' : Block) : Prop where
  imports : List.Forall₂ Import.Alike b.imports b'.imports
  definitions : b.definitions = b'.definitions
  declarations : b.declarations = b'.declarations
  children : RulesAlike b.children b'.children

theorem forall₂_middle {α : Type} {r : α → α → Prop} (hrefl : ∀ a, r a a) {a a' : α}
    (h : r a a') (before after : List α) :
    List.Forall₂ r (before ++ a :: after) (before ++ a' :: after) :=
  List.rel_append (List.forall₂_same.mpr fun a _ => hrefl a)
    (.cons h (List.forall₂_same.mpr fun a _ => hrefl a))

theorem Block.Alike.parts {b b' : Block} (h : b.Alike b') : b.AlikeParts b' := by
  obtain rfl | hmoves := h
  · exact ⟨Import.forall₂_alike _, rfl, rfl, .pointwise (Rule.forall₂_alike _)⟩
  · cases hmoves with
    | here hloose hi hj => exact ⟨Import.forall₂_alike _, rfl, rfl, .moved hloose hi hj⟩
    | child h =>
        exact ⟨Import.forall₂_alike _, rfl, rfl,
          .pointwise (forall₂_middle Rule.Alike.refl ⟨.inr h, rfl⟩ _ _)⟩
    | imported h =>
        exact ⟨forall₂_middle Import.Alike.refl (.sheet (.inr h)) _ _, rfl, rfl,
          .pointwise (Rule.forall₂_alike _)⟩

/-! ## Looking names up -/

namespace Rule

variable {r r' : Rule}

theorem Alike.kind (h : r.Alike r') : r.kind = r'.kind := by rw [h.2]

theorem Alike.condition (h : r.Alike r') : r.condition = r'.condition := by rw [h.2]

theorem Alike.span (h : r.Alike r') : r.span = r'.span := by rw [h.2]

theorem Alike.name (h : r.Alike r') : r.name = r'.name := by
  rw [h.2]
  rfl

theorem Alike.answersTo (h : r.Alike r') (mixin : Text) :
    r.answersTo mixin = r'.answersTo mixin := by
  rw [h.2]
  rfl

theorem IsLoose.tail {rule other : Rule} {siblings : List Rule}
    (h : rule.IsLoose (other :: siblings)) : rule.IsLoose siblings where
  isMixin := h.isMixin
  alone name hname r hr := h.alone name hname r (List.mem_cons_of_mem _ hr)
  unconditional r hr := by
    refine h.unconditional r (List.mem_cons.mpr ((List.mem_cons.mp hr).imp_right ?_))
    exact List.mem_cons_of_mem _

/-- Wherever a loose rule stands, it is found by its own names, and by no other name. -/
theorem IsLoose.find? {rule : Rule} {mixin : Text} : ∀ {siblings : List Rule} {i : Nat},
    rule.IsLoose siblings → i ≤ siblings.length →
      (siblings.insertIdx i rule).find? (·.answersTo mixin) =
        if rule.answersTo mixin then some rule else siblings.find? (·.answersTo mixin)
  | siblings, 0, _, _ => by
      rw [List.insertIdx_zero, List.find?_cons]
      cases rule.answersTo mixin <;> rfl
  | [], i + 1, _, hi => (Nat.not_succ_le_zero i hi).elim
  | other :: siblings, i + 1, h, hi => by
      rw [List.insertIdx_succ_cons, List.find?_cons, List.find?_cons,
        h.tail.find? (Nat.le_of_succ_le_succ hi)]
      cases hrule : rule.answersTo mixin with
      | true => simp only [h.alone mixin hrule other (List.mem_cons_self ..), if_true]
      | false => cases other.answersTo mixin <;> rfl

end Rule

theorem RulesAlike.find? {rules rules' : List Rule} (h : RulesAlike rules rules') (mixin : Text) :
    Option.Rel Rule.Alike (rules.find? (·.answersTo mixin)) (rules'.find? (·.answersTo mixin)) := by
  cases h with
  | pointwise h =>
      induction h with
      | nil => exact .none
      | cons hr _ ih =>
          rw [List.find?_cons, List.find?_cons, hr.answersTo]
          split
          · exact .some hr
          · exact ih
  | @moved rule siblings _ _ hloose hi hj =>
      rw [hloose.find? hi, hloose.find? hj]
      split
      · exact .some (.refl rule)
      · cases siblings.find? (·.answersTo mixin) with
        | none => exact .none
        | some r => exact .some (.refl r)

/-- The bindings are the same, and the blocks but for the place of a mixin. -/
def Layer.Alike (layer layer' : Layer) : Prop :=
  layer.bindings = layer'.bindings ∧ layer.block.Alike layer'.block

/-- Both scopes are of the same place, where a mixin may stand elsewhere. -/
def Scope.Alike (s s' : Scope) : Prop := List.Forall₂ Layer.Alike s s'

theorem Scope.Alike.ofBlock {b b' : Block} (h : b.Alike b') :
    (Scope.ofBlock b).Alike (.ofBlock b') := .cons ⟨rfl, h⟩ .nil

/-- What was found are the same values, in homes that are alike. -/
abbrev MeaningsAlike : Option Meaning → Option Meaning → Prop :=
  MeaningAlike fun _ => Scope.Alike

theorem MeaningAlike.orElse {rel : Raw → Scope → Scope → Prop}
    {found found' other other' : Option Meaning} :
    MeaningAlike rel found found' → MeaningAlike rel other other' →
      MeaningAlike rel (match found with | some m => some m | none => other)
        (match found' with | some m => some m | none => other') := by
  intro h hother
  cases h with
  | unknown => exact hother
  | evaluated t => exact .evaluated t
  | raw h => exact .raw h

/-- What was found are rules that are alike, in homes that are. -/
abbrev MixinsAlike : Option (Rule × Scope) → Option (Rule × Scope) → Prop :=
  Option.Rel fun found found' => found.1.Alike found'.1 ∧ found.2.Alike found'.2

theorem MixinsAlike.orElse {found found' other other' : Option (Rule × Scope)} :
    MixinsAlike found found' → MixinsAlike other other' →
      MixinsAlike (match found with | some m => some m | none => other)
        (match found' with | some m => some m | none => other') := by
  intro h hother
  cases h with
  | none => exact hother
  | some h => exact .some h

mutual

theorem Document.meaning?_alike (name : Text) : ∀ e e' : Document, e.block.Alike e'.block →
    MeaningsAlike (e.meaning? name) (e'.meaning? name)
  | ⟨_, block⟩, ⟨_, block'⟩, h => block.rootMeaning?_alike name block' h

theorem Block.rootMeaning?_alike (name : Text) : ∀ b b' : Block, b.Alike b' →
    MeaningsAlike (b.rootMeaning? name) (b'.rootMeaning? name)
  | ⟨imports, definitions, _, _⟩, ⟨imports', _, _, _⟩, h => by
      obtain ⟨himports, rfl, -, -⟩ := h.parts
      rw [Block.rootMeaning?, Block.rootMeaning?]
      cases definitions.lookup name with
      | some value => exact .raw (.ofBlock h)
      | none => exact importedMeaning?_alike name imports imports' himports

theorem Import.meaning?_alike (name : Text) : ∀ i i' : Import, i.Alike i' →
    MeaningsAlike (i.meaning? name) (i'.meaning? name)
  | .sheet e, _, .sheet h => e.meaning?_alike name _ h
  | .css _, _, .css _ => .unknown

theorem importedMeaning?_alike (name : Text) : ∀ imports imports' : List Import,
    List.Forall₂ Import.Alike imports imports' →
      MeaningsAlike (importedMeaning? name imports) (importedMeaning? name imports')
  | [], _, .nil => .unknown
  | i :: rest, _, .cons h hrest => by
      rw [importedMeaning?, importedMeaning?]
      exact (i.meaning?_alike name _ h).orElse (importedMeaning?_alike name rest _ hrest)

end

mutual

theorem Document.mixin?_alike (name : Text) : ∀ e e' : Document, e.block.Alike e'.block →
    MixinsAlike (e.mixin? name) (e'.mixin? name)
  | ⟨_, block⟩, ⟨_, block'⟩, h => block.rootMixin?_alike name block' h

theorem Block.rootMixin?_alike (name : Text) : ∀ b b' : Block, b.Alike b' →
    MixinsAlike (b.rootMixin? name) (b'.rootMixin? name)
  | ⟨imports, _, _, children⟩, ⟨imports', _, _, children'⟩, h => by
      obtain ⟨himports, -, -, hchildren⟩ := h.parts
      rw [Block.rootMixin?, Block.rootMixin?]
      have hfound := hchildren.find? name
      generalize children.find? (·.answersTo name) = found at hfound
      generalize children'.find? (·.answersTo name) = found' at hfound
      cases hfound with
      | some hrule => exact .some ⟨hrule, .ofBlock h⟩
      | none => exact importedMixin?_alike name imports imports' himports

theorem Import.mixin?_alike (name : Text) : ∀ i i' : Import, i.Alike i' →
    MixinsAlike (i.mixin? name) (i'.mixin? name)
  | .sheet e, _, .sheet h => e.mixin?_alike name _ h
  | .css _, _, .css _ => .none

theorem importedMixin?_alike (name : Text) : ∀ imports imports' : List Import,
    List.Forall₂ Import.Alike imports imports' →
      MixinsAlike (importedMixin? name imports) (importedMixin? name imports')
  | [], _, .nil => .none
  | i :: rest, _, .cons h hrest => by
      rw [importedMixin?, importedMixin?]
      exact (i.mixin?_alike name _ h).orElse (importedMixin?_alike name rest _ hrest)

end

namespace Scope.Alike

theorem meaning? (name : Text) {s s' : Scope} (h : s.Alike s') :
    MeaningsAlike (s.meaning? name) (s'.meaning? name) := by
  induction h with
  | nil => exact .unknown
  | @cons layer layer' outer outer' hlayer houter ih =>
      have hscope : Scope.Alike (layer :: outer) (layer' :: outer') := .cons hlayer houter
      obtain ⟨hbindings, hblock⟩ := hlayer
      rw [Scope.meaning?, Scope.meaning?]
      refine MeaningAlike.orElse ?_ ih
      rw [ownMeaning?, ownMeaning?, hbindings]
      cases layer'.bindings.lookup name with
      | some b =>
          cases b with
          | argument t => exact .evaluated t
          | fallback value => exact .raw hscope
      | none =>
          simp only [hblock.parts.definitions]
          cases layer'.block.definitions.lookup name with
          | some value => exact .raw hscope
          | none => exact importedMeaning?_alike name _ _ hblock.parts.imports

theorem mixin? (name : Text) {s s' : Scope} (h : s.Alike s') :
    MixinsAlike (s.mixin? name) (s'.mixin? name) := by
  induction h with
  | nil => exact .none
  | @cons layer layer' outer outer' hlayer houter ih =>
      have hscope : Scope.Alike (layer :: outer) (layer' :: outer') := .cons hlayer houter
      rw [mixin?_cons, mixin?_cons]
      refine MixinsAlike.orElse ?_ ih
      have hfound := hlayer.2.parts.children.find? name
      generalize layer.block.children.find? (·.answersTo name) = found at hfound
      generalize layer'.block.children.find? (·.answersTo name) = found' at hfound
      cases hfound with
      | some hrule => exact .some ⟨hrule, hscope⟩
      | none => exact importedMixin?_alike name _ _ hlayer.2.parts.imports

end Scope.Alike

/-! ## Writing -/

/-- The same definitions are idle. -/
abbrev SameIdle (idle idle' : List DefinitionKey) : Prop := IdleAmong (fun _ => True) idle idle'

section

variable {idle idle' : List DefinitionKey} {s s' : Scope}

theorem Scope.Alike.evaluate_eq (h : s.Alike s') (hidle : SameIdle idle idle') (raw : Raw) :
    s.evaluate idle raw = s'.evaluate idle' raw := by
  have hsim : Simulation (fun _ => True) fun _ => Scope.Alike := fun h name _ =>
    (h.meaning? name).imp fun _ _ _ _ hhome => ⟨trivial, hhome⟩
  exact hsim.evaluate_eq hidle h

theorem Scope.Alike.bodySimulation (hidle : SameIdle idle idle') :
    BodySimulation idle idle' Scope.Alike where
  declarations h := by
    cases h with
    | nil => rfl
    | cons hlayer => exact hlayer.2.parts.declarations
  property h _ := h.evaluate_eq hidle _
  call := by
    intro s s' c h _
    have hfound := h.mixin? c.name
    unfold CallAlike
    generalize s.mixin? c.name = found at hfound
    generalize s'.mixin? c.name = found' at hfound
    cases hfound with
    | none => exact .inl ⟨rfl, rfl⟩
    | @some found found' hfound =>
        obtain ⟨hrule, hhome⟩ := hfound
        refine .inr ⟨found.1, found.2, found'.1, found'.2, rfl, rfl, ?_, fun bindings _ => ?_⟩
        · exact MixinCall.bindings_eq hrule.kind hrule.name fun _ _ a _ => h.evaluate_eq hidle a
        · exact .cons ⟨rfl, hrule.1⟩ hhome

/-- The block of a rule comes to the same in scopes that are alike. -/
theorem Scope.Alike.declarations_nest (h : s.Alike s') (hidle : SameIdle idle idle')
    {b b' : Block} (hb : b.Alike b') :
    (s.nest b).declarations idle mixinLimit b = (s'.nest b').declarations idle' mixinLimit b' :=
  (bodySimulation hidle).declarations_eq mixinLimit (.cons ⟨rfl, hb⟩ h)

theorem Chain.takes_alike (h : s.Alike s') (hidle : SameIdle idle idle') {r r' : Rule}
    (hr : r.Alike r') (chain : Chain) : chain.takes idle s r = chain.takes idle' s' r' := by
  unfold takes test
  simp only [hr.condition, hr.span, h.evaluate_eq hidle]

/-- Rules that are written alike one by one. -/
theorem draftRules_pointwise (h : s.Alike s') (hidle : SameIdle idle idle')
    {rules rules' : List Rule} (hrules : List.Forall₂ Rule.Alike rules rules')
    (hdraft : ∀ r ∈ rules, ∀ r', r.Alike r' → r.draft idle s = r'.draft idle' s') (chain : Chain) :
    draftRules idle s chain rules = draftRules idle' s' chain rules' := by
  induction hrules generalizing chain with
  | nil => rfl
  | @cons r r' rest rest' hr _ ih =>
      rw [draftRules, draftRules, Chain.takes_alike h hidle hr]
      refine bind_congr fun pair => ?_
      obtain ⟨taken, chain⟩ := pair
      simp only [hdraft r (List.mem_cons_self ..) r' hr,
        ih (fun r hmem => hdraft r (List.mem_cons_of_mem _ hmem)) chain]

theorem Rule.draft_of_isMixin {rule : Rule} (h : rule.isMixin = true) :
    rule.draft idle s = pure ⟨⟩ := by
  obtain ⟨selectors, own, kind, condition, ⟨imports, definitions, declarations, children⟩, span⟩ :=
    rule
  cases kind with
  | mixin parameters => rw [Rule.draft.eq_def]
  | style | atRule _ | directive _ => cases h

theorem draftRules_unconditional {rule : Rule} (h : rule.condition = none) (chain : Chain)
    (rest : List Rule) : draftRules idle s chain (rule :: rest) =
      rule.draft idle s >>= fun _ => draftRules idle s .outside rest := by
  rw [draftRules, Chain.takes, h, Chain.branch, pure_bind]
  rfl

/-- Wherever a loose rule stands, the others are written as without it. -/
theorem Rule.IsLoose.draftRules_eq {rule : Rule} : ∀ {siblings : List Rule} {i : Nat},
    rule.IsLoose siblings → i ≤ siblings.length →
      draftRules idle s .outside (siblings.insertIdx i rule) = draftRules idle s .outside siblings
  | siblings, 0, h, _ => by
      have hrule := h.unconditional rule (List.mem_cons_self ..)
      rw [List.insertIdx_zero, draftRules_unconditional hrule, Rule.draft_of_isMixin h.isMixin,
        pure_bind]
  | [], i + 1, _, hi => (Nat.not_succ_le_zero i hi).elim
  | other :: siblings, i + 1, h, hi => by
      have hother := h.unconditional other (List.mem_cons_of_mem _ (List.mem_cons_self ..))
      rw [List.insertIdx_succ_cons, draftRules_unconditional hother,
        draftRules_unconditional hother, h.tail.draftRules_eq (Nat.le_of_succ_le_succ hi)]

/-- The rules of a block are written alike where each of them is. -/
theorem RulesAlike.draftRules_eq {rules rules' : List Rule} (hrules : RulesAlike rules rules')
    (h : s.Alike s') (hidle : SameIdle idle idle')
    (hdraft : ∀ r ∈ rules, ∀ r', r.Alike r' → r.draft idle s = r'.draft idle' s') :
    draftRules idle s .outside rules = draftRules idle' s' .outside rules' := by
  cases hrules with
  | pointwise hrules => exact draftRules_pointwise h hidle hrules hdraft .outside
  | @moved rule siblings _ _ hloose hi hj =>
      rw [hloose.draftRules_eq hi, hloose.draftRules_eq hj]
      refine draftRules_pointwise h hidle (Rule.forall₂_alike siblings) (fun r hr => ?_) .outside
      exact hdraft r ((List.mem_insertIdx hi).mpr (.inr hr))

theorem RulesAlike.isEmpty_eq {rules rules' : List Rule} (h : RulesAlike rules rules') :
    rules.isEmpty = rules'.isEmpty := by
  have hlength : rules.length = rules'.length := by
    cases h with
    | pointwise h => exact h.length_eq
    | moved _ hi hj =>
        rw [List.length_insertIdx_of_le_length hi, List.length_insertIdx_of_le_length hj]
  rw [Bool.eq_iff_iff, List.isEmpty_iff_length_eq_zero, List.isEmpty_iff_length_eq_zero, hlength]

mutual

theorem Rule.draft_alike (hidle : SameIdle idle idle') : ∀ (r : Rule) {r' : Rule} {s s' : Scope},
    s.Alike s' → r.Alike r' → r.draft idle s = r'.draft idle' s'
  | ⟨selectors, own, kind, condition, ⟨imports, definitions, declarations, children⟩, span⟩,
      r', s, s', h, hr => by
      obtain ⟨hblock, heq⟩ := hr
      rw [heq]
      obtain ⟨_, _, _, _, ⟨imports', definitions', declarations', children'⟩, _⟩ := r'
      have hnest : (s.nest ⟨imports, definitions, declarations, children⟩).Alike
          (s'.nest ⟨imports', definitions', declarations', children'⟩) := .cons ⟨rfl, hblock⟩ h
      have hdeclarations := h.declarations_nest hidle hblock
      have hchildren := hblock.parts.children.draftRules_eq hnest hidle
        fun r hmem r' => draftRules_alike hidle children r hmem hnest
      have hempty := hblock.parts.children.isEmpty_eq
      rw [Rule.draft.eq_def, Rule.draft.eq_def]
      cases kind with
      | mixin parameters => rfl
      | directive t => rfl
      | style => simp only [hdeclarations, hchildren]
      | atRule prelude => simp only [hdeclarations, hchildren, hempty]

theorem draftRules_alike (hidle : SameIdle idle idle') : ∀ (rules : List Rule), ∀ r ∈ rules,
    ∀ {r' : Rule} {s s' : Scope}, s.Alike s' → r.Alike r' → r.draft idle s = r'.draft idle' s'
  | rule :: rest, r, hmem, r', s, s', h, hr => by
      rcases List.mem_cons.mp hmem with heq | hmem
      · rw [heq] at hr ⊢
        exact rule.draft_alike hidle h hr
      · exact draftRules_alike hidle rest r hmem h hr

end

mutual

theorem Document.draft_alike (hidle : SameIdle idle idle') : ∀ {e e' : Document},
    e.block.Alike e'.block → e.draft idle = e'.draft idle'
  | ⟨_, ⟨imports, definitions, declarations, children⟩⟩,
      ⟨_, ⟨imports', definitions', declarations', children'⟩⟩, h => by
      have hchildren := h.parts.children.draftRules_eq (.ofBlock h) hidle
        fun r hmem r' => r.draft_alike hidle (.ofBlock h)
      have himports : draftImports idle imports = draftImports idle' imports' :=
        draftImports_alike hidle h.parts.imports
      rw [Document.draft.eq_def, Document.draft.eq_def]
      simp only [himports, hchildren]

theorem Import.draft_alike (hidle : SameIdle idle idle') : ∀ {i i' : Import},
    i.Alike i' → i.draft idle = i'.draft idle'
  | .sheet e, _, .sheet h => e.draft_alike hidle h
  | .css _, _, .css _ => rfl

theorem draftImports_alike (hidle : SameIdle idle idle') : ∀ {imports imports' : List Import},
    List.Forall₂ Import.Alike imports imports' →
      draftImports idle imports = draftImports idle' imports'
  | [], _, .nil => rfl
  | i :: rest, _, .cons h hrest => by
      rw [draftImports, draftImports, i.draft_alike hidle h, draftImports_alike hidle hrest]

end

end

/-- A document is written as before once one of its mixins has been moved to another place
among its siblings, with the same warnings or for the same fault. The spans of the source
may be others then; as long as no two become one, what is blamed and warned about is the
same. -/
theorem Document.MovesMixin.same_css {d d' : Document} (h : d.MovesMixin d') : d'.css = d.css ∧
    ∀ move : Span → Span, move.Injective → (d'.relocate move).css =
      (d.css.1.mapError (Fault.relocate move), d.css.2.relocate move) := by
  have hkeys : SameIdle d.keys d'.keys := fun key _ => by
    rw [d.keys_eq, d'.keys_eq, h.2.keys_perm.mem_iff]
  have hcss : d'.css = d.css := by
    rw [css, css, d.draft_alike hkeys (.inr h.2)]
  exact ⟨hcss, fun move hmove => by rw [css_relocate hmove, hcss]⟩

/-- A mixin inside an at-rule goes behind the rule that calls it. -/
theorem Document.MovesMixin.same_css_behind_call :
    let m : Rule := ⟨[".m"], [".m"], .mixin [⟨"x", none⟩], none,
      ⟨[], [], [.property ⟨"w", ⟨"@x", ⟨0, 5, 7⟩⟩⟩], []⟩, ⟨0, 0, 4⟩⟩
    let a : Rule := ⟨["a"], ["a"], .style, none,
      ⟨[], [], [.call ⟨".m", [⟨"1px", ⟨0, 12, 15⟩⟩], ⟨0, 10, 16⟩⟩], []⟩, ⟨0, 8, 9⟩⟩
    let media : Rule := ⟨[], [], .atRule "@media x", none, ⟨[], [], [], [m, a]⟩, ⟨0, 17, 18⟩⟩
    let d : Document := ⟨⟨"d"⟩, ⟨[], [], [], [media]⟩⟩
    let d' : Document := ⟨⟨"d"⟩, ⟨[], [], [], [{ media with block := ⟨[], [], [], [a, m]⟩ }]⟩⟩
    d.MovesMixin d' ∧ d'.css = d.css ∧
      d'.css.1 = .ok "@media x \x7b\n  a \x7b w: 1px; \x7d\n\x7d\n" := by
  intro m a media d d'
  have hloose : m.IsLoose [a] := by
    refine ⟨rfl, fun name hname => ?_, by decide +kernel⟩
    obtain rfl : name = ".m".toList := by simpa [m, Rule.answersTo] using hname
    decide +kernel
  have hmedia : media.block.MovesMixin ⟨[], [], [], [a, m]⟩ :=
    @Block.MovesMixin.here [] [] [] m [a] 0 1 hloose (Nat.zero_le 1) (Nat.le_refl 1)
  have hmoves : d.MovesMixin d' := ⟨rfl, @Block.MovesMixin.child [] [] [] [] [] media _ hmedia⟩
  exact ⟨hmoves, (Document.MovesMixin.same_css hmoves).1, by decide +kernel⟩

end Cascade
