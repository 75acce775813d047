import Cascade.Proofs.Scopes

/-!
# Documents with other tables

The tables of variables are the only part of a document in which names are given
values. A `Retabling` puts another table in the place of each, and leaves all else as
it is. What a table becomes may depend on where it stands, so an `Address` says this,
level by level.

Looking a name up finds the same in both documents as long as the tables on the way
agree on the name (`Scope.meaning?_retable`), and no table is on the way to a mixin
(`Scope.mixin?_retable`). Both say where the home of what was found stands, in terms
of any property of scopes that goes outwards and into imported files (`Closed`), and the
second one also where the rule stands that was found (`Scope.mixinPlace?`).
-/

namespace Cascade

/-- One level further into a document: the body of a nested rule or an imported file,
by its number in the block. -/
inductive Descent where
  | child (i : Nat)
  | imported (i : Nat)
deriving DecidableEq, Repr

/-- Where a block stands in a document, the innermost level first, as in a scope. -/
abbrev Address := List Descent

abbrev Table := List (Text × Raw)

/-- Other tables for the blocks of a document, and other bindings for its mixins. -/
structure Retabling where
  table : Address → Table → Table
  bindings : Bindings → Bindings
  bindings_nil : bindings [] = []

/-! ## Putting other tables in -/

section

variable (r : Retabling)

mutual

def Document.retable (a : Address) : Document → Document
  | ⟨path, block⟩ => ⟨path, block.retable a⟩

def Block.retable (a : Address) : Block → Block
  | ⟨imports, definitions, declarations, children⟩ =>
    ⟨retableImports a 0 imports, r.table a definitions, declarations, retableRules a 0 children⟩

def Rule.retable (a : Address) : Rule → Rule
  | ⟨selectors, own, kind, condition, block, span⟩ =>
    ⟨selectors, own, kind, condition, block.retable a, span⟩

def Import.retable (a : Address) : Import → Import
  | .sheet document => .sheet (document.retable a)
  | .css t => .css t

/-- The first of the imports has the number `i`. -/
def retableImports (a : Address) (i : Nat) : List Import → List Import
  | [] => []
  | import' :: rest => import'.retable (.imported i :: a) :: retableImports a (i + 1) rest

def retableRules (a : Address) (i : Nat) : List Rule → List Rule
  | [] => []
  | rule :: rest => rule.retable (.child i :: a) :: retableRules a (i + 1) rest

end

def Layer.retable (a : Address) (layer : Layer) : Layer :=
  ⟨layer.block.retable r a, r.bindings layer.bindings⟩

def Scope.retable : Address → Scope → Scope
  | _, [] => []
  | a, layer :: outer => layer.retable r a :: Scope.retable a.tail outer

def Meaning.retable (a : Address) : Meaning → Meaning
  | .evaluated t => .evaluated t
  | .raw value home => .raw value (home.retable r a)

end

variable {r : Retabling}

theorem Block.retable_eq (a : Address) (b : Block) : b.retable r a =
    ⟨retableImports r a 0 b.imports, r.table a b.definitions, b.declarations,
      retableRules r a 0 b.children⟩ := by
  cases b
  rfl

theorem Rule.retable_eq (a : Address) (rule : Rule) :
    rule.retable r a = { rule with block := rule.block.retable r a } := by
  cases rule
  rfl

theorem Document.block_retable (a : Address) (d : Document) :
    (d.retable r a).block = d.block.retable r a := by
  cases d
  rfl

theorem Scope.retable_ofBlock (a : Address) (b : Block) :
    (ofBlock b).retable r a = ofBlock (b.retable r a) := by
  rw [ofBlock, retable, Layer.retable, r.bindings_nil, retable, ofBlock]

theorem Scope.retable_ofCall (a : Address) (step : Descent) (home : Scope) (b : Block)
    (bindings : Bindings) : (home.ofCall b bindings).retable r (step :: a) =
      (home.retable r a).ofCall (b.retable r (step :: a)) (r.bindings bindings) := rfl

/-- The innermost block of a scope. -/
def Scope.body : Scope → Block
  | [] => .empty
  | layer :: _ => layer.block

theorem Scope.body_retable_declarations (r : Retabling) (a : Address) (s : Scope) :
    (s.retable r a).body.declarations = s.body.declarations := by
  cases s with
  | nil => rfl
  | cons layer outer => rw [Scope.retable, Layer.retable, body, Block.retable_eq, body]

theorem getElem?_retableImports (a : Address) : ∀ (imports : List Import) (i j : Nat),
    (retableImports r a i imports)[j]? = imports[j]?.map (Import.retable r (.imported (i + j) :: a))
  | [], _, _ => rfl
  | _ :: _, _, 0 => rfl
  | import' :: rest, i, j + 1 => by
      rw [retableImports, List.getElem?_cons_succ, getElem?_retableImports a rest,
        List.getElem?_cons_succ, Nat.add_right_comm, Nat.add_assoc]

theorem getElem?_retableRules (a : Address) : ∀ (rules : List Rule) (i j : Nat),
    (retableRules r a i rules)[j]? = rules[j]?.map (Rule.retable r (.child (i + j) :: a))
  | [], _, _ => rfl
  | _ :: _, _, 0 => rfl
  | rule :: rest, i, j + 1 => by
      rw [retableRules, List.getElem?_cons_succ, getElem?_retableRules a rest,
        List.getElem?_cons_succ, Nat.add_right_comm, Nat.add_assoc]

theorem Rule.answersTo_retable (a : Address) (rule : Rule) (mixin : Text) :
    (rule.retable r a).answersTo mixin = rule.answersTo mixin := by
  rw [rule.retable_eq]
  rfl

theorem isEmpty_retableRules (a : Address) (i : Nat) (rules : List Rule) :
    (retableRules r a i rules).isEmpty = rules.isEmpty := by
  cases rules <;> rfl

/-! ## Where mixins stand -/

/-- Where the first of the rules stands that answers to the name. -/
def rulePlace? (name : Text) (a : Address) (i : Nat) : List Rule → Option Address
  | [] => none
  | rule :: rest =>
    if rule.answersTo name then some (.child i :: a) else rulePlace? name a (i + 1) rest

mutual

/-- Where the rule stands that a call of the name would expand, in a file or in one that
it imports. -/
def Document.mixinPlace? (name : Text) (a : Address) : Document → Option Address
  | ⟨_, block⟩ => block.mixinPlace? name a

def Block.mixinPlace? (name : Text) (a : Address) : Block → Option Address
  | ⟨imports, _, _, children⟩ =>
    match rulePlace? name a 0 children with
    | some place => some place
    | none => importedPlace? name a 0 imports

def Import.mixinPlace? (name : Text) (a : Address) : Import → Option Address
  | .sheet document => document.mixinPlace? name a
  | .css _ => none

def importedPlace? (name : Text) (a : Address) (i : Nat) : List Import → Option Address
  | [] => none
  | import' :: rest =>
    match import'.mixinPlace? name (.imported i :: a) with
    | some place => some place
    | none => importedPlace? name a (i + 1) rest

end

/-- Where the rule stands that a call of the name expands in a scope. -/
def Scope.mixinPlace? (name : Text) : Address → Scope → Option Address
  | _, [] => none
  | a, layer :: outer =>
    match layer.block.mixinPlace? name a with
    | some place => some place
    | none => Scope.mixinPlace? name a.tail outer

theorem find?_retableRules (a : Address) (name : Text) : ∀ (rules : List Rule) (i : Nat),
    ∃ j, (∀ rule, rules.find? (·.answersTo name) = some rule → rules[j]? = some rule) ∧
      (retableRules r a i rules).find? (·.answersTo name) =
        (rules.find? (·.answersTo name)).map (Rule.retable r (.child (i + j) :: a)) ∧
      rulePlace? name a i rules =
        (rules.find? (·.answersTo name)).map fun _ => .child (i + j) :: a
  | [], _ => ⟨0, nofun, rfl, rfl⟩
  | rule :: rest, i => by
      rw [retableRules, List.find?_cons, List.find?_cons, rule.answersTo_retable, rulePlace?]
      cases rule.answersTo name with
      | true => exact ⟨0, fun _ => id, rfl, rfl⟩
      | false =>
          obtain ⟨j, hj, hfind, hplace⟩ := find?_retableRules a name rest (i + 1)
          refine ⟨j + 1, hj, ?_, ?_⟩
          · rw [hfind, Nat.add_assoc, Nat.add_comm 1]
          · rw [if_neg Bool.false_ne_true, hplace, Nat.add_assoc, Nat.add_comm 1]

/-! ## Looking names up -/

/-- A property of scopes and where they stand that goes over to the scopes around and
to the files that are imported. -/
structure Closed (P : Address → Scope → Prop) : Prop where
  outer : ∀ {a layer next outer}, P a (layer :: next :: outer) → P a.tail (next :: outer)
  imported : ∀ {a layer outer i e}, P a (layer :: outer) →
    layer.block.imports[i]? = some (.sheet e) → P (.imported i :: a) (.ofBlock e.block)

/-- Where the property holds, the tables and the bindings say of the name what they said
before. -/
structure Retabling.Spares (r : Retabling) (name : Text) (P : Address → Scope → Prop) : Prop where
  closed : Closed P
  table : ∀ a s, P a s → ∀ t, (r.table a t).lookup name = t.lookup name
  bindings : ∀ b, (r.bindings b).lookup name = b.lookup name

variable {P : Address → Scope → Prop}

/-- What was found is the same as before, but for the tables in its home. -/
def MeaningRetabled (r : Retabling) (P : Address → Scope → Prop) (found found' : Option Meaning) :
    Prop :=
  ∃ a, (∀ value home, found = some (.raw value home) → P a home) ∧
    found' = found.map (Meaning.retable r a)

theorem MeaningRetabled.orElse {found found' other other' : Option Meaning} :
    MeaningRetabled r P found found' → MeaningRetabled r P other other' →
      MeaningRetabled r P (match found with | some m => some m | none => other)
        (match found' with | some m => some m | none => other') := by
  rintro ⟨a, hhome, rfl⟩ hother
  cases found with
  | none => exact hother
  | some m => exact ⟨a, hhome, rfl⟩

/-- The rule that was found is the same as before, but for the tables in it and its
home, and stands at the place. -/
def MixinRetabled (r : Retabling) (P : Address → Scope → Prop) (place : Option Address)
    (found found' : Option (Rule × Scope)) : Prop :=
  ∃ a i, (∀ rule layer outer, found = some (rule, layer :: outer) →
      P a (layer :: outer) ∧ layer.block.children[i]? = some rule) ∧
    (found' = found.map fun (rule, home) => (rule.retable r (.child i :: a), home.retable r a)) ∧
    place = found.map fun _ => .child i :: a

theorem MixinRetabled.orElse {place place' : Option Address}
    {found found' other other' : Option (Rule × Scope)} :
    MixinRetabled r P place found found' → MixinRetabled r P place' other other' →
      MixinRetabled r P (match place with | some a => some a | none => place')
        (match found with | some m => some m | none => other)
        (match found' with | some m => some m | none => other') := by
  rintro ⟨a, i, hhome, rfl, rfl⟩ hother
  cases found with
  | none => exact hother
  | some m => exact ⟨a, i, hhome, rfl, rfl⟩

mutual

theorem Document.meaning?_retable {name : Text} (hr : r.Spares name P) :
    ∀ (e : Document) (a : Address), P a (.ofBlock e.block) →
      MeaningRetabled r P (e.meaning? name) ((e.retable r a).meaning? name)
  | ⟨_, block⟩, a, h => block.rootMeaning?_retable hr a h

theorem Block.rootMeaning?_retable {name : Text} (hr : r.Spares name P) :
    ∀ (b : Block) (a : Address), P a (.ofBlock b) →
      MeaningRetabled r P (b.rootMeaning? name) ((b.retable r a).rootMeaning? name)
  | ⟨imports, definitions, declarations, children⟩, a, h => by
      rw [Block.retable, Block.rootMeaning?, Block.rootMeaning?, hr.table a _ h]
      cases definitions.lookup name with
      | some value =>
          refine ⟨a, fun _ _ heq => ?_, ?_⟩
          · cases heq
            exact h
          · rw [Option.map_some, Meaning.retable, Scope.retable_ofBlock, Block.retable]
      | none =>
          refine importedMeaning?_retable hr imports a 0 fun i e he => ?_
          rw [Nat.zero_add]
          exact hr.closed.imported h he

theorem Import.meaning?_retable {name : Text} (hr : r.Spares name P) :
    ∀ (import' : Import) (a : Address), (∀ e, import' = .sheet e → P a (.ofBlock e.block)) →
      MeaningRetabled r P (import'.meaning? name) ((import'.retable r a).meaning? name)
  | .sheet document, a, h => document.meaning?_retable hr a (h _ rfl)
  | .css _, a, _ => ⟨a, nofun, rfl⟩

theorem importedMeaning?_retable {name : Text} (hr : r.Spares name P) :
    ∀ (imports : List Import) (a : Address) (i : Nat),
      (∀ j e, imports[j]? = some (.sheet e) → P (.imported (i + j) :: a) (.ofBlock e.block)) →
        MeaningRetabled r P (importedMeaning? name imports)
          (importedMeaning? name (retableImports r a i imports))
  | [], a, _, _ => ⟨a, nofun, rfl⟩
  | import' :: rest, a, i, h => by
      rw [retableImports, importedMeaning?, importedMeaning?]
      refine (import'.meaning?_retable hr _ fun e he => h 0 e (congrArg some he)).orElse ?_
      refine importedMeaning?_retable hr rest a (i + 1) fun j e he => ?_
      rw [Nat.add_assoc, Nat.add_comm 1]
      exact h (j + 1) e he

end

theorem Block.rootMixin?_eq (name : Text) (b : Block) :
    b.rootMixin? name =
      match b.children.find? (·.answersTo name) with
      | some rule => some (rule, .ofBlock b)
      | none => importedMixin? name b.imports := by
  cases b
  exact Block.rootMixin?.eq_def ..

mutual

theorem Document.mixin?_retable (name : Text) (hP : Closed P) :
    ∀ (e : Document) (a : Address), P a (.ofBlock e.block) →
      MixinRetabled r P (e.mixinPlace? name a) (e.mixin? name) ((e.retable r a).mixin? name)
  | ⟨_, block⟩, a, h => by
      have hblock := block.mixin?_retable name hP a [] h
      rw [r.bindings_nil] at hblock
      rwa [Document.retable, Document.mixin?, Document.mixin?, Block.rootMixin?_eq,
        Block.rootMixin?_eq, Document.mixinPlace?]

/-- A rule in the block itself, or in what it imports. -/
theorem Block.mixin?_retable (name : Text) (hP : Closed P) :
    ∀ (b : Block) (a : Address) (bindings : Bindings) {outer : Scope},
      P a (⟨b, bindings⟩ :: outer) → MixinRetabled r P (b.mixinPlace? name a)
        (match b.children.find? (·.answersTo name) with
          | some rule => some (rule, ⟨b, bindings⟩ :: outer)
          | none => importedMixin? name b.imports)
        (match (b.retable r a).children.find? (·.answersTo name) with
          | some rule =>
            some (rule, ⟨b.retable r a, r.bindings bindings⟩ :: Scope.retable r a.tail outer)
          | none => importedMixin? name (b.retable r a).imports)
  | ⟨imports, definitions, declarations, children⟩, a, bindings, outer, h => by
      rw [Block.retable, Block.mixinPlace?]
      obtain ⟨i, hi, hfind, hplace⟩ := find?_retableRules (r := r) a name children 0
      rw [Nat.zero_add] at hfind hplace
      simp only [hfind, hplace]
      cases hfound : children.find? (·.answersTo name) with
      | some rule =>
          refine ⟨a, i, fun _ _ _ heq => ?_, ?_, rfl⟩
          · cases heq
            exact ⟨h, hi rule hfound⟩
          · simp only [Option.map_some, Scope.retable, Layer.retable, Block.retable]
      | none =>
          refine importedMixin?_retable name hP imports a 0 fun i e he => ?_
          rw [Nat.zero_add]
          exact hP.imported h he

theorem Import.mixin?_retable (name : Text) (hP : Closed P) :
    ∀ (import' : Import) (a : Address), (∀ e, import' = .sheet e → P a (.ofBlock e.block)) →
      MixinRetabled r P (import'.mixinPlace? name a) (import'.mixin? name)
        ((import'.retable r a).mixin? name)
  | .sheet document, a, h => document.mixin?_retable name hP a (h _ rfl)
  | .css _, a, _ => ⟨a, 0, nofun, rfl, rfl⟩

theorem importedMixin?_retable (name : Text) (hP : Closed P) :
    ∀ (imports : List Import) (a : Address) (i : Nat),
      (∀ j e, imports[j]? = some (.sheet e) → P (.imported (i + j) :: a) (.ofBlock e.block)) →
        MixinRetabled r P (importedPlace? name a i imports) (importedMixin? name imports)
          (importedMixin? name (retableImports r a i imports))
  | [], a, _, _ => ⟨a, 0, nofun, rfl, rfl⟩
  | import' :: rest, a, i, h => by
      rw [retableImports, importedMixin?, importedMixin?, importedPlace?]
      refine (import'.mixin?_retable name hP _ fun e he => h 0 e (congrArg some he)).orElse ?_
      refine importedMixin?_retable name hP rest a (i + 1) fun j e he => ?_
      rw [Nat.add_assoc, Nat.add_comm 1]
      exact h (j + 1) e he

end

namespace Scope

theorem ownMeaning?_retable {name : Text} (hr : r.Spares name P) {a : Address} {layer : Layer}
    {outer : Scope} (h : P a (layer :: outer)) :
    MeaningRetabled r P (ownMeaning? name layer outer)
      (ownMeaning? name (layer.retable r a) (retable r a.tail outer)) := by
  have here (value : Raw) : MeaningRetabled r P (some (.raw value (layer :: outer)))
      (some (.raw value (layer.retable r a :: retable r a.tail outer))) := by
    refine ⟨a, fun _ _ heq => ?_, rfl⟩
    cases heq
    exact h
  rw [ownMeaning?, ownMeaning?, Layer.retable, hr.bindings]
  cases layer.bindings.lookup name with
  | some b =>
      cases b with
      | argument t => exact ⟨a, (fun _ _ heq => by cases heq), rfl⟩
      | fallback value => exact here value
  | none =>
      simp only [Block.retable_eq, hr.table a _ h]
      cases layer.block.definitions.lookup name with
      | some value =>
          simp only [← Block.retable_eq]
          exact here value
      | none =>
          refine importedMeaning?_retable hr layer.block.imports a 0 fun i e he => ?_
          rw [Nat.zero_add]
          exact hr.closed.imported h he

/-- A name that other tables spare means what it meant, in a home with other tables. -/
theorem meaning?_retable {name : Text} (hr : r.Spares name P) :
    ∀ (s : Scope) (a : Address), P a s →
      MeaningRetabled r P (s.meaning? name) ((s.retable r a).meaning? name)
  | [], a, _ => ⟨a, (fun _ _ heq => by cases heq), rfl⟩
  | [layer], a, h => by
      rw [retable, meaning?, meaning?]
      exact (ownMeaning?_retable hr h).orElse ⟨a, (fun _ _ heq => by cases heq), rfl⟩
  | layer :: next :: outer, a, h => by
      rw [retable, meaning?, meaning?]
      exact (ownMeaning?_retable hr h).orElse
        (meaning?_retable hr (next :: outer) a.tail (hr.closed.outer h))

theorem mixin?_cons (name : Text) (layer : Layer) (outer : Scope) :
    mixin? name (layer :: outer) =
      match (match layer.block.children.find? (·.answersTo name) with
        | some rule => some (rule, layer :: outer)
        | none => importedMixin? name layer.block.imports) with
      | some found => some found
      | none => mixin? name outer := by
  rw [mixin?]
  cases layer.block.children.find? (·.answersTo name) <;> rfl

/-- A call expands the rule that it expanded, with other tables. -/
theorem mixin?_retable (name : Text) (hP : Closed P) :
    ∀ (s : Scope) (a : Address), P a s →
      MixinRetabled r P (s.mixinPlace? name a) (s.mixin? name) ((s.retable r a).mixin? name)
  | [], a, _ => ⟨a, 0, nofun, rfl, rfl⟩
  | ⟨block, bindings⟩ :: outer, a, h => by
      rw [retable, mixin?_cons, mixin?_cons, mixinPlace?, Layer.retable]
      refine (block.mixin?_retable name hP a bindings h).orElse ?_
      cases outer with
      | nil => exact ⟨a, 0, nofun, rfl, rfl⟩
      | cons next outer => exact mixin?_retable name hP (next :: outer) a.tail (hP.outer h)

end Scope

end Cascade
