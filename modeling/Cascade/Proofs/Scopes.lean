import Cascade.Scope
import Mathlib.Data.List.Basic
import Mathlib.Data.List.Nodup
import Mathlib.Data.List.Pairwise
import Mathlib.Data.List.Perm.Subperm

/-!
# The scopes of a document

Which scopes can arise while a document is written, and what looking a name up in
one of them can find.

`Document.HasScope` collects the scopes: the top level of the document and of
every file it imports, and the body of every rule, with or without parameters
bound, in the scope of the block around it.

Two facts carry everything said about look-ups. Every definition that is found
has its key among those of the document (`key_mem_of_meaning?`), so a list of the
document's keys is enough to tell which definitions are in progress. And as long
as the keys of the document are distinct, a key names one definition with one
home among all that can be reached from a scope (`home_unique`): the homes are
blocks nested in one another, or files imported by them, and no two of them share
a definition.
-/

namespace Cascade

/-! ## The keys of a block, part by part -/

/-- The key of a definition in a table. -/
def definitionKey (entry : Text × Raw) : DefinitionKey := (entry.1, entry.2.span)

theorem Block.keys_eq (b : Block) :
    b.keys = b.definitions.map definitionKey ++ importKeys b.imports ++ ruleKeys b.children := by
  cases b
  rfl

theorem Block.importKeys_sublist (b : Block) : (importKeys b.imports).Sublist b.keys := by
  rw [b.keys_eq]
  exact (List.sublist_append_right _ _).trans (List.sublist_append_left _ _)

theorem Block.ruleKeys_sublist (b : Block) : (ruleKeys b.children).Sublist b.keys := by
  rw [b.keys_eq]
  exact List.sublist_append_right _ _

theorem Rule.keys_eq (r : Rule) : r.keys = r.kind.keys ++ r.block.keys := by
  cases r
  rfl

theorem Document.keys_eq (d : Document) : d.keys = d.block.keys := by
  cases d
  rfl

theorem Rule.keys_sublist_ruleKeys {r : Rule} :
    ∀ {rules : List Rule}, r ∈ rules → r.keys.Sublist (ruleKeys rules)
  | [], h => by cases h
  | other :: rest, h => by
      rw [ruleKeys]
      rcases List.mem_cons.mp h with rfl | h
      · exact List.sublist_append_left _ _
      · exact (keys_sublist_ruleKeys h).trans (List.sublist_append_right _ _)

theorem Document.keys_sublist_importKeys {e : Document} :
    ∀ {imports : List Import}, Import.sheet e ∈ imports → e.keys.Sublist (importKeys imports)
  | [], h => by cases h
  | i :: rest, h => by
      rw [importKeys]
      rcases List.mem_cons.mp h with rfl | h
      · exact List.sublist_append_left _ _
      · exact (keys_sublist_importKeys h).trans (List.sublist_append_right _ _)

/-- The defaults among bindings, with the parameters they are bound to. -/
def Bindings.fallbacks (bindings : Bindings) : List (Text × Raw) :=
  bindings.filterMap fun
    | (name, .fallback value) => some (name, value)
    | (_, .argument _) => none

/-- The defaults of the parameters of a rule. -/
def RuleKind.fallbacks : RuleKind → List (Text × Raw)
  | .mixin parameters => parameters.filterMap fun p => p.fallback.map fun value => (p.name, value)
  | _ => []

theorem RuleKind.keys_eq (kind : RuleKind) : kind.keys = kind.fallbacks.map definitionKey := by
  cases kind with
  | mixin parameters =>
      simp only [RuleKind.keys, RuleKind.fallbacks, List.map_filterMap, Option.map_map]
      rfl
  | style | atRule | directive => rfl

/-! ## Scopes that can arise -/

/-- The scopes in which values of a document are evaluated and mixins of it looked
up. The bindings of a body are any that bind parameters of its rule, in order, to
their own defaults or to arguments. -/
inductive Document.HasScope (d : Document) : Scope → Prop
  | root : d.HasScope (.ofBlock d.block)
  | imported {layer : Layer} {outer : Scope} {e : Document} :
      d.HasScope (layer :: outer) → Import.sheet e ∈ layer.block.imports →
      d.HasScope (.ofBlock e.block)
  | body {layer : Layer} {outer : Scope} {rule : Rule} {bindings : Bindings} :
      d.HasScope (layer :: outer) → rule ∈ layer.block.children →
      bindings.fallbacks.Sublist rule.kind.fallbacks →
      d.HasScope (Scope.ofCall (layer :: outer) rule.block bindings)

namespace Document.HasScope

variable {d : Document} {s : Scope} {layer : Layer} {outer : Scope}

theorem nest {rule : Rule} (h : d.HasScope (layer :: outer))
    (hrule : rule ∈ layer.block.children) :
    d.HasScope (Scope.nest (layer :: outer) rule.block) := by
  have hfit : (Bindings.fallbacks []).Sublist rule.kind.fallbacks := List.nil_sublist _
  exact .body h hrule hfit

theorem document_keys_sublist {e : Document} (hmem : Import.sheet e ∈ layer.block.imports)
    (hkeys : layer.block.keys.Sublist d.keys) : e.block.keys.Sublist d.keys := by
  rw [← e.keys_eq]
  exact ((e.keys_sublist_importKeys hmem).trans layer.block.importKeys_sublist).trans hkeys

theorem rule_keys_sublist {rule : Rule} (hmem : rule ∈ layer.block.children)
    (hkeys : layer.block.keys.Sublist d.keys) : rule.keys.Sublist d.keys :=
  ((rule.keys_sublist_ruleKeys hmem).trans layer.block.ruleKeys_sublist).trans hkeys

/-- The blocks around a place of the document have their keys in the document,
and so have the defaults bound there. -/
theorem keys_sublist (h : d.HasScope s) : ∀ layer ∈ s,
    layer.block.keys.Sublist d.keys ∧
      (layer.bindings.fallbacks.map definitionKey).Sublist d.keys := by
  induction h with
  | root =>
      intro layer hlayer
      obtain rfl := List.mem_singleton.mp hlayer
      exact ⟨d.keys_eq ▸ List.Sublist.refl _, List.nil_sublist _⟩
  | imported _ hmem ih =>
      intro layer hlayer
      obtain rfl := List.mem_singleton.mp hlayer
      exact ⟨document_keys_sublist hmem (ih _ (List.mem_cons_self ..)).1, List.nil_sublist _⟩
  | @body _ _ rule _ _ hmem hfit ih =>
      intro layer hlayer
      rcases List.mem_cons.mp hlayer with rfl | hlayer
      · have hrule := rule_keys_sublist hmem (ih _ (List.mem_cons_self ..)).1
        rw [rule.keys_eq] at hrule
        refine ⟨(List.sublist_append_right _ _).trans hrule, ?_⟩
        refine List.Sublist.trans ?_ ((List.sublist_append_left _ _).trans hrule)
        rw [RuleKind.keys_eq]
        exact hfit.map _
      · exact ih layer hlayer

theorem ne_nil (h : d.HasScope s) : s ≠ [] := by
  cases h <;> exact List.cons_ne_nil _ _

/-- What stands outside a body is a scope of its own. -/
theorem tail {next : Layer} (h : d.HasScope (layer :: next :: outer)) :
    d.HasScope (next :: outer) := by
  generalize hs : layer :: next :: outer = s at h
  cases h with
  | root | imported => simp [Scope.ofBlock] at hs
  | body h =>
      rw [(List.cons.inj hs).2]
      exact h

end Document.HasScope

/-! ## Where definitions are found -/

mutual

/-- The top level of a file and of every file it imports there, transitively. -/
def Document.homes : Document → List Scope
  | ⟨_, block⟩ => block.homes

def Block.homes : Block → List Scope
  | ⟨imports, definitions, declarations, children⟩ =>
    .ofBlock ⟨imports, definitions, declarations, children⟩ :: importHomes imports

def Import.homes : Import → List Scope
  | .sheet document => document.homes
  | .css _ => []

def importHomes : List Import → List Scope
  | [] => []
  | i :: rest => i.homes ++ importHomes rest

end

theorem Block.homes_eq (b : Block) : b.homes = .ofBlock b :: importHomes b.imports := by
  cases b
  rfl

namespace Scope

/-- The scopes in which a definition that is visible from a scope can have its
home. -/
def homes : Scope → List Scope
  | [] => []
  | layer :: outer => (layer :: outer) :: importHomes layer.block.imports ++ homes outer

/-- The definitions that have their home in a scope. -/
def ownDefinitions : Scope → List (Text × Raw)
  | [] => []
  | layer :: _ => layer.bindings.fallbacks ++ layer.block.definitions

def ownKeys (s : Scope) : List DefinitionKey := s.ownDefinitions.map definitionKey

/-- Whether a scope is the home of a definition that its bindings do not hide. -/
def Defines (name : Text) (value : Raw) : Scope → Prop
  | [] => False
  | layer :: _ =>
    layer.bindings.lookup name = some (.fallback value) ∨
      layer.bindings.lookup name = none ∧ layer.block.definitions.lookup name = some value

/-- Whether a scope is the home of a rule that a call of the name expands. -/
def Declares (name : Text) (rule : Rule) : Scope → Prop
  | [] => False
  | layer :: _ => rule ∈ layer.block.children ∧ rule.answersTo name = true

theorem Defines.unique {name : Text} {v w : Raw} :
    ∀ {s : Scope}, s.Defines name v → s.Defines name w → v = w
  | [], h, _ => h.elim
  | _ :: _, .inl hv, .inl hw => by
      rw [hv] at hw
      injection hw with hw
      injection hw
  | _ :: _, .inr hv, .inr hw => Option.some.inj (hv.2.symm.trans hw.2)
  | _ :: _, .inl hv, .inr hw => by rw [hv] at hw; cases hw.1
  | _ :: _, .inr hv, .inl hw => by rw [hw] at hv; cases hv.1

end Scope

theorem mem_of_lookup {α : Type} {name : Text} {a : α} :
    ∀ {table : List (Text × α)}, table.lookup name = some a → (name, a) ∈ table
  | [], h => by cases h
  | (n, b) :: rest, h => by
      rw [List.lookup_cons] at h
      split at h
      · rename_i heq
        obtain rfl := beq_iff_eq.mp heq
        obtain rfl := Option.some.inj h
        exact List.mem_cons_self ..
      · exact List.mem_cons_of_mem _ (mem_of_lookup h)

theorem Bindings.mem_fallbacks {bindings : Bindings} {name : Text} {value : Raw}
    (h : (name, Binding.fallback value) ∈ bindings) : (name, value) ∈ bindings.fallbacks :=
  List.mem_filterMap.mpr ⟨_, h, rfl⟩

theorem Scope.Defines.mem {name : Text} {value : Raw} :
    ∀ {s : Scope}, s.Defines name value → (name, value) ∈ s.ownDefinitions
  | [], h => h.elim
  | _ :: _, .inl h => List.mem_append_left _ (Bindings.mem_fallbacks (mem_of_lookup h))
  | _ :: _, .inr h => List.mem_append_right _ (mem_of_lookup h.2)

mutual

theorem Document.mem_homes_of_meaning? {name : Text} {value : Raw} {home : Scope} :
    ∀ {e : Document}, e.meaning? name = some (.raw value home) →
      home ∈ e.homes ∧ home.Defines name value
  | ⟨_, block⟩, h => block.mem_homes_of_rootMeaning? h

theorem Block.mem_homes_of_rootMeaning? {name : Text} {value : Raw} {home : Scope} :
    ∀ (b : Block), b.rootMeaning? name = some (.raw value home) →
      home ∈ b.homes ∧ home.Defines name value
  | ⟨imports, definitions, declarations, children⟩, h => by
      rw [Block.rootMeaning?] at h
      split at h
      · rename_i hlookup
        cases h
        exact ⟨List.mem_cons_self .., .inr ⟨rfl, hlookup⟩⟩
      · exact (mem_importHomes_of_meaning? imports h).imp_left (List.mem_cons_of_mem _)

theorem Import.mem_homes_of_meaning? {name : Text} {value : Raw} {home : Scope} :
    ∀ (i : Import), i.meaning? name = some (.raw value home) →
      home ∈ i.homes ∧ home.Defines name value
  | .sheet document, h => document.mem_homes_of_meaning? h
  | .css _, h => by cases h

theorem mem_importHomes_of_meaning? {name : Text} {value : Raw} {home : Scope} :
    ∀ (imports : List Import), importedMeaning? name imports = some (.raw value home) →
      home ∈ importHomes imports ∧ home.Defines name value
  | [], h => by cases h
  | i :: rest, h => by
      rw [importedMeaning?] at h
      split at h
      · rename_i hfound
        cases h
        exact (i.mem_homes_of_meaning? hfound).imp_left (List.mem_append_left _)
      · exact (mem_importHomes_of_meaning? rest h).imp_left (List.mem_append_right _)

end

theorem Scope.mem_homes_of_meaning? {name : Text} {value : Raw} {home : Scope} :
    ∀ {s : Scope}, s.meaning? name = some (.raw value home) →
      home ∈ s.homes ∧ home.Defines name value
  | [], h => by cases h
  | layer :: outer, h => by
      rw [Scope.meaning?] at h
      split at h
      · rename_i found hown
        cases h
        rw [ownMeaning?] at hown
        split at hown
        · cases hown
        · rename_i hbound
          cases hown
          exact ⟨List.mem_cons_self .., .inl hbound⟩
        · rename_i hunbound
          split at hown
          · rename_i hlookup
            cases hown
            exact ⟨List.mem_cons_self .., .inr ⟨hunbound, hlookup⟩⟩
          · exact (mem_importHomes_of_meaning? _ hown).imp_left fun hmem =>
              List.mem_cons_of_mem _ (List.mem_append_left _ hmem)
      · exact (mem_homes_of_meaning? h).imp_left fun hmem =>
          List.mem_cons_of_mem _ (List.mem_append_right _ hmem)

mutual

theorem Document.mem_homes_of_mixin? {name : Text} {rule : Rule} {home : Scope} :
    ∀ {e : Document}, e.mixin? name = some (rule, home) → home ∈ e.homes ∧ home.Declares name rule
  | ⟨_, block⟩, h => block.mem_homes_of_rootMixin? h

theorem Block.mem_homes_of_rootMixin? {name : Text} {rule : Rule} {home : Scope} :
    ∀ (b : Block), b.rootMixin? name = some (rule, home) →
      home ∈ b.homes ∧ home.Declares name rule
  | ⟨imports, definitions, declarations, children⟩, h => by
      rw [Block.rootMixin?] at h
      split at h
      · rename_i hfind
        cases h
        exact ⟨List.mem_cons_self .., List.mem_of_find?_eq_some hfind, (List.find?_some hfind :)⟩
      · exact (mem_importHomes_of_mixin? imports h).imp_left (List.mem_cons_of_mem _)

theorem Import.mem_homes_of_mixin? {name : Text} {rule : Rule} {home : Scope} :
    ∀ (i : Import), i.mixin? name = some (rule, home) → home ∈ i.homes ∧ home.Declares name rule
  | .sheet document, h => document.mem_homes_of_mixin? h
  | .css _, h => by cases h

theorem mem_importHomes_of_mixin? {name : Text} {rule : Rule} {home : Scope} :
    ∀ (imports : List Import), importedMixin? name imports = some (rule, home) →
      home ∈ importHomes imports ∧ home.Declares name rule
  | [], h => by cases h
  | i :: rest, h => by
      rw [importedMixin?] at h
      split at h
      · rename_i hfound
        cases h
        exact (i.mem_homes_of_mixin? hfound).imp_left (List.mem_append_left _)
      · exact (mem_importHomes_of_mixin? rest h).imp_left (List.mem_append_right _)

end

theorem Scope.mem_homes_of_mixin? {name : Text} {rule : Rule} {home : Scope} :
    ∀ {s : Scope}, s.mixin? name = some (rule, home) → home ∈ s.homes ∧ home.Declares name rule
  | [], h => by cases h
  | layer :: outer, h => by
      rw [Scope.mixin?] at h
      split at h
      · rename_i hfind
        cases h
        exact ⟨List.mem_cons_self .., List.mem_of_find?_eq_some hfind, (List.find?_some hfind :)⟩
      · split at h
        · rename_i hfound
          cases h
          exact (mem_importHomes_of_mixin? _ hfound).imp_left fun hmem =>
            List.mem_cons_of_mem _ (List.mem_append_left _ hmem)
        · exact (mem_homes_of_mixin? h).imp_left fun hmem =>
            List.mem_cons_of_mem _ (List.mem_append_right _ hmem)

/-! ## Homes of homes -/

theorem Scope.homes_ofBlock (b : Block) : (ofBlock b).homes = b.homes := by
  rw [b.homes_eq, ofBlock, homes, homes, List.append_nil]

mutual

theorem Document.homes_subset {home : Scope} :
    ∀ {e : Document}, home ∈ e.homes → home.homes ⊆ e.homes
  | ⟨_, block⟩, h => block.homes_subset h

theorem Block.homes_subset {home : Scope} :
    ∀ (b : Block), home ∈ b.homes → home.homes ⊆ b.homes
  | ⟨imports, definitions, declarations, children⟩, h => by
      rw [Block.homes] at h
      rcases List.mem_cons.mp h with rfl | h
      · rw [Scope.homes_ofBlock]
        exact List.Subset.refl _
      · exact List.Subset.trans (importHomes_subset imports h) (List.subset_cons_self ..)

theorem Import.homes_subset {home : Scope} :
    ∀ (i : Import), home ∈ i.homes → home.homes ⊆ i.homes
  | .sheet document, h => document.homes_subset h
  | .css _, h => by cases h

theorem importHomes_subset {home : Scope} :
    ∀ (imports : List Import), home ∈ importHomes imports → home.homes ⊆ importHomes imports
  | [], h => by cases h
  | i :: rest, h => by
      rw [importHomes] at h ⊢
      rcases List.mem_append.mp h with h | h
      · exact List.Subset.trans (i.homes_subset h) (List.subset_append_left ..)
      · exact List.Subset.trans (importHomes_subset rest h) (List.subset_append_right ..)

end

/-- Whatever is reached from a home could be reached before. -/
theorem Scope.homes_subset {home : Scope} :
    ∀ {s : Scope}, home ∈ s.homes → home.homes ⊆ s.homes
  | [], h => by cases h
  | layer :: outer, h => by
      rw [homes, List.cons_append] at h
      rcases List.mem_cons.mp h with rfl | h
      · exact List.Subset.refl _
      · rw [homes, List.cons_append]
        refine List.Subset.trans ?_ (List.subset_cons_self ..)
        rcases List.mem_append.mp h with h | h
        · exact List.Subset.trans (importHomes_subset _ h) (List.subset_append_left ..)
        · exact List.Subset.trans (homes_subset h) (List.subset_append_right ..)

mutual

theorem Document.hasScope_of_mem_homes {d : Document} {home : Scope} :
    ∀ (e : Document), d.HasScope (.ofBlock e.block) → home ∈ e.homes → d.HasScope home
  | ⟨_, block⟩, he, h => block.hasScope_of_mem_homes he h

theorem Block.hasScope_of_mem_homes {d : Document} {home : Scope} :
    ∀ (b : Block), d.HasScope (.ofBlock b) → home ∈ b.homes → d.HasScope home
  | ⟨imports, definitions, declarations, children⟩, hb, h => by
      rw [Block.homes] at h
      rcases List.mem_cons.mp h with rfl | h
      · exact hb
      · exact hasScope_of_mem_importHomes imports (fun e he => .imported hb he) h

theorem Import.hasScope_of_mem_homes {d : Document} {home : Scope} :
    ∀ (i : Import), (∀ e, i = .sheet e → d.HasScope (.ofBlock e.block)) → home ∈ i.homes →
      d.HasScope home
  | .sheet document, hi, h => Document.hasScope_of_mem_homes document (hi _ rfl) h
  | .css _, _, h => by cases h

theorem hasScope_of_mem_importHomes {d : Document} {home : Scope} :
    ∀ (imports : List Import), (∀ e, Import.sheet e ∈ imports → d.HasScope (.ofBlock e.block)) →
      home ∈ importHomes imports → d.HasScope home
  | [], _, h => by cases h
  | i :: rest, hall, h => by
      rw [importHomes] at h
      rcases List.mem_append.mp h with h | h
      · exact i.hasScope_of_mem_homes (fun e he => hall e (he ▸ List.mem_cons_self ..)) h
      · exact hasScope_of_mem_importHomes rest
          (fun e he => hall e (List.mem_cons_of_mem _ he)) h

end

namespace Document.HasScope

variable {d : Document}

/-- Evaluation does not leave the document. -/
theorem of_mem_homes : ∀ {s home : Scope}, d.HasScope s → home ∈ s.homes → d.HasScope home
  | [], _, _, h => by cases h
  | layer :: outer, home, hs, h => by
      rw [Scope.homes, List.cons_append] at h
      rcases List.mem_cons.mp h with rfl | h
      · exact hs
      rcases List.mem_append.mp h with h | h
      · exact hasScope_of_mem_importHomes _ (fun e he => .imported hs he) h
      · cases outer with
        | nil => cases h
        | cons next outer => exact of_mem_homes hs.tail h

/-- What a scope defines has its key in the document. -/
theorem key_mem {s : Scope} (hs : d.HasScope s) {name : Text} {value : Raw}
    (h : s.Defines name value) : (name, value.span) ∈ d.keys := by
  cases s with
  | nil => exact h.elim
  | cons layer outer =>
      obtain ⟨hblock, hbindings⟩ := hs.keys_sublist layer (List.mem_cons_self ..)
      rw [Block.keys_eq] at hblock
      rcases List.mem_append.mp h.mem with h | h
      · exact hbindings.subset (List.mem_map_of_mem h)
      · exact hblock.subset
          (List.mem_append_left _ (List.mem_append_left _ (List.mem_map_of_mem h)))

/-- A definition that is found has a home in the document and its key in it. -/
theorem of_meaning? {s home : Scope} (hs : d.HasScope s) {name : Text} {value : Raw}
    (h : s.meaning? name = some (.raw value home)) :
    d.HasScope home ∧ (name, value.span) ∈ d.keys := by
  obtain ⟨hmem, hdefines⟩ := Scope.mem_homes_of_meaning? h
  have hhome := hs.of_mem_homes hmem
  exact ⟨hhome, hhome.key_mem hdefines⟩

/-- The body of a mixin that is found is a scope of the document, however its
parameters are bound. -/
theorem of_mixin? {s home : Scope} (hs : d.HasScope s) {name : Text} {rule : Rule}
    (h : s.mixin? name = some (rule, home)) {bindings : Bindings}
    (hfit : bindings.fallbacks.Sublist rule.kind.fallbacks) :
    d.HasScope (home.ofCall rule.block bindings) := by
  obtain ⟨hmem, hdeclares⟩ := Scope.mem_homes_of_mixin? h
  have hhome := hs.of_mem_homes hmem
  cases home with
  | nil => exact hdeclares.elim
  | cons layer outer => exact .body hhome hdeclares.1 hfit

end Document.HasScope

/-! ## One definition to a key -/

mutual

theorem Document.homes_keys_sublist :
    ∀ (e : Document), (e.homes.flatMap Scope.ownKeys).Sublist e.keys
  | ⟨_, block⟩ => block.homes_keys_sublist

theorem Block.homes_keys_sublist :
    ∀ (b : Block), (b.homes.flatMap Scope.ownKeys).Sublist b.keys
  | ⟨imports, _, _, _⟩ =>
    ((List.Sublist.refl _).append (importHomes_keys_sublist imports)).trans
      (List.sublist_append_left _ _)

theorem Import.homes_keys_sublist :
    ∀ (i : Import), (i.homes.flatMap Scope.ownKeys).Sublist i.keys
  | .sheet document => document.homes_keys_sublist
  | .css _ => List.Sublist.refl _

theorem importHomes_keys_sublist :
    ∀ (imports : List Import),
      ((importHomes imports).flatMap Scope.ownKeys).Sublist (importKeys imports)
  | [] => List.Sublist.refl _
  | i :: rest => by
      rw [importHomes, List.flatMap_append, importKeys]
      exact i.homes_keys_sublist.append (importHomes_keys_sublist rest)

end

namespace Document.HasScope

variable {d : Document}

/-- The keys of the homes that a scope can reach, and beside them those of the
rules nested further in, are keys of the document, each counted once. The second
part is what the induction needs: the next body takes its keys from there. -/
theorem homes_keys_subperm {s : Scope} (hs : d.HasScope s) : ∀ layer outer, s = layer :: outer →
    (s.homes.flatMap Scope.ownKeys ++ ruleKeys layer.block.children).Subperm d.keys := by
  have top (b : Block) (hb : b.keys.Sublist d.keys) : ∀ layer outer,
      Scope.ofBlock b = layer :: outer →
      ((Scope.ofBlock b).homes.flatMap Scope.ownKeys ++ ruleKeys layer.block.children).Subperm
        d.keys := by
    intro layer outer heq
    obtain ⟨rfl, -⟩ := List.cons.inj heq
    refine (List.Sublist.trans ?_ hb).subperm
    rw [Scope.homes_ofBlock, Block.homes_eq, List.flatMap_cons, b.keys_eq]
    exact ((List.Sublist.refl _).append (importHomes_keys_sublist _)).append (List.Sublist.refl _)
  induction hs with
  | root => exact top _ (d.keys_eq ▸ List.Sublist.refl _)
  | imported hs hmem =>
      exact top _ (document_keys_sublist hmem (hs.keys_sublist _ (List.mem_cons_self ..)).1)
  | @body layer outer rule bindings hs hmem hfit ih =>
      intro _ _ heq
      obtain ⟨rfl, rfl⟩ := List.cons.inj heq
      rw [Scope.ofCall, Scope.homes, List.flatMap_append, List.flatMap_cons]
      have hrule : ((Scope.ownKeys (⟨rule.block, bindings⟩ :: layer :: outer) ++
          (importHomes rule.block.imports).flatMap Scope.ownKeys) ++
            ruleKeys rule.block.children).Sublist (ruleKeys layer.block.children) := by
        refine List.Sublist.trans ?_ (rule.keys_sublist_ruleKeys hmem)
        rw [rule.keys_eq, RuleKind.keys_eq, rule.block.keys_eq, Scope.ownKeys,
          Scope.ownDefinitions, List.map_append]
        simp only [List.append_assoc]
        exact (hfit.map _).append ((List.Sublist.refl _).append
          ((importHomes_keys_sublist _).append (List.Sublist.refl _)))
      refine List.Subperm.trans ?_ (ih _ _ rfl)
      refine List.Subperm.trans (List.Perm.subperm ?_)
        ((List.subperm_append_left _).mpr hrule.subperm)
      rw [← List.append_assoc]
      exact List.perm_append_comm.append_right _

/-- Under distinct keys, a key names one definition, with one home, among all that
can be reached from a scope. -/
theorem home_unique {s : Scope} (hs : d.HasScope s) (hkeys : d.keys.Nodup) {home home' : Scope}
    (hmem : home ∈ s.homes) (hmem' : home' ∈ s.homes) {name : Text} {value value' : Raw}
    (h : home.Defines name value) (h' : home'.Defines name value')
    (hspan : value.span = value'.span) : home = home' ∧ value = value' := by
  suffices heq : home = home' by
    subst heq
    exact ⟨rfl, h.unique h'⟩
  cases s with
  | nil => cases hmem
  | cons layer outer =>
      by_contra hne
      obtain ⟨keys, hperm, hsub⟩ := hs.homes_keys_subperm layer outer rfl
      have hnodup := (hperm.nodup_iff.mp (hkeys.sublist hsub)).of_append_left
      have hsymm : Std.Symm (Function.onFun List.Disjoint Scope.ownKeys) :=
        ⟨fun _ _ h _ hkey hkey' => h hkey' hkey⟩
      have hdisjoint := (List.nodup_flatMap.mp hnodup).2.forall hmem hmem' hne
      refine hdisjoint (List.mem_map_of_mem h.mem) ?_
      have := List.mem_map_of_mem (f := definitionKey) h'.mem
      rwa [definitionKey, ← hspan] at this

end Document.HasScope

end Cascade
