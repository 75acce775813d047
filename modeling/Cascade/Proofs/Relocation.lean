import Cascade.Proofs.Depth
import Cascade.Proofs.Outcomes
import Cascade.Proofs.Spans

/-!
# Spans as identities

A span is blamed, and it tells one construct from another: a definition that is in
progress, and a construct that has been warned about. Nothing else is done with it
between reading and reporting. So if every span of a document is moved, and no two to
the same place, the document is written as before, and faults and warnings move along
(`Document.css_relocate`).
-/

namespace Cascade

/-! ## Moving spans -/

section

variable (move : Span → Span)

def Raw.relocate (raw : Raw) : Raw := ⟨raw.text, move raw.span⟩

def MixinCall.relocate (c : MixinCall) : MixinCall :=
  ⟨c.name, c.arguments.map (Raw.relocate move), move c.span⟩

def Declaration.relocate : Declaration → Declaration
  | .property p => .property ⟨p.name, p.value.relocate move⟩
  | .call c => .call (c.relocate move)

def Parameter.relocate (p : Parameter) : Parameter := ⟨p.name, p.fallback.map (Raw.relocate move)⟩

def RuleKind.relocate : RuleKind → RuleKind
  | .style => .style
  | .mixin parameters => .mixin (parameters.map (Parameter.relocate move))
  | .atRule prelude => .atRule prelude
  | .directive t => .directive t

def Condition.relocate : Condition → Condition
  | .test condition => .test (condition.relocate move)
  | .orTest condition => .orTest (condition.relocate move)
  | .otherwise => .otherwise

def relocateDefinitions (definitions : List (Text × Raw)) : List (Text × Raw) :=
  definitions.map fun (name, value) => (name, value.relocate move)

mutual

def Document.relocate : Document → Document
  | ⟨path, block⟩ => ⟨path, block.relocate⟩

def Block.relocate : Block → Block
  | ⟨imports, definitions, declarations, children⟩ =>
    ⟨relocateImports imports, relocateDefinitions move definitions,
      declarations.map (Declaration.relocate move), relocateRules children⟩

def Rule.relocate : Rule → Rule
  | ⟨selectors, own, kind, condition, block, span⟩ =>
    ⟨selectors, own, kind.relocate move, condition.map (Condition.relocate move), block.relocate,
      move span⟩

def Import.relocate : Import → Import
  | .sheet document => .sheet document.relocate
  | .css t => .css t

def relocateImports : List Import → List Import
  | [] => []
  | i :: rest => i.relocate :: relocateImports rest

def relocateRules : List Rule → List Rule
  | [] => []
  | r :: rest => r.relocate :: relocateRules rest

end

def Binding.relocate : Binding → Binding
  | .argument t => .argument t
  | .fallback value => .fallback (value.relocate move)

def relocateBindings (bindings : Bindings) : Bindings :=
  bindings.map fun (name, b) => (name, b.relocate move)

def Layer.relocate (layer : Layer) : Layer :=
  ⟨layer.block.relocate move, relocateBindings move layer.bindings⟩

def Scope.relocate (s : Scope) : Scope := s.map (Layer.relocate move)

def Meaning.relocate : Meaning → Meaning
  | .evaluated t => .evaluated t
  | .raw value home => .raw (value.relocate move) (home.relocate move)

/-- A rule that was found, with its home. -/
def relocateFound (found : Rule × Scope) : Rule × Scope :=
  (found.1.relocate move, found.2.relocate move)

def relocateKeys (keys : List DefinitionKey) : List DefinitionKey :=
  keys.map fun (name, span) => (name, move span)

def Fault.relocate (f : Fault) : Fault := ⟨f.cause, move f.span⟩

def Warnings.relocate (log : Warnings) : Warnings := log.map fun (span, w) => (move span, w)

def Draft.relocate (d : Draft) : Draft := ⟨d.writer, d.warnings.relocate move⟩

end

variable {move : Span → Span}

theorem relocateRules_eq (rules : List Rule) :
    relocateRules move rules = rules.map (Rule.relocate move) := by
  induction rules with
  | nil => rfl
  | cons r rest ih => rw [relocateRules, ih, List.map_cons]

theorem Block.relocate_eq (b : Block) : b.relocate move =
    ⟨relocateImports move b.imports, relocateDefinitions move b.definitions,
      b.declarations.map (Declaration.relocate move), relocateRules move b.children⟩ := by
  cases b
  rfl

/-! ## Moving only the spans of a document -/

section

variable {f g : Span → Span}

theorem Raw.relocate_congr {raw : Raw} (h : f raw.span = g raw.span) :
    raw.relocate f = raw.relocate g := by
  rw [relocate, h, relocate]

theorem Declaration.relocate_congr {d : Declaration} (h : ∀ span ∈ d.spans, f span = g span) :
    d.relocate f = d.relocate g := by
  cases d with
  | property p =>
      rw [relocate, Raw.relocate_congr (h _ (List.mem_singleton.mpr rfl)), relocate]
  | call c =>
      have harguments : c.arguments.map (Raw.relocate f) = c.arguments.map (Raw.relocate g) :=
        List.map_congr_left fun a ha =>
          Raw.relocate_congr (h _ (List.mem_cons_of_mem _ (List.mem_map_of_mem ha)))
      rw [relocate, MixinCall.relocate, harguments, h _ (List.mem_cons_self ..), relocate,
        MixinCall.relocate]

theorem RuleKind.relocate_congr {kind : RuleKind} (h : ∀ span ∈ kind.spans, f span = g span) :
    kind.relocate f = kind.relocate g := by
  cases kind with
  | style | atRule | directive => rfl
  | mixin parameters =>
      refine congrArg RuleKind.mixin (List.map_congr_left fun p hp => ?_)
      rcases p with ⟨name, _ | value⟩
      · rfl
      · have hvalue := h value.span (List.mem_filterMap.mpr ⟨_, hp, rfl⟩)
        rw [Parameter.relocate, Option.map_some, Raw.relocate_congr hvalue]
        rfl

theorem Condition.relocate_congr {condition : Condition}
    (h : ∀ span ∈ condition.spans, f span = g span) :
    condition.relocate f = condition.relocate g := by
  cases condition with
  | test condition | orTest condition =>
      rw [relocate, Raw.relocate_congr (h _ (List.mem_singleton.mpr rfl)), relocate]
  | otherwise => rfl

mutual

theorem Document.relocate_congr : ∀ d : Document, (∀ span ∈ d.spans, f span = g span) →
    d.relocate f = d.relocate g
  | ⟨_, block⟩, h => congrArg _ (block.relocate_congr h)

theorem Block.relocate_congr : ∀ b : Block, (∀ span ∈ b.spans, f span = g span) →
    b.relocate f = b.relocate g
  | ⟨imports, definitions, declarations, children⟩, h => by
      simp only [Block.spans, List.mem_append] at h
      have hdefinitions : relocateDefinitions f definitions = relocateDefinitions g definitions :=
        List.map_congr_left fun (name, value) hmem => congrArg (name, ·)
          (Raw.relocate_congr (h _ (.inl (.inl (.inl (List.mem_map.mpr ⟨_, hmem, rfl⟩))))))
      have hdeclarations : declarations.map (Declaration.relocate f) =
          declarations.map (Declaration.relocate g) :=
        List.map_congr_left fun d hmem => Declaration.relocate_congr fun span hspan =>
          h span (.inl (.inl (.inr (List.mem_flatMap.mpr ⟨d, hmem, hspan⟩))))
      rw [Block.relocate, Block.relocate, hdefinitions, hdeclarations,
        relocateImports_congr imports fun span hspan => h span (.inl (.inr hspan)),
        relocateRules_congr children fun span hspan => h span (.inr hspan)]

theorem Rule.relocate_congr : ∀ r : Rule, (∀ span ∈ r.spans, f span = g span) →
    r.relocate f = r.relocate g
  | ⟨_, _, kind, condition, block, span⟩, h => by
      simp only [Rule.spans, List.mem_cons, List.mem_append] at h
      have hcondition :
          condition.map (Condition.relocate f) = condition.map (Condition.relocate g) := by
        cases condition with
        | none => rfl
        | some condition =>
            exact congrArg some (Condition.relocate_congr fun span hspan =>
              h span (.inr (.inl (.inr hspan))))
      rw [Rule.relocate, Rule.relocate, hcondition, h span (.inl rfl),
        RuleKind.relocate_congr fun span hspan => h span (.inr (.inl (.inl hspan))),
        block.relocate_congr fun span hspan => h span (.inr (.inr hspan))]

theorem Import.relocate_congr : ∀ i : Import, (∀ span ∈ i.spans, f span = g span) →
    i.relocate f = i.relocate g
  | .sheet document, h => congrArg _ (document.relocate_congr h)
  | .css _, _ => rfl

theorem relocateImports_congr : ∀ imports : List Import,
    (∀ span ∈ importSpans imports, f span = g span) →
      relocateImports f imports = relocateImports g imports
  | [], _ => rfl
  | i :: rest, h => by
      rw [relocateImports, relocateImports,
        i.relocate_congr fun span hspan => h span (List.mem_append_left _ hspan),
        relocateImports_congr rest fun span hspan => h span (List.mem_append_right _ hspan)]

theorem relocateRules_congr : ∀ rules : List Rule,
    (∀ span ∈ ruleSpans rules, f span = g span) → relocateRules f rules = relocateRules g rules
  | [], _ => rfl
  | r :: rest, h => by
      rw [relocateRules, relocateRules,
        r.relocate_congr fun span hspan => h span (List.mem_append_left _ hspan),
        relocateRules_congr rest fun span hspan => h span (List.mem_append_right _ hspan)]

end

end

/-! ## Looking names up -/

theorem lookup_map_snd {α : Type} (f : α → α) (name : Text) (table : List (Text × α)) :
    (table.map fun (n, a) => (n, f a)).lookup name = (table.lookup name).map f := by
  induction table with
  | nil => rfl
  | cons entry rest ih =>
      rw [List.map_cons, List.lookup_cons, List.lookup_cons]
      cases name == entry.1 with
      | true => rfl
      | false => exact ih

theorem lookup_relocateDefinitions (name : Text) (definitions : List (Text × Raw)) :
    (relocateDefinitions move definitions).lookup name =
      (definitions.lookup name).map (Raw.relocate move) :=
  lookup_map_snd _ name definitions

theorem lookup_relocateBindings (name : Text) (bindings : Bindings) :
    (relocateBindings move bindings).lookup name =
      (bindings.lookup name).map (Binding.relocate move) :=
  lookup_map_snd _ name bindings

theorem Rule.answersTo_relocate (r : Rule) (mixin : Text) :
    (r.relocate move).answersTo mixin = r.answersTo mixin := by
  rcases r with ⟨_, _, kind, _, _, _⟩
  cases kind <;> rfl

theorem find?_relocateRules (name : Text) (rules : List Rule) :
    (relocateRules move rules).find? (·.answersTo name) =
      (rules.find? (·.answersTo name)).map (Rule.relocate move) := by
  rw [relocateRules_eq, List.find?_map]
  simp only [Function.comp_def, Rule.answersTo_relocate]

mutual

theorem Document.meaning?_relocate (name : Text) : ∀ d : Document,
    (d.relocate move).meaning? name = (d.meaning? name).map (Meaning.relocate move)
  | ⟨_, block⟩ => block.rootMeaning?_relocate name

theorem Block.rootMeaning?_relocate (name : Text) : ∀ b : Block,
    (b.relocate move).rootMeaning? name = (b.rootMeaning? name).map (Meaning.relocate move)
  | ⟨imports, definitions, declarations, children⟩ => by
      rw [Block.relocate, Block.rootMeaning?, Block.rootMeaning?, lookup_relocateDefinitions,
        importedMeaning?_relocate name imports]
      cases definitions.lookup name <;> rfl

theorem Import.meaning?_relocate (name : Text) : ∀ i : Import,
    (i.relocate move).meaning? name = (i.meaning? name).map (Meaning.relocate move)
  | .sheet document => document.meaning?_relocate name
  | .css _ => rfl

theorem importedMeaning?_relocate (name : Text) : ∀ imports : List Import,
    importedMeaning? name (relocateImports move imports) =
      (importedMeaning? name imports).map (Meaning.relocate move)
  | [] => rfl
  | i :: rest => by
      rw [relocateImports, importedMeaning?, importedMeaning?, i.meaning?_relocate name,
        importedMeaning?_relocate name rest]
      cases i.meaning? name <;> rfl

end

mutual

theorem Document.mixin?_relocate (name : Text) : ∀ d : Document,
    (d.relocate move).mixin? name = (d.mixin? name).map (relocateFound move)
  | ⟨_, block⟩ => block.rootMixin?_relocate name

theorem Block.rootMixin?_relocate (name : Text) : ∀ b : Block,
    (b.relocate move).rootMixin? name = (b.rootMixin? name).map (relocateFound move)
  | ⟨imports, definitions, declarations, children⟩ => by
      rw [Block.relocate, Block.rootMixin?, Block.rootMixin?, find?_relocateRules,
        importedMixin?_relocate name imports]
      cases children.find? (·.answersTo name) <;> rfl

theorem Import.mixin?_relocate (name : Text) : ∀ i : Import,
    (i.relocate move).mixin? name = (i.mixin? name).map (relocateFound move)
  | .sheet document => document.mixin?_relocate name
  | .css _ => rfl

theorem importedMixin?_relocate (name : Text) : ∀ imports : List Import,
    importedMixin? name (relocateImports move imports) =
      (importedMixin? name imports).map (relocateFound move)
  | [] => rfl
  | i :: rest => by
      rw [relocateImports, importedMixin?, importedMixin?, i.mixin?_relocate name,
        importedMixin?_relocate name rest]
      cases i.mixin? name <;> rfl

end

namespace Scope

theorem ownMeaning?_relocate (name : Text) (layer : Layer) (outer : Scope) :
    ownMeaning? name (layer.relocate move) (outer.relocate move) =
      (ownMeaning? name layer outer).map (Meaning.relocate move) := by
  unfold ownMeaning? Layer.relocate
  simp only [lookup_relocateBindings]
  cases layer.bindings.lookup name with
  | some b => cases b <;> rfl
  | none =>
      simp only [Option.map_none, Block.relocate_eq, lookup_relocateDefinitions,
        importedMeaning?_relocate]
      cases layer.block.definitions.lookup name with
      | some value =>
          simp only [Option.map_some, Meaning.relocate, relocate, List.map_cons, Layer.relocate,
            Block.relocate_eq]
      | none => rfl

theorem meaning?_relocate (name : Text) : ∀ s : Scope,
    (s.relocate move).meaning? name = (s.meaning? name).map (Meaning.relocate move)
  | [] => rfl
  | layer :: outer => by
      have hcons :
          relocate move (layer :: outer) = layer.relocate move :: relocate move outer := rfl
      rw [hcons, meaning?, meaning?, ownMeaning?_relocate, meaning?_relocate name outer]
      cases ownMeaning? name layer outer <;> rfl

theorem mixin?_relocate (name : Text) : ∀ s : Scope,
    (s.relocate move).mixin? name = (s.mixin? name).map (relocateFound move)
  | [] => rfl
  | layer :: outer => by
      show mixin? name (layer.relocate move :: relocate move outer) = _
      rw [mixin?, mixin?, mixin?_relocate name outer]
      simp only [Layer.relocate, Block.relocate_eq, find?_relocateRules, importedMixin?_relocate]
      cases layer.block.children.find? (·.answersTo name) with
      | some rule =>
          simp only [Option.map_some, relocateFound, relocate, List.map_cons, Layer.relocate,
            Block.relocate_eq]
      | none =>
          simp only [Option.map_none]
          cases importedMixin? name layer.block.imports <;> rfl

end Scope

/-! ## Keys -/

theorem relocateKeys_append (keys keys' : List DefinitionKey) :
    relocateKeys move (keys ++ keys') = relocateKeys move keys ++ relocateKeys move keys' :=
  List.map_append

theorem RuleKind.keys_relocate (kind : RuleKind) :
    (kind.relocate move).keys = relocateKeys move kind.keys := by
  cases kind with
  | style | atRule | directive => rfl
  | mixin parameters =>
      show (parameters.map _).filterMap Parameter.key? =
        (parameters.filterMap Parameter.key?).map fun (name, span) => (name, move span)
      rw [List.filterMap_map, List.map_filterMap]
      refine List.filterMap_congr fun p _ => ?_
      rcases p with ⟨name, _ | value⟩ <;> rfl

mutual

theorem Document.keys_relocate : ∀ d : Document,
    (d.relocate move).keys = relocateKeys move d.keys
  | ⟨_, block⟩ => block.keys_relocate

theorem Block.keys_relocate : ∀ b : Block, (b.relocate move).keys = relocateKeys move b.keys
  | ⟨imports, definitions, declarations, children⟩ => by
      rw [Block.relocate, Block.keys, Block.keys, importKeys_relocate imports,
        ruleKeys_relocate children, relocateKeys_append, relocateKeys_append]
      simp only [relocateDefinitions, relocateKeys, List.map_map]
      rfl

theorem Rule.keys_relocate : ∀ r : Rule, (r.relocate move).keys = relocateKeys move r.keys
  | ⟨_, _, kind, _, block, _⟩ => by
      rw [Rule.relocate, Rule.keys, Rule.keys, kind.keys_relocate, block.keys_relocate,
        relocateKeys_append]

theorem Import.keys_relocate : ∀ i : Import, (i.relocate move).keys = relocateKeys move i.keys
  | .sheet document => document.keys_relocate
  | .css _ => rfl

theorem importKeys_relocate : ∀ imports : List Import,
    importKeys (relocateImports move imports) = relocateKeys move (importKeys imports)
  | [] => rfl
  | i :: rest => by
      rw [relocateImports, importKeys, importKeys, i.keys_relocate, importKeys_relocate rest,
        relocateKeys_append]

theorem ruleKeys_relocate : ∀ rules : List Rule,
    ruleKeys (relocateRules move rules) = relocateKeys move (ruleKeys rules)
  | [] => rfl
  | r :: rest => by
      rw [relocateRules, ruleKeys, ruleKeys, r.keys_relocate, ruleKeys_relocate rest,
        relocateKeys_append]

end

/-! ## Evaluation -/

theorem blame_relocate {α : Type} (span : Span) (e : Except Cause α) :
    blame (move span) e = (blame span e).mapError (Fault.relocate move) := by
  cases e <;> rfl

namespace Token

variable (f : Fault → Fault) (replacement : Text → Except Fault (List Token))

mutual

theorem substitute_mapError : ∀ token : Token,
    substitute (fun name => (replacement name).mapError f) token =
      (substitute replacement token).mapError f
  | reference name => rfl
  | call name arguments => by
      rw [substitute, substitute, substituteAll_mapError arguments, mapError_bind]
      rfl
  | group inside => by
      rw [substitute, substitute, substituteAll_mapError inside, mapError_bind]
      rfl
  | space | comma _ | operator _ | word _ => rfl

theorem substituteAll_mapError : ∀ tokens : List Token,
    substituteAll (fun name => (replacement name).mapError f) tokens =
      (substituteAll replacement tokens).mapError f
  | [] => rfl
  | token :: rest => by
      rw [substituteAll, substituteAll, substitute_mapError token, substituteAll_mapError rest,
        mapError_bind]
      refine congrArg _ (funext fun first => ?_)
      rw [mapError_bind]
      rfl

end

end Token

section

variable (hmove : move.Injective)
include hmove

theorem mem_relocateKeys {name : Text} {span : Span} {keys : List DefinitionKey} :
    (name, move span) ∈ relocateKeys move keys ↔ (name, span) ∈ keys := by
  refine ⟨fun h => ?_, fun h => List.mem_map.mpr ⟨_, h, rfl⟩⟩
  obtain ⟨⟨name', span'⟩, hmem, heq⟩ := List.mem_map.mp h
  obtain ⟨rfl, hspan⟩ := Prod.mk.inj heq
  exact hmove hspan ▸ hmem

theorem filter_relocateKeys (name : Text) (span : Span) (keys : List DefinitionKey) :
    (relocateKeys move keys).filter (· ≠ (name, move span)) =
      relocateKeys move (keys.filter (· ≠ (name, span))) := by
  rw [relocateKeys, relocateKeys, List.filter_map]
  congr 1
  refine List.filter_congr fun key _ => ?_
  simp only [Function.comp_apply, ne_eq, Prod.ext_iff, hmove.eq_iff]

theorem Scope.evaluate_relocate (idle : List DefinitionKey) (s : Scope) (raw : Raw) :
    (s.relocate move).evaluate (relocateKeys move idle) (raw.relocate move) =
      (s.evaluate idle raw).mapError (Fault.relocate move) := by
  have hreplacement : (s.relocate move).replacement (relocateKeys move idle) (move raw.span) =
      fun name => (s.replacement idle raw.span name).mapError (Fault.relocate move) := by
    funext name
    unfold replacement
    rw [meaning?_relocate]
    cases s.meaning? name with
    | none => rfl
    | some found =>
        cases found with
        | evaluated t => rfl
        | raw value home =>
            simp only [Option.map_some, Meaning.relocate, mapError_map]
            congr 1
            by_cases hidle : (⟨name, value, home⟩ : Definition).key ∈ idle
            · have := length_filter_ne_lt hidle
              have hrest : (relocateKeys move idle).filter
                  (· ≠ (⟨name, value.relocate move, home.relocate move⟩ : Definition).key) =
                    relocateKeys move (idle.filter (· ≠ (⟨name, value, home⟩ : Definition).key)) :=
                filter_relocateKeys hmove name value.span idle
              rw [Definition.evaluate_of_mem hidle,
                Definition.evaluate_of_mem ((mem_relocateKeys hmove).mpr hidle), hrest]
              exact evaluate_relocate _ home value
            · rw [Definition.evaluate_of_notMem hidle,
                Definition.evaluate_of_notMem fun h => hidle ((mem_relocateKeys hmove).mp h)]
              rfl
  rw [evaluate_eq, evaluate_eq, mapError_bind]
  simp only [Raw.relocate]
  rw [hreplacement, Token.substituteAll_mapError]
  refine congrArg _ (funext fun tokens => ?_)
  rw [mapError_bind, blame_relocate]
  rfl
termination_by idle.length

/-! ## Bindings -/

omit hmove in
theorem MixinCall.argument?_relocate (c : MixinCall) (i : Nat) :
    (c.relocate move).argument? i = (c.argument? i).map (Raw.relocate move) := by
  unfold argument? relocate
  rw [List.getElem?_map]
  cases c.arguments[i]? with
  | none => rfl
  | some a =>
      simp only [Option.map_some, Raw.relocate]
      split <;> rfl

omit hmove in
theorem Rule.name_relocate (r : Rule) : (r.relocate move).name = r.name := by
  rcases r with ⟨_, _, kind, _, _, _⟩
  cases kind <;> rfl

theorem MixinCall.bind_relocate (idle : List DefinitionKey) (c : MixinCall) (mixin : Text)
    (caller : Scope) (p : Parameter) (i : Nat) :
    (c.relocate move).bind (relocateKeys move idle) mixin (caller.relocate move)
        (p.relocate move) i =
      ((c.bind idle mixin caller p i).map fun (name, b) => (name, b.relocate move)).mapError
        (Fault.relocate move) := by
  unfold bind
  rw [argument?_relocate]
  cases c.argument? i with
  | some a =>
      simp only [Option.map_some]
      rw [Scope.evaluate_relocate hmove]
      cases caller.evaluate idle a <;> rfl
  | none =>
      rcases p with ⟨name, _ | value⟩ <;> rfl

theorem MixinCall.bindings_relocate (idle : List DefinitionKey) (c : MixinCall) (rule : Rule)
    (caller : Scope) :
    (c.relocate move).bindings (relocateKeys move idle) (rule.relocate move)
        (caller.relocate move) =
      ((c.bindings idle rule caller).map (relocateBindings move)).mapError
        (Fault.relocate move) := by
  unfold bindings
  rw [Rule.name_relocate]
  rcases rule with ⟨_, _, kind, _, _, _⟩
  cases kind with
  | style | atRule | directive => rfl
  | mixin parameters =>
      show (parameters.map (Parameter.relocate move)).zipIdx.mapM _ =
        (Except.map (List.map _) _).mapError _
      rw [List.zipIdx_map, List.mapM_map, map_mapM, mapError_mapM]
      exact congrArg parameters.zipIdx.mapM
        (funext fun (p, i) => c.bind_relocate hmove idle _ caller p i)

end

/-! ## Draftings -/

/-- The second drafting is the first with all spans moved. -/
def Drafting.Relocates {α : Type} (move : Span → Span) (m m' : Drafting α) : Prop :=
  ∀ d : Draft, m'.run.run (d.relocate move) =
    ((m.run.run d).1.mapError (Fault.relocate move), (m.run.run d).2.relocate move)

namespace Drafting.Relocates

variable {α β γ : Type} {m m' : Drafting α} {e : Except Fault α}

theorem pure (a : α) : Relocates move (Pure.pure a) (Pure.pure a) := fun _ => rfl

theorem throw (fault : Fault) :
    Relocates move (MonadExcept.throw fault : Drafting α)
      (MonadExcept.throw (fault.relocate move)) :=
  fun _ => rfl

theorem lift (e : Except Fault α) :
    Relocates move (liftM e) (liftM (e.mapError (Fault.relocate move))) := by
  cases e with
  | error fault => exact .throw fault
  | ok a => exact .pure a

theorem write (f : Css.Writer → Css.Writer) :
    Relocates move (Drafting.write f) (Drafting.write f) := fun _ => rfl

theorem warn (hmove : move.Injective) (span : Span) (w : Warning) :
    Relocates move (Drafting.warn span w) (Drafting.warn (move span) w) := by
  intro d
  have hadd : (d.warnings.relocate move).add (move span) w =
      (d.warnings.add span w).relocate move := by
    have hany :
        (d.warnings.relocate move).any (·.1 == move span) = d.warnings.any (·.1 == span) := by
      rw [Warnings.relocate, List.any_map]
      refine congrArg d.warnings.any (funext fun entry => ?_)
      exact beq_eq_beq.mpr hmove.eq_iff
    unfold Warnings.add
    rw [hany]
    split
    · rfl
    · unfold Warnings.relocate
      rw [List.map_append]
      rfl
  show (Except.ok PUnit.unit,
    (⟨d.writer, (d.warnings.relocate move).add (move span) w⟩ : Draft)) = _
  rw [hadd]
  rfl

theorem bind {f f' : α → Drafting β} (h : Relocates move m m')
    (hf : ∀ a, Relocates move (f a) (f' a)) : Relocates move (m >>= f) (m' >>= f') := by
  intro d
  have hm := h d
  rcases hrun : m.run.run d with ⟨result, d₁⟩
  rw [hrun] at hm
  cases result with
  | error fault => rw [run_bind_error hm, run_bind_error hrun]; rfl
  | ok a => rw [run_bind_ok hm, run_bind_ok hrun, hf a d₁]

/-- A value on the way, in which spans may be moved as well. -/
theorem after {e e' : Except Fault α} {r : α → α} {f f' : α → Drafting β}
    (h : e' = (e.map r).mapError (Fault.relocate move))
    (hf : ∀ a, Relocates move (f a) (f' (r a))) :
    Relocates move (liftM e >>= f) (liftM e' >>= f') := by
  subst h
  cases e with
  | error fault => exact .throw fault
  | ok a => exact hf a

theorem mapM {δ : Type} {r : γ → δ} {f : γ → Drafting β} {f' : δ → Drafting β} :
    ∀ {l : List γ}, (∀ a, Relocates move (f a) (f' (r a))) →
      Relocates move (l.mapM f) ((l.map r).mapM f')
  | [], _ => .pure []
  | a :: rest, h => by
      rw [List.map_cons, List.mapM_cons, List.mapM_cons]
      exact (h a).bind fun b => (Relocates.mapM h).bind fun bs => .pure (b :: bs)

theorem atRule {prelude : Text} {selectors : List Text} {declarations : List Css.Declaration}
    {m m' : Drafting PUnit} (h : Relocates move m m') :
    Relocates move (Drafting.atRule prelude selectors declarations m)
      (Drafting.atRule prelude selectors declarations m') := by
  unfold Drafting.atRule
  refine Relocates.bind (fun d => rfl) fun mark => ?_
  have hclose := h.bind fun _ => (.write (·.closeBlock mark) : Relocates move _ _)
  cases !declarations.isEmpty with
  | true =>
      cases selectors.isEmpty with
      | true => exact (Relocates.write _).bind fun _ => hclose
      | false => exact (Relocates.write _).bind fun _ => hclose
  | false => exact (Relocates.pure PUnit.unit).bind fun _ => hclose

end Drafting.Relocates

open Drafting (Relocates)

section

variable (hmove : move.Injective)
include hmove

theorem Scope.evaluate_relocates (idle : List DefinitionKey) (s : Scope) (raw : Raw) :
    Relocates move (liftM (s.evaluate idle raw) : Drafting Text)
      (liftM ((s.relocate move).evaluate (relocateKeys move idle) (raw.relocate move))) := by
  rw [evaluate_relocate hmove]
  exact .lift _

theorem Scope.expandCall_relocates_of {depth : Nat} {idle : List DefinitionKey} {s : Scope}
    {c : MixinCall}
    (hbody : ∀ j t b, depth = j + 1 → Relocates move (declarations idle j t b)
      (declarations (relocateKeys move idle) j (t.relocate move) (b.relocate move))) :
    Relocates move (s.expandCall idle depth c)
      ((s.relocate move).expandCall (relocateKeys move idle) depth (c.relocate move)) := by
  unfold expandCall
  simp only [MixinCall.relocate]
  rw [mixin?_relocate]
  cases s.mixin? c.name with
  | none => exact (Relocates.warn hmove _ _).bind fun _ => .pure []
  | some found =>
      obtain ⟨rule, home⟩ := found
      cases depth with
      | zero => exact .throw _
      | succ j =>
          refine .after (c.bindings_relocate hmove idle rule s) fun bindings => ?_
          have h := hbody j (home.ofCall rule.block bindings) rule.block rfl
          rcases rule with ⟨_, _, _, _, block, _⟩
          exact h

/-- The declarations of a block are the same. -/
theorem Scope.declarations_relocates (idle : List DefinitionKey) (depth : Nat) (s : Scope)
    (b : Block) :
    Relocates move (s.declarations idle depth b)
      ((s.relocate move).declarations (relocateKeys move idle) depth (b.relocate move)) := by
  rw [declarations_eq, declarations_eq, Block.relocate_eq]
  refine (Relocates.mapM fun declaration => ?_).bind fun expanded => .pure _
  cases declaration with
  | property p => exact (evaluate_relocates hmove idle s p.value).bind fun t => .pure _
  | call c =>
      refine expandCall_relocates_of hmove fun j t b h => ?_
      subst h
      exact declarations_relocates idle j t b

theorem Chain.test_relocates (idle : List DefinitionKey) (s : Scope) (condition : Raw) :
    Relocates move (test idle s condition)
      (test (relocateKeys move idle) (s.relocate move) (condition.relocate move)) := by
  unfold test
  refine (Scope.evaluate_relocates hmove idle s condition).bind fun t => ?_
  refine Relocates.after (r := id) ?_ fun outcome => ?_
  · rw [Except.map_id]
    exact blame_relocate _ _
  · cases outcome with
    | some outcome => exact .pure outcome
    | none => exact (Relocates.warn hmove _ _).bind fun _ => .pure false

theorem Chain.takes_relocates (idle : List DefinitionKey) (s : Scope) (chain : Chain)
    (rule : Rule) :
    Relocates move (chain.takes idle s rule)
      (chain.takes (relocateKeys move idle) (s.relocate move) (rule.relocate move)) := by
  rcases rule with ⟨_, _, _, condition, _, span⟩
  unfold takes
  simp only [Rule.relocate]
  rcases condition with _ | condition | condition | _
  · exact .pure _
  · exact (test_relocates hmove idle s condition).bind fun outcome => .pure _
  · cases chain with
    | outside => exact (Relocates.warn hmove _ _).bind fun _ => .pure _
    | pending => exact (test_relocates hmove idle s condition).bind fun outcome => .pure _
    | taken => exact .pure _
  · cases chain with
    | outside => exact (Relocates.warn hmove _ _).bind fun _ => .pure _
    | pending | taken => exact .pure _

mutual

theorem Rule.draft_relocates (idle : List DefinitionKey) (s : Scope) : ∀ rule : Rule,
    Relocates move (rule.draft idle s)
      ((rule.relocate move).draft (relocateKeys move idle) (s.relocate move))
  | ⟨selectors, own, kind, condition, ⟨imports, definitions, declarations, children⟩, span⟩ => by
      have hdeclarations := Scope.declarations_relocates hmove idle mixinLimit
        (s.nest ⟨imports, definitions, declarations, children⟩)
        ⟨imports, definitions, declarations, children⟩
      have hchildren := draftRules_relocates idle
        (s.nest ⟨imports, definitions, declarations, children⟩) .outside children
      rw [Rule.draft.eq_def, Rule.relocate, Block.relocate, Rule.draft.eq_def]
      cases kind with
      | mixin _ => exact .pure _
      | directive t => exact .write _
      | style =>
          refine hdeclarations.bind fun own => ?_
          cases !own.isEmpty && !selectors.isEmpty with
          | true => exact (Relocates.write _).bind fun _ => hchildren
          | false => exact (Relocates.pure PUnit.unit).bind fun _ => hchildren
      | atRule prelude =>
          refine hdeclarations.bind fun own => ?_
          have hempty : (relocateRules move children).isEmpty = children.isEmpty := by
            cases children <;> rfl
          simp only [hempty]
          cases selectors.isEmpty && children.isEmpty with
          | true =>
              cases !own.isEmpty with
              | true => exact Relocates.write (·.inlineAtRule prelude own)
              | false => exact Relocates.pure PUnit.unit
          | false => exact hchildren.atRule

theorem draftRules_relocates (idle : List DefinitionKey) (s : Scope) :
    ∀ (chain : Chain) (rules : List Rule), Relocates move (draftRules idle s chain rules)
      (draftRules (relocateKeys move idle) (s.relocate move) chain (relocateRules move rules))
  | _, [] => .pure _
  | chain, rule :: rest => by
      rw [relocateRules, draftRules, draftRules]
      refine (Chain.takes_relocates hmove idle s chain rule).bind fun (taken, chain) => ?_
      have hrest := draftRules_relocates idle s chain rest
      cases taken with
      | true => exact (rule.draft_relocates idle s).bind fun _ => hrest
      | false => exact (Relocates.pure PUnit.unit).bind fun _ => hrest

end

end

mutual

theorem Document.draft_relocates (hmove : move.Injective) (idle : List DefinitionKey) :
    ∀ d : Document,
      Relocates move (d.draft idle) ((d.relocate move).draft (relocateKeys move idle))
  | ⟨_, ⟨imports, definitions, declarations, children⟩⟩ => by
      rw [Document.draft.eq_def, Document.relocate, Block.relocate, Document.draft.eq_def]
      exact (draftImports_relocates hmove idle imports).bind fun _ =>
        draftRules_relocates hmove idle (.ofBlock ⟨imports, definitions, declarations, children⟩)
          .outside children

theorem Import.draft_relocates (hmove : move.Injective) (idle : List DefinitionKey) : ∀ i : Import,
    Relocates move (i.draft idle) ((i.relocate move).draft (relocateKeys move idle))
  | .sheet document => document.draft_relocates hmove idle
  | .css t => Relocates.write (·.raw t)

theorem draftImports_relocates (hmove : move.Injective) (idle : List DefinitionKey) :
    ∀ imports : List Import,
    Relocates move (draftImports idle imports)
      (draftImports (relocateKeys move idle) (relocateImports move imports))
  | [] => .pure _
  | i :: rest => by
      rw [relocateImports, draftImports, draftImports]
      exact (i.draft_relocates hmove idle).bind fun _ => draftImports_relocates hmove idle rest

end

/-- A document whose spans have been moved is written as before, and what is blamed or
warned about has moved along. -/
theorem Document.css_relocate (hmove : move.Injective) (d : Document) : (d.relocate move).css =
    (d.css.1.mapError (Fault.relocate move), d.css.2.relocate move) := by
  have h := d.draft_relocates hmove d.keys ⟨.empty, []⟩
  unfold css
  rw [d.keys_relocate]
  change ((d.relocate move).draft (relocateKeys move d.keys)).run ⟨.empty, []⟩ = _ at h
  rw [h]
  change (Except.map _ (Except.mapError _ _), _) = _
  rw [← mapError_map]
  rfl

end Cascade
