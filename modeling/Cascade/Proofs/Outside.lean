import Cascade.Proofs.Forest
import Cascade.Proofs.Simulation

/-!
# Outside a rule

A variable is seen in the rule that it is declared in and in the rules in there. So another
table of variables for a rule changes nothing for a scope outside: what a value comes to,
what a block expands to and which rules take part is the same. Look-ups go outwards and into
imported files, and so do the chains of definitions that a value leads to. Only a call could
lead into the rule, and it would have to be a call of the rule itself, as no other rule in
it can be seen from outside (`Document.CallsApart`).
-/

namespace Cascade

/-! ## Where scopes stand -/

/-- The scopes of a document that stands at an address, by where their innermost block
stands. The bindings of a body are any that fit. -/
inductive Document.ScopeAt (e : Document) (a : Address) : Address → Scope → Prop
  | root : e.ScopeAt a a (.ofBlock e.block)
  | imported {b : Address} {layer : Layer} {outer : Scope} {i : Nat} {e' : Document} :
      e.ScopeAt a b (layer :: outer) → layer.block.imports[i]? = some (.sheet e') →
      e.ScopeAt a (.imported i :: b) (.ofBlock e'.block)
  | body {b : Address} {layer : Layer} {outer : Scope} {i : Nat} {rule : Rule}
      {bindings : Bindings} :
      e.ScopeAt a b (layer :: outer) → layer.block.children[i]? = some rule →
      bindings.fallbacks.Sublist rule.kind.fallbacks →
      e.ScopeAt a (.child i :: b) (Scope.ofCall (layer :: outer) rule.block bindings)

/-- Another table for the block at one address. -/
def Retabling.replacing (p : Address) (table : Table) : Retabling where
  table a old := if a = p then table else old
  bindings := id
  bindings_nil := rfl

namespace Document.ScopeAt

variable {e e' d : Document} {a b c p : Address} {s outer : Scope} {layer next : Layer}

theorem hasScope (h : e.ScopeAt a b s) : e.HasScope s := by
  induction h with
  | root => exact .root
  | imported _ hget ih => exact .imported ih (List.mem_of_getElem? hget)
  | body _ hget hfit ih => exact .body ih (List.mem_of_getElem? hget) hfit

theorem tail (h : e.ScopeAt a b (layer :: next :: outer)) :
    e.ScopeAt a b.tail (next :: outer) := by
  generalize hs : layer :: next :: outer = s at h
  cases h with
  | root | imported => simp [Scope.ofBlock] at hs
  | body h =>
      rw [(List.cons.inj hs).2]
      exact h

/-- The scopes of a document that is imported are scopes of the document. -/
theorem within (h : e.ScopeAt b c s) (he : d.ScopeAt a b (.ofBlock e.block)) :
    d.ScopeAt a c s := by
  induction h with
  | root => exact he
  | imported _ hget ih => exact .imported ih hget
  | body _ hget hfit ih => exact .body ih hget hfit

theorem retable (table : Table) (h : e.ScopeAt a b s) :
    (e.retable (.replacing p table) a).ScopeAt a b (s.retable (.replacing p table) b) := by
  induction h with
  | root =>
      rw [Scope.retable_ofBlock, ← Document.block_retable]
      exact .root
  | @imported b layer outer i e' _ hget ih =>
      rw [Scope.retable_ofBlock, ← Document.block_retable]
      refine .imported ih ?_
      simp only [Layer.retable, Block.retable_eq, getElem?_retableImports, hget, Nat.zero_add]
      rfl
  | @body b layer outer i rule bindings _ hget hfit ih =>
      rw [Scope.retable_ofCall]
      have hrule : (layer.retable (.replacing p table) b).block.children[i]? =
          some (rule.retable (.replacing p table) (.child i :: b)) := by
        simp only [Layer.retable, Block.retable_eq, getElem?_retableRules, hget, Nat.zero_add]
        rfl
      rw [rule.retable_eq] at hrule
      exact .body ih hrule hfit

end Document.ScopeAt

/-! ## Scopes outside -/

/-- The address of a rule. -/
def Address.OfRule (p : Address) : Prop := ∃ i q, p = Descent.child i :: q

/-- An imported file is in a rule only if the file that imports it is. -/
theorem Address.OfRule.not_suffix_imported {a p : Address} {i : Nat} (hp : p.OfRule)
    (h : ¬p <:+ a) : ¬p <:+ .imported i :: a := by
  intro hsuffix
  obtain ⟨j, q, rfl⟩ := hp
  rcases List.suffix_cons_iff.mp hsuffix with heq | hsuffix
  · cases heq
  · exact h hsuffix

/-- A scope that does not stand in the rule with the address `p`. -/
structure Document.Outside (e : Document) (a p b : Address) (s : Scope) : Prop where
  stands : e.ScopeAt a b s
  apart : ¬p <:+ b

/-- Calls of the rule with the address `p` stand in it. -/
def Document.CallsApart (e : Document) (a p : Address) : Prop :=
  ∀ b s c, e.ScopeAt a b s → Declaration.call c ∈ s.body.declarations →
    s.mixinPlace? c.name b = some p → p <:+ b

theorem Document.outside_closed {e : Document} {a p : Address} (hp : p.OfRule) :
    Closed (e.Outside a p) where
  outer {b} _ _ _ h := ⟨h.stands.tail, fun hsuffix => h.apart (hsuffix.trans (List.tail_suffix b))⟩
  imported h hget := ⟨.imported h.stands hget, hp.not_suffix_imported h.apart⟩

namespace Document.Outside

variable {e : Document} {a p b b' : Address} {s s' : Scope} {table : Table}

theorem spares (table : Table) (hp : p.OfRule) (name : Text) :
    (Retabling.replacing p table).Spares name (e.Outside a p) where
  closed := outside_closed hp
  table b _ h _ := by
    have hne : b ≠ p := fun heq => h.apart (heq ▸ List.suffix_rfl)
    simp only [Retabling.replacing, if_neg hne]
  bindings _ := rfl

/-- What a scope outside is with the other table for the rule. -/
def Retabled (e : Document) (a p : Address) (table : Table) (s s' : Scope) : Prop :=
  ∃ b, e.Outside a p b s ∧ s' = s.retable (.replacing p table) b

theorem simulation (table : Table) (hp : p.OfRule) : Simulation
    (e.BothHave (e.retable (.replacing p table) a)) fun _ => Retabled e a p table := by
  rintro raw s _ ⟨b, h, rfl⟩ name -
  obtain ⟨b', hhome, hfound⟩ := s.meaning?_retable (spares table hp name) b h
  rw [hfound]
  cases hmeaning : s.meaning? name with
  | none => exact .unknown
  | some found =>
      cases found with
      | evaluated t => exact .evaluated t
      | raw value home =>
          have hhome := hhome value home hmeaning
          have hkey := (h.stands.hasScope.of_meaning? hmeaning).2
          refine .raw ⟨⟨hkey, ?_⟩, b', hhome, rfl⟩
          rw [hmeaning, Option.map_some] at hfound
          exact ((h.stands.retable table).hasScope.of_meaning? hfound).2

theorem idleAmong (d d' : Document) : IdleAmong (d.BothHave d') d.keys d'.keys :=
  fun _ h => iff_of_true h.1 h.2

theorem evaluate_eq (table : Table) (hp : p.OfRule) (h : e.Outside a p b s) (raw : Raw) :
    s.evaluate e.keys raw = (s.retable (.replacing p table) b).evaluate
      (e.retable (.replacing p table) a).keys raw :=
  Simulation.evaluate_eq (simulation table hp) (idleAmong e _) ⟨b, h, rfl⟩

theorem admits_eq (table : Table) (hp : p.OfRule) (h : e.Outside a p b s) (chain : Chain)
    (rule : Rule) (b' : Address) :
    chain.admits e.keys s rule = chain.admits (e.retable (.replacing p table) a).keys
      (s.retable (.replacing p table) b) (rule.retable (.replacing p table) b') := by
  rw [Chain.admits_eq, Chain.admits_eq]
  unfold Chain.holds
  simp only [rule.retable_eq, h.evaluate_eq table hp]

theorem declarations (h : Retabled e a p table s s') :
    s.body.declarations = s'.body.declarations := by
  obtain ⟨b, -, rfl⟩ := h
  exact (s.body_retable_declarations _ b).symm

/-- The body of a mixin that is called from outside stands outside. -/
theorem of_call {c : MixinCall} {bindings : Bindings} {rule : Rule} {layer : Layer} {outer : Scope}
    {i : Nat} (hcalls : e.CallsApart a p) (h : e.Outside a p b s)
    (hmem : Declaration.call c ∈ s.body.declarations)
    (hplace : s.mixinPlace? c.name b = some (.child i :: b'))
    (hhome : e.Outside a p b' (layer :: outer)) (hrule : layer.block.children[i]? = some rule)
    (hfit : bindings.fallbacks.Sublist rule.kind.fallbacks) :
    e.Outside a p (.child i :: b') (Scope.ofCall (layer :: outer) rule.block bindings) := by
  refine ⟨.body hhome.stands hrule hfit, fun hsuffix => ?_⟩
  rcases List.suffix_cons_iff.mp hsuffix with heq | hsuffix
  · exact h.apart (hcalls b s c h.stands hmem (heq ▸ hplace))
  · exact hhome.apart hsuffix

theorem bodySimulation (table : Table) (hp : p.OfRule) (hcalls : e.CallsApart a p) :
    BodySimulation e.keys (e.retable (.replacing p table) a).keys (Retabled e a p table) where
  declarations := declarations
  property := by
    rintro s _ property ⟨b, h, rfl⟩ -
    exact h.evaluate_eq table hp property.value
  call := by
    rintro s _ c ⟨b, h, rfl⟩ hmem
    obtain ⟨b', i, hhome, hfound, hplace⟩ := s.mixin?_retable (r := .replacing p table)
      c.name (outside_closed hp) b h
    cases hmixin : s.mixin? c.name with
    | none =>
        rw [hmixin, Option.map_none] at hfound
        exact .inl ⟨hmixin, hfound⟩
    | some found =>
        obtain ⟨rule, home⟩ := found
        rw [hmixin, Option.map_some] at hfound hplace
        cases home with
        | nil => exact (Scope.mem_homes_of_mixin? hmixin).2.elim
        | cons layer outer =>
            obtain ⟨hhome, hrule⟩ := hhome rule layer outer hmixin
            have hbindings : c.bindings e.keys rule s = c.bindings
                (e.retable (.replacing p table) a).keys
                (rule.retable (.replacing p table) (.child i :: b'))
                (s.retable (.replacing p table) b) := by
              refine MixinCall.bindings_eq ?_ ?_ fun _ _ argument _ =>
                h.evaluate_eq table hp argument
              · rw [rule.retable_eq]
              · rw [rule.retable_eq]
                rfl
            refine .inr ⟨rule, _, _, _, hmixin, hfound, hbindings, fun bindings hbound => ?_⟩
            refine ⟨.child i :: b', of_call hcalls h hmem hplace hhome hrule
              (MixinCall.bindings_fit hbound), ?_⟩
            rw [Scope.retable_ofCall, rule.retable_eq]
            rfl

theorem expand_eq (table : Table) (hp : p.OfRule) (hcalls : e.CallsApart a p)
    (h : e.Outside a p b s) (depth : Nat) : s.expand e.keys depth s.body =
      (s.retable (.replacing p table) b).expand (e.retable (.replacing p table) a).keys depth
        (s.retable (.replacing p table) b).body :=
  (bodySimulation table hp hcalls).expand_eq depth ⟨b, h, rfl⟩

end Document.Outside

end Cascade
