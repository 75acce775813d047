import Cascade.Proofs.Assembly
import Cascade.Proofs.Scoping
import Cascade.Proofs.Siblings

/-!
# Where declarations come from

There are two ways to the declarations of a block: the block is visited where it stands, or
a mixin call resolves to its rule. The expansions of a document are computed once more,
each declaration with the address of the block it stands in (`Document.origins`); without
the addresses these are the declarations of the CSS (`Document.origins_of_css`).

The conditions on a rule decide whether it is visited (`Document.Visits`), and nothing else:
a call expands the first rule that answers to it, also one whose branch is not taken
(`Document.not_keepsOut_of_leavesOut`). So such a rule keeps out of the CSS if no call that
is expanded resolves to it (`Document.keepsOut_of_leavesOut`).
-/

namespace Cascade

/-! ## Origins -/

/-- A declaration with the address of the block it stands in. -/
abbrev Origin := Address × Css.Declaration

/-- The declarations that a block at the address expands to. -/
def Scope.origins (idle : List DefinitionKey) (depth : Nat) (a : Address) (s : Scope)
    (b : Block) : Except Fault (List Origin) := do
  let expanded ← b.declarations.mapM fun
    | .property p => do return [(a, ⟨p.name, ← s.evaluate idle p.value⟩)]
    | .call c =>
      match s.mixin? c.name with
      | none => return []
      | some (rule, home) =>
        match depth with
        | 0 => .error ⟨.mixinsTooDeep c.name mixinLimit, c.span⟩
        | depth + 1 => do
          let bindings ← c.bindings idle rule s
          Scope.origins idle depth ((s.mixinPlace? c.name a).getD a)
            (home.ofCall rule.block bindings) rule.block
  return expanded.flatten

mutual

/-- The expansions of a rule that takes part and stands at the address, and of the rules
nested in it. -/
def Rule.origins (idle : List DefinitionKey) (scope : Scope) (a : Address) :
    Rule → Except Fault (List (List Origin))
  | ⟨selectors, _, kind, _, ⟨imports, definitions, own, children⟩, _⟩ =>
    let block : Block := ⟨imports, definitions, own, children⟩
    let inner := scope.nest block
    match kind with
    | .mixin _ | .directive _ => return []
    | .style => do
      let declarations ← inner.origins idle mixinLimit a block
      let nested ← rulesOrigins idle inner a 0 .outside children
      return (if selectors.isEmpty then [] else [declarations]) ++ nested
    | .atRule _ => do
      let declarations ← inner.origins idle mixinLimit a block
      let nested ← rulesOrigins idle inner a 0 .outside children
      return [declarations] ++ nested

/-- The expansions of the rules of the block at the address, after a chain. The first of
them has the number `i`. -/
def rulesOrigins (idle : List DefinitionKey) (scope : Scope) (a : Address) (i : Nat)
    (chain : Chain) : List Rule → Except Fault (List (List Origin))
  | [] => return []
  | rule :: rest => do
    let (taken, chain) ← chain.admits idle scope rule
    let first ← if taken then rule.origins idle scope (.child i :: a) else pure []
    let others ← rulesOrigins idle scope a (i + 1) chain rest
    return first ++ others

end

mutual

/-- The expansions of all rules of a document at the address that take part, those of what
it imports first. -/
def Document.origins (a : Address) : Document → Except Fault (List (List Origin))
  | ⟨path, ⟨imports, definitions, own, children⟩⟩ => do
    let document : Document := ⟨path, ⟨imports, definitions, own, children⟩⟩
    let imported ← importsOrigins a 0 imports
    let rules ← rulesOrigins document.keys (.ofBlock document.block) a 0 .outside children
    return imported ++ rules

def Import.origins (a : Address) : Import → Except Fault (List (List Origin))
  | .sheet document => document.origins a
  | .css _ => return []

def importsOrigins (a : Address) (i : Nat) : List Import → Except Fault (List (List Origin))
  | [] => return []
  | x :: rest => do
    let first ← x.origins (.imported i :: a)
    let others ← importsOrigins a (i + 1) rest
    return first ++ others

end

namespace Scope

/-- The declarations that a call stands for, in a scope at the address. -/
def callOrigins (idle : List DefinitionKey) (depth : Nat) (a : Address) (s : Scope)
    (c : MixinCall) : Except Fault (List Origin) :=
  match s.mixin? c.name with
  | none => .ok []
  | some (rule, home) =>
    match depth with
    | 0 => .error ⟨.mixinsTooDeep c.name mixinLimit, c.span⟩
    | depth + 1 => do
      let bindings ← c.bindings idle rule s
      origins idle depth ((s.mixinPlace? c.name a).getD a) (home.ofCall rule.block bindings)
        rule.block

/-- The declarations that one declaration of a block at the address stands for. -/
def originsOf (idle : List DefinitionKey) (depth : Nat) (a : Address) (s : Scope) :
    Declaration → Except Fault (List Origin)
  | .property p => do return [(a, ⟨p.name, ← s.evaluate idle p.value⟩)]
  | .call c => s.callOrigins idle depth a c

theorem origins_eq (idle : List DefinitionKey) (depth : Nat) (a : Address) (s : Scope)
    (b : Block) : s.origins idle depth a b = do
      let expanded ← b.declarations.mapM (s.originsOf idle depth a)
      return expanded.flatten := by
  rw [origins]
  rfl

end Scope

/-! ## Without the addresses -/

/-- What is computed in two parts may be changed in two parts. -/
theorem map_append_eq {α β : Type} (f : α → β) (e e' : Except Fault (List α)) :
    (do return (← e) ++ (← e') : Except Fault (List α)).map (List.map f) =
      (do return (← e.map (List.map f)) ++ (← e'.map (List.map f))) := by
  cases e with
  | error fault => rfl
  | ok l =>
      cases e' with
      | error fault => rfl
      | ok l' => exact congrArg Except.ok List.map_append

namespace Scope

theorem originsOf_expansion_of {idle : List DefinitionKey} {depth : Nat} {a : Address} {s : Scope}
    (hbody : ∀ j b t body, depth = j + 1 →
      (origins idle j b t body).map (List.map Prod.snd) = expand idle j t body)
    (declaration : Declaration) :
    (s.originsOf idle depth a declaration).map (List.map Prod.snd) =
      s.expansion idle depth declaration := by
  cases declaration with
  | property p =>
      rw [originsOf, expansion]
      cases s.evaluate idle p.value <;> rfl
  | call c =>
      rw [originsOf, expansion, callOrigins, callExpansion]
      cases s.mixin? c.name with
      | none => rfl
      | some found =>
          cases depth with
          | zero => rfl
          | succ j =>
              simp only
              cases c.bindings idle found.1 s with
              | error fault => rfl
              | ok bindings => exact hbody j _ _ _ rfl

theorem origins_expand (idle : List DefinitionKey) (depth : Nat) (a : Address) (s : Scope)
    (b : Block) : (s.origins idle depth a b).map (List.map Prod.snd) = s.expand idle depth b := by
  rw [origins_eq, expand_eq]
  have heach : ∀ declaration ∈ b.declarations,
      (s.originsOf idle depth a declaration).map (List.map Prod.snd) =
        s.expansion idle depth declaration := by
    refine fun declaration _ => originsOf_expansion_of (fun j b t body h => ?_) declaration
    subst h
    exact origins_expand idle j b t body
  rw [← mapM_congr heach, ← map_mapM]
  cases b.declarations.mapM (s.originsOf idle depth a) with
  | error fault => rfl
  | ok expanded => exact congrArg Except.ok List.map_flatten

end Scope

mutual

theorem Rule.origins_expansions (idle : List DefinitionKey) (scope : Scope) :
    ∀ (rule : Rule) (a : Address),
      (rule.origins idle scope a).map (List.map (List.map Prod.snd)) = rule.expansions idle scope
  | ⟨selectors, own, kind, condition, ⟨imports, definitions, declarations, children⟩, span⟩, a => by
      rw [Rule.origins.eq_def, Rule.expansions.eq_def]
      have hchildren := rulesOrigins_expansions idle
        (scope.nest ⟨imports, definitions, declarations, children⟩) a children 0 .outside
      have hown := Scope.origins_expand idle mixinLimit a
        (scope.nest ⟨imports, definitions, declarations, children⟩)
        ⟨imports, definitions, declarations, children⟩
      cases kind with
      | mixin _ | directive _ => rfl
      | style | atRule _ =>
          simp only [← hown, ← hchildren]
          cases Scope.origins idle mixinLimit a _ _ with
          | error fault => rfl
          | ok declarations =>
              cases rulesOrigins idle _ a 0 .outside children with
              | error fault => rfl
              | ok nested =>
                  refine congrArg Except.ok (List.map_append.trans ?_)
                  cases selectors <;> rfl

theorem rulesOrigins_expansions (idle : List DefinitionKey) (scope : Scope) (a : Address) :
    ∀ (rules : List Rule) (i : Nat) (chain : Chain),
      (rulesOrigins idle scope a i chain rules).map (List.map (List.map Prod.snd)) =
        rulesExpansions idle scope chain rules
  | [], _, _ => rfl
  | rule :: rest, i, chain => by
      rw [rulesOrigins, rulesExpansions]
      cases chain.admits idle scope rule with
      | error fault => rfl
      | ok admitted =>
          obtain ⟨taken, next⟩ := admitted
          have hothers := rulesOrigins_expansions idle scope a rest (i + 1) next
          cases taken with
          | true =>
              have hfirst := rule.origins_expansions idle scope (.child i :: a)
              refine (map_append_eq _ (rule.origins idle scope (.child i :: a)) _).trans ?_
              rw [hfirst, hothers]
              rfl
          | false =>
              refine (map_append_eq _ (.ok []) _).trans ?_
              rw [hothers]
              rfl

end

mutual

/-- Without the addresses, the declarations are those that the document expands to. -/
theorem Document.origins_expansions : ∀ (e : Document) (a : Address),
    (e.origins a).map (List.map (List.map Prod.snd)) = e.expansions
  | ⟨path, ⟨imports, definitions, declarations, children⟩⟩, a => by
      rw [Document.origins.eq_def, Document.expansions.eq_def]
      refine (map_append_eq _ _ _).trans ?_
      rw [importsOrigins_expansions imports a 0, rulesOrigins_expansions]

theorem Import.origins_expansions : ∀ (x : Import) (a : Address),
    (x.origins a).map (List.map (List.map Prod.snd)) = x.expansions
  | .sheet e, a => e.origins_expansions a
  | .css _, _ => rfl

theorem importsOrigins_expansions : ∀ (imports : List Import) (a : Address) (i : Nat),
    (importsOrigins a i imports).map (List.map (List.map Prod.snd)) = importsExpansions imports
  | [], _, _ => rfl
  | x :: rest, a, i => by
      rw [importsOrigins, importsExpansions]
      refine (map_append_eq _ _ _).trans ?_
      rw [x.origins_expansions, importsOrigins_expansions rest a (i + 1)]

end

/-! ## The ways to a block -/

/-- The blocks that are visited where they stand when a document at the address is written,
with the keys that are idle, where each stands, and its scope. -/
inductive Document.Visits :
    Document → (root : Address) → List DefinitionKey → Address → Scope → Prop
  | root {d : Document} {root : Address} : d.Visits root d.keys root (.ofBlock d.block)
  | imported {d e : Document} {root a : Address} {idle : List DefinitionKey} {s : Scope} {i : Nat} :
      d.block.imports[i]? = some (.sheet e) → e.Visits (.imported i :: root) idle a s →
      d.Visits root idle a s
  | body {d : Document} {root a : Address} {idle : List DefinitionKey} {s : Scope} {i : Nat}
      {rule : Rule} :
      d.Visits root idle a s → s.body.children[i]? = some rule → rule.isMixin = false →
      Siblings.Written s.body.children (Siblings.outcome idle s s.body.children) i →
      d.Visits root idle (.child i :: a) (s.nest rule.block)

/-- The blocks that are visited, and the bodies that calls in them are expanded to. -/
inductive Document.Reaches (d : Document) (root : Address) (idle : List DefinitionKey) :
    Address → Scope → Prop
  | visited {a : Address} {s : Scope} : d.Visits root idle a s → d.Reaches root idle a s
  | called {a place : Address} {s home : Scope} {c : MixinCall} {rule : Rule}
      {bindings : Bindings} :
      d.Reaches root idle a s → Declaration.call c ∈ s.body.declarations →
      s.mixin? c.name = some (rule, home) → s.mixinPlace? c.name a = some place →
      c.bindings idle rule s = .ok bindings →
      d.Reaches root idle place (home.ofCall rule.block bindings)

/-- The declaration is a property of the innermost block, with its value in the scope. -/
def Scope.Writes (idle : List DefinitionKey) (s : Scope) (declaration : Css.Declaration) : Prop :=
  ∃ p, Declaration.property p ∈ s.body.declarations ∧
    s.evaluate idle p.value = .ok declaration.value ∧ declaration.name = p.name

/-- The declaration comes from a block that is reached at its address. -/
def Document.Explains (d : Document) (root : Address) (idle : List DefinitionKey)
    (origin : Origin) : Prop :=
  ∃ s, d.Reaches root idle origin.1 s ∧ s.Writes idle origin.2

theorem Scope.mixinPlace?_of_mixin? {name : Text} {s : Scope} {found : Rule × Scope}
    (h : s.mixin? name = some found) (a : Address) :
    ∃ place, s.mixinPlace? name a = some place := by
  have hclosed : Closed fun _ _ => True := ⟨fun _ => trivial, fun _ _ => trivial⟩
  obtain ⟨b, i, -, -, hplace⟩ := s.mixin?_retable (r := .replacing [] []) name hclosed a trivial
  exact ⟨.child i :: b, by rw [hplace, h]; rfl⟩

/-- What steps in a row come to, one of them comes to. -/
theorem exists_of_mem_mapM {ε α β : Type} {f : α → Except ε β} : ∀ {l : List α} {bs : List β},
    l.mapM f = .ok bs → ∀ b ∈ bs, ∃ a ∈ l, f a = .ok b
  | [], _, h, b, hb => by
      cases h
      cases hb
  | a :: rest, _, h, b, hb => by
      rw [List.mapM_cons] at h
      obtain ⟨first, hfirst, h⟩ := bind_eq_ok h
      obtain ⟨others, hothers, h⟩ := bind_eq_ok h
      cases h
      rcases List.mem_cons.mp hb with rfl | hb
      · exact ⟨a, List.mem_cons_self .., hfirst⟩
      · obtain ⟨c, hc, heq⟩ := exists_of_mem_mapM hothers b hb
        exact ⟨c, List.mem_cons_of_mem a hc, heq⟩

namespace Document

variable {d e : Document} {root a : Address} {idle : List DefinitionKey} {s scope : Scope}

theorem Reaches.imported {i : Nat} (hget : d.block.imports[i]? = some (.sheet e))
    (h : e.Reaches (.imported i :: root) idle a s) : d.Reaches root idle a s := by
  induction h with
  | visited h => exact .visited (.imported hget h)
  | called _ hmem hmixin hplace hbindings ih => exact .called ih hmem hmixin hplace hbindings

theorem Explains.imported {i : Nat} (hget : d.block.imports[i]? = some (.sheet e))
    {origin : Origin} (h : e.Explains (.imported i :: root) idle origin) :
    d.Explains root idle origin := by
  obtain ⟨s, hreaches, hwrites⟩ := h
  exact ⟨s, hreaches.imported hget, hwrites⟩

theorem Reaches.explains_of {depth : Nat} (h : d.Reaches root idle a s)
    (hbody : ∀ j b t origins, depth = j + 1 → d.Reaches root idle b t →
      t.origins idle j b t.body = .ok origins → ∀ origin ∈ origins, d.Explains root idle origin)
    {declaration : Declaration} (hmem : declaration ∈ s.body.declarations) {origins : List Origin}
    (horigins : s.originsOf idle depth a declaration = .ok origins) :
    ∀ origin ∈ origins, d.Explains root idle origin := by
  cases declaration with
  | property p =>
      rw [Scope.originsOf] at horigins
      obtain ⟨value, hvalue, horigins⟩ := bind_eq_ok horigins
      cases horigins
      intro origin horigin
      rw [List.mem_singleton.mp horigin]
      exact ⟨s, h, p, hmem, hvalue, rfl⟩
  | call c =>
      rw [Scope.originsOf, Scope.callOrigins] at horigins
      cases hmixin : s.mixin? c.name with
      | none =>
          simp only [hmixin] at horigins
          cases horigins
          exact fun _ => List.not_mem_nil.elim
      | some found =>
          obtain ⟨rule, home⟩ := found
          obtain ⟨place, hplace⟩ := Scope.mixinPlace?_of_mixin? hmixin a
          simp only [hmixin, hplace] at horigins
          cases depth with
          | zero => cases horigins
          | succ j =>
              obtain ⟨bindings, hbindings, horigins⟩ := bind_eq_ok horigins
              have hreaches := h.called hmem hmixin hplace hbindings
              exact hbody j place _ origins rfl hreaches horigins

/-- What a block that is reached expands to comes from blocks that are reached. -/
theorem Reaches.explains (depth : Nat) {a : Address} {s : Scope} (h : d.Reaches root idle a s)
    {origins : List Origin} (horigins : s.origins idle depth a s.body = .ok origins) :
    ∀ origin ∈ origins, d.Explains root idle origin := by
  rw [Scope.origins_eq] at horigins
  obtain ⟨expanded, hexpanded, horigins⟩ := bind_eq_ok horigins
  cases horigins
  intro origin horigin
  obtain ⟨list, hlist, horigin⟩ := List.mem_flatten.mp horigin
  obtain ⟨declaration, hmem, heq⟩ := exists_of_mem_mapM hexpanded list hlist
  refine h.explains_of (fun j b t body hj hreaches hbody => ?_) hmem heq origin horigin
  subst hj
  exact hreaches.explains j hbody

end Document

section

variable {d : Document} {root : Address} {idle : List DefinitionKey}

mutual

/-- A rule that is visited expands to what comes from blocks that are reached. -/
theorem Rule.origins_explained {scope : Scope} :
    ∀ (rule : Rule) {a : Address} {lists : List (List Origin)},
      (rule.isMixin = false → d.Visits root idle a (scope.nest rule.block)) →
      rule.origins idle scope a = .ok lists →
      ∀ origin ∈ lists.flatten, d.Explains root idle origin
  | ⟨selectors, own, kind, condition, ⟨imports, definitions, declarations, children⟩, span⟩, a,
      lists, hvisits, h => by
      rw [Rule.origins.eq_def] at h
      cases kind with
      | mixin _ | directive _ =>
          cases h
          exact fun _ => List.not_mem_nil.elim
      | style =>
          have hvisits := hvisits rfl
          obtain ⟨declared, hdeclared, h⟩ := bind_eq_ok h
          obtain ⟨nested, hnested, h⟩ := bind_eq_ok h
          have hown := (Document.Reaches.visited hvisits).explains mixinLimit hdeclared
          have hinner := rulesOrigins_explained [] children .outside hvisits rfl .begin hnested
          cases h
          intro origin horigin
          rw [List.flatten_append] at horigin
          rcases List.mem_append.mp horigin with horigin | horigin
          · refine hown origin ?_
            split at horigin
            · cases horigin
            · simpa using horigin
          · exact hinner origin horigin
      | atRule _ =>
          have hvisits := hvisits rfl
          obtain ⟨declared, hdeclared, h⟩ := bind_eq_ok h
          obtain ⟨nested, hnested, h⟩ := bind_eq_ok h
          have hown := (Document.Reaches.visited hvisits).explains mixinLimit hdeclared
          have hinner := rulesOrigins_explained [] children .outside hvisits rfl .begin hnested
          cases h
          intro origin horigin
          exact (List.mem_append.mp horigin).elim (hown origin) (hinner origin)

theorem rulesOrigins_explained {scope : Scope} {a : Address} :
    ∀ (before rest : List Rule) (chain : Chain) {lists : List (List Origin)},
      d.Visits root idle a scope → scope.body.children = before ++ rest →
      chain.Describes scope.body.children (Siblings.outcome idle scope scope.body.children)
        before.length →
      rulesOrigins idle scope a before.length chain rest = .ok lists →
      ∀ origin ∈ lists.flatten, d.Explains root idle origin
  | _, [], _, _, _, _, _, h => by
      cases h
      exact fun _ => List.not_mem_nil.elim
  | before, rule :: rest, chain, lists, hvisits, hchildren, hdescribes, h => by
      rw [rulesOrigins] at h
      obtain ⟨⟨written, next⟩, hadmits, h⟩ := bind_eq_ok h
      have hrule : scope.body.children[before.length]? = some rule := by simp [hchildren]
      obtain ⟨hwritten, hnext⟩ := hdescribes.admits hrule hadmits
      have hrest : ∀ {others},
          rulesOrigins idle scope a (before.length + 1) next rest = .ok others →
            ∀ origin ∈ others.flatten, d.Explains root idle origin := by
        intro others hothers
        have hlength : before.length + 1 = (before ++ [rule]).length := by simp
        rw [hlength] at hnext hothers
        exact rulesOrigins_explained (before ++ [rule]) rest next hvisits (by simp [hchildren])
          hnext hothers
      cases written with
      | true =>
          obtain ⟨first, hfirst, h⟩ := bind_eq_ok h
          obtain ⟨others, hothers, h⟩ := bind_eq_ok h
          have hrule := rule.origins_explained
            (fun hmixin => hvisits.body hrule hmixin (hwritten.mp rfl)) hfirst
          cases h
          intro origin horigin
          rw [List.flatten_append] at horigin
          rcases List.mem_append.mp horigin with horigin | horigin
          · exact hrule origin horigin
          · exact hrest hothers origin horigin
      | false =>
          obtain ⟨_, hfirst, h⟩ := bind_eq_ok h
          obtain ⟨others, hothers, h⟩ := bind_eq_ok h
          cases hfirst
          cases h
          exact hrest hothers

end

mutual

/-- What is written of a document comes from blocks that are reached in it, or in what it
imports. -/
theorem Document.origins_explained :
    ∀ (e : Document) (root : Address) {lists : List (List Origin)},
      e.origins root = .ok lists → ∀ origin ∈ lists.flatten, ∃ idle, e.Explains root idle origin
  | ⟨path, ⟨imports, definitions, declarations, children⟩⟩, root, lists, h => by
      rw [Document.origins.eq_def] at h
      obtain ⟨imported, himported, h⟩ := bind_eq_ok h
      obtain ⟨rules, hrules, h⟩ := bind_eq_ok h
      cases h
      intro origin horigin
      rw [List.flatten_append] at horigin
      rcases List.mem_append.mp horigin with horigin | horigin
      · obtain ⟨i, e, idle, hget, hexplains⟩ :=
          importsOrigins_explained imports root 0 himported origin horigin
        rw [Nat.zero_add] at hexplains
        exact ⟨idle, Document.Explains.imported hget hexplains⟩
      · have hexplains := rulesOrigins_explained [] children .outside .root rfl .begin hrules
        exact ⟨_, hexplains origin horigin⟩

theorem Import.origins_explained :
    ∀ (x : Import) (root : Address) {lists : List (List Origin)},
      x.origins root = .ok lists → ∀ origin ∈ lists.flatten,
        ∃ e idle, x = .sheet e ∧ e.Explains root idle origin
  | .sheet e, root, _, h, origin, horigin => by
      obtain ⟨idle, hexplains⟩ := e.origins_explained root h origin horigin
      exact ⟨e, idle, rfl, hexplains⟩
  | .css _, _, _, h, _, horigin => by
      cases h
      cases horigin

theorem importsOrigins_explained :
    ∀ (imports : List Import) (root : Address) (i : Nat) {lists : List (List Origin)},
      importsOrigins root i imports = .ok lists → ∀ origin ∈ lists.flatten,
        ∃ (j : Nat) (e : Document) (idle : List DefinitionKey), imports[j]? = some (.sheet e) ∧
          e.Explains (.imported (i + j) :: root) idle origin
  | [], _, _, _, h, _, horigin => by
      cases h
      cases horigin
  | x :: rest, root, i, _, h, origin, horigin => by
      rw [importsOrigins] at h
      obtain ⟨first, hfirst, h⟩ := bind_eq_ok h
      obtain ⟨others, hothers, h⟩ := bind_eq_ok h
      cases h
      rw [List.flatten_append] at horigin
      rcases List.mem_append.mp horigin with horigin | horigin
      · obtain ⟨e, idle, rfl, hexplains⟩ := x.origins_explained _ hfirst origin horigin
        exact ⟨0, e, idle, rfl, hexplains⟩
      · obtain ⟨j, e, idle, hget, hexplains⟩ :=
          importsOrigins_explained rest root (i + 1) hothers origin horigin
        rw [Nat.add_right_comm, Nat.add_assoc] at hexplains
        exact ⟨j + 1, e, idle, hget, hexplains⟩

end

end

/-! ## Branches that are not taken -/

namespace Document

variable {d : Document} {root a b : Address} {idle : List DefinitionKey} {s : Scope} {i : Nat}

/-- The rule with the number `i` in the block at the address is not written where it stands:
its block is not visited, or the conditions there keep the rule out. -/
def LeavesOut (d : Document) (b : Address) (i : Nat) : Prop :=
  ∀ idle s, d.Visits [] idle b s →
    ¬Siblings.Written s.body.children (Siblings.outcome idle s s.body.children) i

/-- Of the calls that are expanded, only those in the rule at the address resolve to it. -/
def NeverCalls (d : Document) (p : Address) : Prop :=
  ∀ idle a s c, d.Reaches [] idle a s → Declaration.call c ∈ s.body.declarations →
    s.mixinPlace? c.name a = some p → p <:+ a

/-- A block that is visited stands where it is said to. -/
theorem Visits.scopeAt (h : d.Visits root idle a s) : d.ScopeAt root a s := by
  induction h with
  | root => exact .root
  | imported hget _ ih => exact ih.within (.imported .root hget)
  | @body d root a idle s i rule _ hget _ _ ih =>
      cases s with
      | nil => exact (ih.hasScope.ne_nil rfl).elim
      | cons layer outer => exact ih.body hget (List.nil_sublist _)

/-- The body that a call is expanded to stands where the call resolves to. -/
theorem ScopeAt.called {place : Address} {home : Scope} {c : MixinCall} {rule : Rule}
    {bindings : Bindings} (h : d.ScopeAt root a s) (hmixin : s.mixin? c.name = some (rule, home))
    (hplace : s.mixinPlace? c.name a = some place)
    (hbindings : c.bindings idle rule s = .ok bindings) :
    d.ScopeAt root place (home.ofCall rule.block bindings) := by
  have hclosed : Closed (d.ScopeAt root) := ⟨ScopeAt.tail, fun h hget => .imported h hget⟩
  obtain ⟨b, j, hhome, -, hfound⟩ := s.mixin?_retable (r := .replacing [] []) c.name hclosed a h
  rw [hmixin, Option.map_some, hplace] at hfound
  obtain rfl := Option.some.inj hfound
  cases home with
  | nil => exact (Scope.mem_homes_of_mixin? hmixin).2.elim
  | cons layer outer =>
      obtain ⟨hhome, hget⟩ := hhome rule layer outer hmixin
      exact hhome.body hget (MixinCall.bindings_fit hbindings)

theorem Reaches.scopeAt (h : d.Reaches root idle a s) : d.ScopeAt root a s := by
  induction h with
  | visited h => exact h.scopeAt
  | called _ _ hmixin hplace hbindings ih => exact ih.called hmixin hplace hbindings

/-- The top-level block is only visited as such. -/
theorem Visits.root_or_deeper (h : d.Visits root idle a s) :
    a = root ∧ idle = d.keys ∧ s = .ofBlock d.block ∨ root.length < a.length := by
  induction h with
  | root => exact .inl ⟨rfl, rfl, rfl⟩
  | imported _ _ ih =>
      right
      obtain ⟨rfl, -⟩ | hlt := ih
      · simp
      · rw [List.length_cons] at hlt
        omega
  | body _ _ _ _ ih =>
      right
      rw [List.length_cons]
      obtain ⟨rfl, -⟩ | hlt := ih
      · simp
      · omega

theorem leavesOut_root (h : ¬Siblings.Written d.block.children
    (Siblings.outcome d.keys (.ofBlock d.block) d.block.children) i) : d.LeavesOut [] i := by
  intro idle s hvisits
  obtain ⟨-, rfl, rfl⟩ | hlt := hvisits.root_or_deeper
  · exact h
  · simp at hlt

theorem neverCalls_of_callsApart {p : Address} (h : d.CallsApart [] p) : d.NeverCalls p :=
  fun _ a s c hreaches hmem hplace => h a s c hreaches.scopeAt hmem hplace

/-- A block in a rule is visited only if the rule is written. -/
theorem Visits.written (h : d.Visits root idle a s) (hsuffix : .child i :: b <:+ a)
    (hroot : ¬.child i :: b <:+ root) : ∃ t, d.Visits root idle b t ∧
      Siblings.Written t.body.children (Siblings.outcome idle t t.body.children) i := by
  induction h with
  | root => exact (hroot hsuffix).elim
  | imported hget _ ih =>
      have hrule : Address.OfRule (.child i :: b) := ⟨i, b, rfl⟩
      obtain ⟨t, hvisits, hwritten⟩ := ih hsuffix (hrule.not_suffix_imported hroot)
      exact ⟨t, .imported hget hvisits, hwritten⟩
  | @body d root a idle s j rule hvisits hget hmixin hwritten ih =>
      rcases List.suffix_cons_iff.mp hsuffix with heq | hsuffix
      · cases heq
        exact ⟨s, hvisits, hwritten⟩
      · exact ih hsuffix hroot

/-- What is reached is not in a rule that is left out and never called. -/
theorem Reaches.apart (hout : d.LeavesOut b i) (hcalls : d.NeverCalls (.child i :: b))
    (h : d.Reaches [] idle a s) : ¬.child i :: b <:+ a := by
  induction h with
  | visited h =>
      intro hsuffix
      obtain ⟨t, hvisits, hwritten⟩ := h.written hsuffix (by simp)
      exact hout _ t hvisits hwritten
  | @called a place s home c rule bindings hreaches hmem hmixin hplace hbindings ih =>
      have hclosed : Closed fun a (_ : Scope) => ¬.child i :: b <:+ a :=
        ⟨fun {a} _ _ _ h hsuffix => h (hsuffix.trans (List.tail_suffix a)),
          fun h _ => Address.OfRule.not_suffix_imported ⟨i, b, rfl⟩ h⟩
      obtain ⟨b', j, hhome, -, hfound⟩ :=
        s.mixin?_retable (r := .replacing [] []) c.name hclosed a ih
      rw [hmixin, Option.map_some, hplace] at hfound
      intro hsuffix
      rw [Option.some.inj hfound] at hsuffix
      rcases List.suffix_cons_iff.mp hsuffix with heq | hsuffix
      · rw [← heq] at hfound
        exact ih (hcalls _ a s c hreaches hmem (hplace.trans hfound))
      · cases home with
        | nil => exact (Scope.mem_homes_of_mixin? hmixin).2.elim
        | cons layer outer => exact (hhome rule layer outer hmixin).1 hsuffix

/-- Where there is CSS there are origins, and they are those of its declarations. -/
theorem origins_of_css {css : Text} (h : d.css.1 = .ok css) :
    ∃ nodes origins, css = Css.Node.printAll 0 nodes ∧ d.origins [] = .ok origins ∧
      Css.Node.allDeclarations nodes = origins.flatten.map Prod.snd := by
  rw [d.css_printed] at h
  obtain ⟨_, hforest, -⟩ | ⟨nodes, lists, hforest, hexpansions, hdeclarations⟩ :=
    d.forest_comprises.outcomes
  · rw [hforest] at h
    cases h
  · rw [hforest] at h
    have herased := d.origins_expansions []
    rw [hexpansions] at herased
    cases horigins : d.origins [] with
    | error fault =>
        rw [horigins] at herased
        cases herased
    | ok origins =>
        rw [horigins] at herased
        have hlists : origins.map (List.map Prod.snd) = lists := Except.ok.inj herased
        refine ⟨nodes, origins, (Except.ok.inj h).symm, rfl, ?_⟩
        rw [hdeclarations, ← hlists, List.map_flatten]

/-- If the branch of a rule is not taken, and no call that is expanded resolves to it, no
declaration of the CSS comes from its block or from a rule nested in it. -/
theorem keepsOut_of_leavesOut {css : Text} (hcss : d.css.1 = .ok css) (hout : d.LeavesOut b i)
    (hcalls : d.NeverCalls (.child i :: b)) :
    ∃ nodes origins, css = Css.Node.printAll 0 nodes ∧ d.origins [] = .ok origins ∧
      Css.Node.allDeclarations nodes = origins.flatten.map Prod.snd ∧
      ∀ origin ∈ origins.flatten, ¬.child i :: b <:+ origin.1 := by
  obtain ⟨nodes, origins, hprinted, horigins, hdeclarations⟩ := origins_of_css hcss
  refine ⟨nodes, origins, hprinted, horigins, hdeclarations, fun origin horigin => ?_⟩
  obtain ⟨idle, s, hreaches, -⟩ := d.origins_explained [] horigins origin horigin
  exact hreaches.apart hout hcalls

/-- The first rule of two is left out, for the second. -/
theorem keepsOut_of_leavesOut_else :
    ∃ (d : Document) (nodes : List Css.Node) (origins : List (List Origin)),
      d.css.1 = .ok "a \x7b d: e; \x7d\n" ∧ d.LeavesOut [] 0 ∧ d.NeverCalls [.child 0] ∧
        d.origins [] = .ok origins ∧ Css.Node.allDeclarations nodes = origins.flatten.map Prod.snd ∧
        ∀ origin ∈ origins.flatten, ¬[.child 0] <:+ origin.1 := by
  let skipped : Rule := ⟨["a"], ["a"], .style, some (.test ⟨"1 > 2", ⟨0, 0, 3⟩⟩),
    ⟨[], [], [.property ⟨"b", ⟨"c", ⟨0, 4, 5⟩⟩⟩], []⟩, ⟨0, 0, 3⟩⟩
  let written : Rule := ⟨["a"], ["a"], .style, some .otherwise,
    ⟨[], [], [.property ⟨"d", ⟨"e", ⟨0, 8, 9⟩⟩⟩], []⟩, ⟨0, 6, 7⟩⟩
  let d : Document := ⟨⟨"d"⟩, ⟨[], [], [], [skipped, written]⟩⟩
  have hcss : d.css.1 = .ok "a \x7b d: e; \x7d\n" := by decide +kernel
  have hout : d.LeavesOut [] 0 := leavesOut_root (by decide +kernel)
  have hcalls : d.NeverCalls [.child 0] := by
    refine neverCalls_of_callsApart
      (callsApart_of_blocks [d.block, skipped.block, written.block] (by simp) ?_)
    simp [d, skipped, written]
  obtain ⟨nodes, origins, -, horigins, hdeclarations, hapart⟩ :=
    keepsOut_of_leavesOut hcss hout hcalls
  exact ⟨d, nodes, origins, hcss, hout, hcalls, horigins, hdeclarations, hapart⟩

/-- A call expands a rule whose branch is not taken. -/
theorem not_keepsOut_of_leavesOut :
    let text : Text := ".a @if (1 > 2) \x7b b: c; \x7d x \x7b .a; \x7d"
    ∃ d : Document, (StyleSheet.readState {} ⟨"a.less"⟩ text).1 = .ok d ∧ d.LeavesOut [] 0 ∧
      d.css.1 = .ok "x \x7b b: c; \x7d\n" ∧
        d.origins [] = .ok [[([.child 0], ⟨"b", "c"⟩)]] := by
  intro text
  have hparts : (StyleSheet.readState {} ⟨"a.less"⟩ text).1.toOption.any (fun d =>
      ¬Siblings.Written d.block.children
          (Siblings.outcome d.keys (.ofBlock d.block) d.block.children) 0 ∧
        d.css.1 = .ok "x \x7b b: c; \x7d\n" ∧
          d.origins [] = .ok [[([.child 0], ⟨"b", "c"⟩)]]) = true := by
    decide +kernel
  cases hread : (StyleSheet.readState {} ⟨"a.less"⟩ text).1 with
  | error fault =>
      rw [hread] at hparts
      cases hparts
  | ok d =>
      rw [hread] at hparts
      obtain ⟨hunwritten, hcss, horigins⟩ := of_decide_eq_true hparts
      exact ⟨d, rfl, leavesOut_root hunwritten, hcss, horigins⟩

end Document

end Cascade
