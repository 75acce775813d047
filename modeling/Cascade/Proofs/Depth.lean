import Cascade.Proofs.Calls
import Cascade.Proofs.Resolution

/-!
# The limit on nested calls

Mixins may call each other, also in a circle, and it is the count of calls alone that
ends this. The count is exact: where it is at `now.depth`, a body can be expanded if
and only if no chain of calls from it is longer than what is left of the limit
(`Running.runDeclarations_follows`). A whole run therefore fails for its depth if and
only if it visits a body from which a longer chain starts, unless it fails for
something else before.

That a step answers to the limit is `Limits`, a statement about its outcome, which
goes through `>>=` for expansions (`Expands`) and for visits (`Visits`) alike. What is
evaluated on the way cannot fail for the limit, as evaluation fails in its own ways
only (`Limits.of_evaluate`).
-/

namespace Cascade

/-- An outcome that answers to the limit: a value only if there is no chain of calls
beyond it, and the fault of the limit only if there is one. -/
structure Limits {α : Type} (beyond : Prop) (result : Except Fault α) : Prop where
  value : ∀ a, result = .ok a → ¬beyond
  fault : ∀ mixin limit span, result = .error ⟨.mixinsTooDeep mixin limit, span⟩ → beyond

namespace Limits

variable {α β : Type} {beyond beyond' : Prop}

theorem ok (h : ¬beyond) (a : α) : Limits beyond (.ok a : Except Fault α) :=
  ⟨fun _ _ => h, nofun⟩

theorem iff {result : Except Fault α} (h : Limits beyond result) (hiff : beyond ↔ beyond') :
    Limits beyond' result := propext hiff ▸ h

/-- A fault that is none of the limit. -/
theorem error {fault : Fault} (h : ∀ mixin limit, fault.cause ≠ .mixinsTooDeep mixin limit) :
    Limits False (.error fault : Except Fault α) := by
  refine ⟨nofun, fun mixin limit span heq => ?_⟩
  cases heq
  exact h mixin limit rfl

theorem bind {e : Except Fault α} {f : α → Except Fault β} (he : Limits False e)
    (hf : ∀ a, Limits False (f a)) : Limits False (e >>= f) := by
  cases e with
  | error fault => exact .error fun mixin limit h => he.fault mixin limit fault.span (h ▸ rfl)
  | ok a => exact hf a

theorem map {e : Except Fault α} (he : Limits False e) (f : α → β) : Limits False (e.map f) := by
  cases e with
  | error fault => exact .error fun mixin limit h => he.fault mixin limit fault.span (h ▸ rfl)
  | ok a => exact .ok id _

theorem mapM {f : α → Except Fault β} (h : ∀ a, Limits False (f a)) :
    ∀ l : List α, Limits False (l.mapM f)
  | [] => .ok id _
  | a :: rest => by
      rw [List.mapM_cons]
      exact (h a).bind fun b => (mapM h rest).bind fun bs => .ok id _

/-- Evaluation knows nothing of the limit. -/
theorem of_evaluate (idle : List DefinitionKey) (s : Scope) (raw : Raw) :
    Limits False (s.evaluate idle raw) := by
  refine ⟨fun _ _ => id, fun mixin limit span h => ?_⟩
  obtain ⟨name, hname⟩ :=
    Scope.variableCycle_of_evaluate_error h fun hcause => hcause.ne_recursion rfl
  cases hname

theorem of_computes {e : Except Cause α} (h : Computes e) (span : Span) :
    Limits False (blame span e) := by
  refine ⟨fun _ _ => id, fun mixin limit span h' => ?_⟩
  exact (h _ (blame_error h')).ne_recursion rfl

end Limits

/-! ## Arguments -/

namespace MixinCall

variable {idle : List DefinitionKey} {c : MixinCall} {mixin : Text} {caller : Scope}

theorem bind_ok {p : Parameter} {i : Nat} {entry : Text × Binding}
    (h : c.bind idle mixin caller p i = .ok entry) :
    (∃ t, entry = (p.name, .argument t)) ∨
      ∃ value, p.fallback = some value ∧ entry = (p.name, .fallback value) := by
  unfold bind at h
  split at h
  · rename_i a _
    cases hvalue : caller.evaluate idle a with
    | error => rw [hvalue] at h; cases h
    | ok t =>
        rw [hvalue] at h
        cases h
        exact .inl ⟨t, rfl⟩
  · rename_i value _ hfallback
    cases h
    exact .inr ⟨value, hfallback, rfl⟩
  · cases h

theorem limits_bind (p : Parameter) (i : Nat) : Limits False (c.bind idle mixin caller p i) := by
  unfold bind
  split
  · exact (Limits.of_evaluate _ _ _).map _
  · exact .ok id _
  · exact .error nofun

theorem limits_bindings (rule : Rule) : Limits False (c.bindings idle rule caller) := by
  unfold bindings
  split
  · exact .mapM (fun _ => limits_bind _ _) _
  · exact .ok id _

/-- A parameter is bound to an argument or keeps its own default. -/
theorem bindings_fit {rule : Rule} {bindings : Bindings}
    (h : c.bindings idle rule caller = .ok bindings) :
    bindings.fallbacks.Sublist rule.kind.fallbacks := by
  unfold MixinCall.bindings at h
  split at h
  · rename_i parameters hkind
    have fits : ∀ {l : List (Parameter × Nat)} {bindings : Bindings},
        (l.mapM fun entry => c.bind idle rule.name caller entry.1 entry.2) = .ok bindings →
        bindings.fallbacks.Sublist (RuleKind.mixin (l.map Prod.fst)).fallbacks := by
      intro l
      induction l with
      | nil =>
          intro bindings h
          cases h
          exact .slnil
      | cons first rest ih =>
          intro bindings h
          rw [List.mapM_cons] at h
          obtain ⟨entry, hentry, h⟩ := bind_eq_ok h
          obtain ⟨others, hothers, h⟩ := bind_eq_ok h
          cases h
          have hrest := ih hothers
          rcases bind_ok hentry with ⟨t, rfl⟩ | ⟨value, hvalue, rfl⟩
          · cases hfallback : first.1.fallback with
            | none => simpa [Bindings.fallbacks, RuleKind.fallbacks, hfallback] using hrest
            | some value =>
                have := hrest.cons (first.1.name, value)
                simpa [Bindings.fallbacks, RuleKind.fallbacks, hfallback] using this
          · have := hrest.cons_cons (first.1.name, value)
            simpa [Bindings.fallbacks, RuleKind.fallbacks, hvalue] using this
    have := fits h
    rwa [List.zipIdx_map_fst, ← hkind] at this
  · cases h
    exact List.nil_sublist _

end MixinCall

/-! ## One call -/

/-- The declarations that a call stands for, with at most `depth` calls inside each
other, this one included. -/
def Scope.expandCall (idle : List DefinitionKey) (depth : Nat) (s : Scope) (c : MixinCall) :
    Drafting (List Css.Declaration) :=
  match s.mixin? c.name with
  | none => do
    Drafting.warn c.span (.undefinedMixin c.name)
    return []
  | some (rule, home) =>
    match depth with
    | 0 => throw ⟨.mixinsTooDeep c.name mixinLimit, c.span⟩
    | depth + 1 => do
      let bindings ← c.bindings idle rule s
      Scope.declarations idle depth (home.ofCall rule.block bindings) rule.block

theorem Scope.declarations_eq (idle : List DefinitionKey) (depth : Nat) (s : Scope) (b : Block) :
    s.declarations idle depth b = do
      let expanded ← b.declarations.mapM fun
        | .property p => do return [⟨p.name, ← s.evaluate idle p.value⟩]
        | .call c => s.expandCall idle depth c
      return expanded.flatten := by
  rw [declarations]
  rfl

/-- The moment at which the body of a call is begun. -/
def Moment.deeper (now : Moment) : Moment := { now with depth := now.depth + 1 }

theorem Moment.Sound.deeper {limit : Nat} {now : Moment} (h : now.Sound limit)
    (hdepth : now.depth < limit) : now.deeper.Sound limit :=
  ⟨h.nodup, hdepth⟩

namespace Running

variable {α β γ : Type} {limit : Nat} {now : Moment}

/-- No body is visited, and the outcome answers to the limit. -/
def Expands (beyond : Prop) : Told α := fun result bodies => Limits beyond result ∧ bodies = []

/-- The outcome answers to the limit, with chains that begin in the bodies visited. -/
def Visits : Told α := fun result bodies =>
  Limits (∃ body ∈ bodies, Scope.CallChain (mixinLimit + 1) body) result

namespace Follows

variable {beyond beyond' : Prop} {step : Running α} {m : Drafting α}

theorem expands_of_gives {e : Except Fault α} (h : Follows limit now (Gives e) step m)
    (he : Limits beyond e) : Follows limit now (Expands beyond) step m :=
  h.imp fun _ _ hgives => ⟨hgives.1 ▸ he, hgives.2⟩

/-- A value on the way, which cannot meet the limit itself. -/
theorem expands_after {e : Except Fault α} {next : α → Running β} {f : α → Drafting β}
    (h : Follows limit now (Gives e) step m) (he : Limits False e)
    (hnext : ∀ a, e = .ok a → Follows limit now (Expands beyond) (next a) (f a)) :
    Follows limit now (Expands beyond) (step >>= next) (m >>= f) := by
  have hnext' (a : α) (bodies : List Scope) (ha : Gives e (.ok a) bodies) :
      Follows limit now (Expands beyond) (next a) (f a) := hnext a ha.1.symm
  refine h.bind hnext' ?_ ?_
  · rintro a result _ _ ⟨-, rfl⟩ ⟨hresult, rfl⟩
    exact ⟨hresult, rfl⟩
  · rintro fault _ ⟨rfl, rfl⟩
    refine ⟨⟨nofun, fun mixin limit span heq => ?_⟩, rfl⟩
    cases heq
    exact (he.fault mixin limit span rfl).elim

theorem expands_bind {next : α → Running β} {f : α → Drafting β}
    (h : Follows limit now (Expands beyond) step m)
    (hnext : ∀ a, Follows limit now (Expands beyond') (next a) (f a)) :
    Follows limit now (Expands (beyond ∨ beyond')) (step >>= next) (m >>= f) := by
  refine h.bind (fun a _ _ => hnext a) ?_ ?_
  · rintro a result _ _ ⟨ha, rfl⟩ ⟨hresult, rfl⟩
    refine ⟨⟨fun b hb => not_or.mpr ⟨ha.value a rfl, hresult.value b hb⟩, ?_⟩, rfl⟩
    exact fun mixin limit span hfault => .inr (hresult.fault mixin limit span hfault)
  · rintro fault _ ⟨hfault, rfl⟩
    refine ⟨⟨nofun, fun mixin limit span heq => .inl (hfault.fault mixin limit span ?_)⟩, rfl⟩
    cases heq
    rfl

theorem expands_pure {f : α → β} (h : Follows limit now (Expands beyond) step m) :
    Follows limit now (Expands beyond) (step >>= fun a => Pure.pure (f a))
      (m >>= fun a => Pure.pure (f a)) := by
  refine (h.expands_bind fun a => .pure ⟨.ok id _, rfl⟩).imp fun result bodies htold => ?_
  exact ⟨htold.1.iff (or_iff_left id), htold.2⟩

theorem expands_mapM {beyond : γ → Prop} {f : γ → Running β} {g : γ → Drafting β} :
    ∀ {l : List γ}, (∀ a ∈ l, Follows limit now (Expands (beyond a)) (f a) (g a)) →
      Follows limit now (Expands (∃ a ∈ l, beyond a)) (l.mapM f) (l.mapM g)
  | [], _ => .pure ⟨.ok (by simp) _, rfl⟩
  | a :: rest, h => by
      rw [List.mapM_cons, List.mapM_cons]
      have hrest := expands_mapM fun a ha => h a (List.mem_cons_of_mem _ ha)
      refine ((h a (List.mem_cons_self ..)).expands_bind fun b => hrest.expands_bind fun bs =>
        .pure ⟨.ok id _, rfl⟩).imp fun result bodies htold => ⟨htold.1.iff ?_, htold.2⟩
      simp

end Follows

/-! ## Expanding calls -/

variable {d : Document} {s : Scope}

theorem runValue_expands (hscope : d.HasScope s) (hnow : now.Sound limit) (raw : Raw) :
    Follows limit now (Expands False) (s.runValue raw) (liftM (s.evaluate (d.idleAt now) raw)) :=
  (runValue_follows hscope hnow raw).expands_of_gives (.of_evaluate _ _ _)

theorem runBindings_follows (hscope : d.HasScope s) (hnow : now.Sound limit) (c : MixinCall)
    (rule : Rule) :
    Follows limit now (Gives (c.bindings (d.idleAt now) rule s)) (c.runBindings rule s)
      (liftM (c.bindings (d.idleAt now) rule s)) := by
  unfold MixinCall.runBindings MixinCall.bindings
  cases hkind : rule.kind with
  | mixin parameters =>
      refine .gives_mapM fun parameter _ => ?_
      simp only [MixinCall.bind]
      cases hargument : c.argument? parameter.2 with
      | some a =>
          have hmap {e : Except Fault Text} {f : Text → Text × Binding} :
              e.map f = e >>= fun t => .ok (f t) := by
            cases e <;> rfl
          simp only [hmap]
          exact (runValue_follows hscope hnow a).gives_bind fun t _ => .gives_ok _
      | none =>
          cases hfallback : parameter.1.fallback with
          | some value => exact .gives_ok _
          | none => exact .lift _
  | style | atRule | directive => exact .gives_ok _

/-- Running the body of a call, whatever its declarations need. -/
theorem runBody_follows {beyond : Prop} {b : Block} {m : Drafting (List Css.Declaration)}
    (hnow : now.Sound limit) (hdepth : now.depth < limit)
    (h : Follows limit now.deeper (Expands beyond) (s.runDeclarations b) m) :
    Follows limit now (Expands beyond) (s.runBody b) m := by
  refine .begun Run.leave (hnow.deeper hdepth) h ?_ ?_
  · intro r' hr'
    rw [Run.leave, hr']
    rfl
  · rintro r rfl
    exact Scope.runBody.eq_1 ..

/-- Running a call, given that the bodies of calls that may be nested in it can be run. -/
theorem runCall_follows_of {k : Nat} {layer : Layer} {outer : Scope} {c : MixinCall}
    (hscope : d.HasScope (layer :: outer)) (hnow : now.Sound mixinLimit)
    (hdepth : now.depth + k = mixinLimit)
    (hbody : ∀ (j : Nat) (rule : Rule) (home : Scope) (bindings : Bindings), k = j + 1 →
      d.HasScope (home.ofCall rule.block bindings) →
      Follows mixinLimit now.deeper
        (Expands (Scope.CallChain k (home.ofCall rule.block bindings)))
        ((home.ofCall rule.block bindings).runDeclarations rule.block)
        ((home.ofCall rule.block bindings).declarations (d.idleAt now) j rule.block)) :
    Follows mixinLimit now
      (Expands (∃ rule home, Scope.mixin? c.name (layer :: outer) = some (rule, home) ∧
        Scope.CallChain k (home.nest rule.block)))
      (Scope.runCall (layer :: outer) c)
      (Scope.expandCall (d.idleAt now) k (layer :: outer) c) := by
  rw [Scope.runCall, Scope.expandCall]
  cases hmixin : Scope.mixin? c.name (layer :: outer) with
  | none =>
      have hwarn : Follows mixinLimit now (Expands False)
          (Running.drafting (Drafting.warn c.span (.undefinedMixin c.name)))
          (Drafting.warn c.span (.undefinedMixin c.name)) :=
        .drafting fun _ => ⟨.ok id _, rfl⟩
      have hnil : Follows mixinLimit now (Expands False) (pure [] : Running (List Css.Declaration))
          (pure []) := .pure ⟨.ok id _, rfl⟩
      refine (hwarn.expands_bind fun _ => hnil).imp fun result bodies htold =>
        ⟨htold.1.iff ?_, htold.2⟩
      simp
  | some found =>
      obtain ⟨rule, home⟩ := found
      have hbeyond : (∃ rule' home', some (rule, home) = some (rule', home') ∧
          Scope.CallChain k (home'.nest rule'.block)) ↔
            Scope.CallChain k (home.nest rule.block) := by
        constructor
        · rintro ⟨_, _, heq, h⟩
          cases heq
          exact h
        · exact fun h => ⟨_, _, rfl, h⟩
      rw [hbeyond]
      refine .observe fun r hr => ?_
      cases k with
      | zero =>
          have hlimit : mixinLimit ≤ r.now.depth := by
            rw [hr]
            omega
          simp only [if_pos hlimit]
          exact .throw ⟨⟨nofun, fun _ _ _ _ => .zero⟩, rfl⟩
      | succ j =>
          have hlimit : ¬mixinLimit ≤ r.now.depth := by
            rw [hr]
            omega
          simp only [if_neg hlimit]
          refine (runBindings_follows hscope hnow c rule).expands_after
            (MixinCall.limits_bindings rule)
            fun bindings hbindings => ?_
          have hfit := MixinCall.bindings_fit hbindings
          have hrun := hbody j rule home bindings rfl (hscope.of_mixin? hmixin hfit)
          refine (runBody_follows hnow (by omega) hrun).imp fun result bodies htold => ?_
          exact ⟨htold.1.iff Scope.CallChain.ofCall_iff, htold.2⟩

theorem runDeclarations_follows : ∀ (k : Nat) {layer : Layer} {outer : Scope} {now : Moment},
    d.HasScope (layer :: outer) → now.Sound mixinLimit → now.depth + k = mixinLimit →
    Follows mixinLimit now (Expands (Scope.CallChain (k + 1) (layer :: outer)))
      (Scope.runDeclarations (layer :: outer) layer.block)
      (Scope.declarations (d.idleAt now) k (layer :: outer) layer.block) := by
  intro k layer outer now hscope hnow hdepth
  rw [Scope.runDeclarations, Scope.declarations_eq, Scope.CallChain.succ_iff]
  refine .expands_pure (.expands_mapM fun declaration _ => ?_)
  cases declaration with
  | property p =>
      refine (Follows.expands_pure
        (runValue_expands hscope hnow p.value)).imp fun result bodies htold =>
        ⟨htold.1.iff ?_, htold.2⟩
      simp
  | call c =>
      refine (runCall_follows_of hscope hnow hdepth fun j rule home bindings hk hbody => ?_).imp
        fun result bodies htold => ⟨htold.1.iff ?_, htold.2⟩
      · subst hk
        exact runDeclarations_follows j hbody (hnow.deeper (by omega)) (by
          simp only [Moment.deeper]
          omega)
      · simp

theorem runCall_follows {k : Nat} {layer : Layer} {outer : Scope} (c : MixinCall)
    (hscope : d.HasScope (layer :: outer)) (hnow : now.Sound mixinLimit)
    (hdepth : now.depth + k = mixinLimit) :
    Follows mixinLimit now
      (Expands (∃ rule home, Scope.mixin? c.name (layer :: outer) = some (rule, home) ∧
        Scope.CallChain k (home.nest rule.block)))
      (Scope.runCall (layer :: outer) c)
      (Scope.expandCall (d.idleAt now) k (layer :: outer) c) := by
  refine runCall_follows_of hscope hnow hdepth fun j rule home bindings hk hbody => ?_
  subst hk
  refine runDeclarations_follows j hbody (hnow.deeper (by omega)) ?_
  simp only [Moment.deeper]
  omega

/-! ## Visiting rules -/

namespace Follows

variable {step : Running α} {m : Drafting α}

/-- A step that visits no body. -/
theorem visits (h : Follows limit now (Expands False) step m) : Follows limit now Visits step m :=
  h.imp fun result bodies htold => by
    rw [htold.2]
    exact htold.1.iff (by simp)

theorem visits_bind {next : α → Running β} {f : α → Drafting β}
    (h : Follows limit now Visits step m)
    (hnext : ∀ a, Follows limit now Visits (next a) (f a)) :
    Follows limit now Visits (step >>= next) (m >>= f) := by
  refine h.bind (fun a _ _ => hnext a) (fun a result bodies bodies' ha hresult => ?_)
    fun fault bodies hfault => ?_
  · refine ⟨fun b hb => ?_, fun mixin limit span hb => ?_⟩
    · rintro ⟨body, hbody, hchain⟩
      rcases List.mem_append.mp hbody with hbody | hbody
      · exact hresult.value b hb ⟨body, hbody, hchain⟩
      · exact ha.value a rfl ⟨body, hbody, hchain⟩
    · obtain ⟨body, hbody, hchain⟩ := hresult.fault mixin limit span hb
      exact ⟨body, List.mem_append_left _ hbody, hchain⟩
  · refine ⟨nofun, fun mixin limit span heq => hfault.fault mixin limit span ?_⟩
    cases heq
    rfl

theorem visits_pure (a : α) : Follows limit now Visits (Pure.pure a) (Pure.pure a) :=
  .pure (.ok (by simp) a)

end Follows

/-- What only concerns the draft does not fail. -/
theorem write_visits (f : Css.Writer → Css.Writer) :
    Follows limit now Visits (Running.drafting (Drafting.write f)) (Drafting.write f) :=
  .drafting fun _ => .ok (by simp) _

theorem warn_visits (span : Span) (w : Warning) :
    Follows limit now Visits (Running.drafting (Drafting.warn span w)) (Drafting.warn span w) :=
  .drafting fun _ => .ok (by simp) _

theorem runTest_visits (hscope : d.HasScope s) (hnow : now.Sound limit) (condition : Raw) :
    Follows limit now Visits (Chain.runTest s condition)
      (Chain.test (d.idleAt now) s condition) := by
  unfold Chain.runTest Chain.test
  refine (runValue_expands hscope hnow condition).visits.visits_bind fun t => ?_
  have hdecide := Limits.of_computes (Comparison.decide_computes t) condition.span
  refine ((Follows.lift _).expands_of_gives hdecide).visits.visits_bind fun outcome => ?_
  cases outcome with
  | some outcome => exact .visits_pure _
  | none => exact (warn_visits _ _).visits_bind fun _ => .visits_pure _

theorem runTakes_visits (hscope : d.HasScope s) (hnow : now.Sound limit) (chain : Chain)
    (rule : Rule) :
    Follows limit now Visits (chain.runTakes s rule) (chain.takes (d.idleAt now) s rule) := by
  unfold Chain.runTakes Chain.takes
  rcases chain.branch rule.condition with ⟨branch, next⟩
  cases branch with
  | take | skip => exact .visits_pure _
  | orphan warning => exact (warn_visits _ _).visits_bind fun _ => .visits_pure _
  | test condition =>
      exact (runTest_visits hscope hnow condition).visits_bind fun _ => .visits_pure _

/-- Visiting a body, at a moment at which no call is being expanded. -/
theorem runVisit_visits {layer : Layer} {outer : Scope} (hscope : d.HasScope (layer :: outer))
    (hnow : now.Sound mixinLimit) (hdepth : now.depth = 0) :
    Follows mixinLimit now Visits (Scope.runVisit (layer :: outer) layer.block)
      (Scope.declarations (d.idleAt now) mixinLimit (layer :: outer) layer.block) := by
  have hrun := runDeclarations_follows mixinLimit hscope hnow (by omega)
  intro r hr
  obtain ⟨r', bodies, hstep, hnow', hdraft, hhistory, hreached, htold, rfl⟩ :=
    hrun { r with reached := (layer :: outer) :: r.reached } hr
  refine ⟨r', [layer :: outer], hstep, hnow', hdraft, hhistory, hreached, htold.iff ?_⟩
  simp

theorem atRule_visits {prelude : Text} {selectors : List Text} {declarations : List Css.Declaration}
    {step : Running PUnit} {m : Drafting PUnit} (h : Follows limit now Visits step m) :
    Follows limit now Visits (Running.atRule prelude selectors declarations step)
      (Drafting.atRule prelude selectors declarations m) := by
  unfold Running.atRule Drafting.atRule
  refine Follows.visits_bind (.drafting fun _ => .ok (by simp) _) fun mark => ?_
  have hrest : Follows limit now Visits
      (step >>= fun _ => Running.drafting (.write (·.closeBlock mark)))
      (m >>= fun _ => .write (·.closeBlock mark)) :=
    h.visits_bind fun _ => write_visits _
  simp only
  split
  · split
    · exact (write_visits _).visits_bind fun _ => hrest
    · exact (write_visits _).visits_bind fun _ => hrest
  · exact hrest

mutual

theorem rule_visits {layer : Layer} {outer : Scope} (hnow : now.Sound mixinLimit)
    (hdepth : now.depth = 0) :
    ∀ rule : Rule, d.HasScope (layer :: outer) → rule ∈ layer.block.children →
      Follows mixinLimit now Visits (rule.run (layer :: outer))
        (rule.draft (d.idleAt now) (layer :: outer))
  | ⟨selectors, own, kind, condition, ⟨imports, definitions, declarations, children⟩, span⟩,
      hscope, hmem => by
      have hinner : d.HasScope
          (⟨⟨imports, definitions, declarations, children⟩, []⟩ :: layer :: outer) :=
        hscope.nest hmem
      have hvisit := runVisit_visits hinner hnow hdepth
      have hchildren := rules_visits hnow hdepth .outside children hinner (List.Subset.refl _)
      rw [Rule.run.eq_def, Rule.draft.eq_def]
      cases kind with
      | mixin _ => exact .visits_pure _
      | directive t => exact write_visits _
      | style =>
          refine hvisit.visits_bind fun own => ?_
          split
          · exact (write_visits _).visits_bind fun _ => hchildren
          · exact hchildren
      | atRule prelude =>
          refine hvisit.visits_bind fun own => ?_
          split
          · split
            · exact write_visits _
            · exact .visits_pure _
          · exact atRule_visits hchildren

theorem rules_visits {layer : Layer} {outer : Scope} (hnow : now.Sound mixinLimit)
    (hdepth : now.depth = 0) :
    ∀ (chain : Chain) (rules : List Rule), d.HasScope (layer :: outer) →
      rules ⊆ layer.block.children →
      Follows mixinLimit now Visits (runRules (layer :: outer) chain rules)
        (draftRules (d.idleAt now) (layer :: outer) chain rules)
  | _, [], _, _ => .visits_pure _
  | chain, rule :: rest, hscope, hsubset => by
      rw [runRules, draftRules]
      obtain ⟨hrule, hrest⟩ := List.cons_subset.mp hsubset
      refine (runTakes_visits hscope hnow chain rule).visits_bind fun (taken, chain) => ?_
      have hrun := rules_visits hnow hdepth chain rest hscope hrest
      cases taken with
      | true => exact (rule_visits hnow hdepth rule hscope hrule).visits_bind fun _ => hrun
      | false => exact hrun

end

mutual

theorem document_visits (hnow : now.Sound mixinLimit) (hdepth : now.depth = 0) :
    ∀ e : Document, d.HasScope (.ofBlock e.block) →
      Follows mixinLimit now Visits e.run (e.draft (d.idleAt now))
  | ⟨_, ⟨imports, definitions, declarations, children⟩⟩, hscope => by
      rw [Document.run.eq_def, Document.draft.eq_def]
      refine (imports_visits hnow hdepth imports fun e he => .imported hscope he).visits_bind
        fun _ => ?_
      exact rules_visits hnow hdepth .outside children hscope (List.Subset.refl _)

theorem import_visits (hnow : now.Sound mixinLimit) (hdepth : now.depth = 0) :
    ∀ i : Import, (∀ e, i = .sheet e → d.HasScope (.ofBlock e.block)) →
      Follows mixinLimit now Visits i.run (i.draft (d.idleAt now))
  | .sheet e, hscope => document_visits hnow hdepth e (hscope e rfl)
  | .css _, _ => write_visits _

theorem imports_visits (hnow : now.Sound mixinLimit) (hdepth : now.depth = 0) :
    ∀ imports : List Import, (∀ e, Import.sheet e ∈ imports → d.HasScope (.ofBlock e.block)) →
      Follows mixinLimit now Visits (runImports imports) (draftImports (d.idleAt now) imports)
  | [], _ => .visits_pure _
  | i :: rest, hscope => by
      rw [runImports, draftImports]
      have hfirst := import_visits hnow hdepth i fun e he => hscope e (he ▸ List.mem_cons_self ..)
      exact hfirst.visits_bind fun _ =>
        imports_visits hnow hdepth rest fun e he => hscope e (List.mem_cons_of_mem _ he)

end

end Running

/-! ## The limit -/

theorem Run.start_sound : Run.start.now.Sound mixinLimit := ⟨.nil, Nat.zero_le _⟩

/-- What the limit on nested calls comes to for a style sheet. -/
structure DepthLimit (s : StyleSheet) : Prop where
  /-- Writing ends, with no call in progress and none too deep on the way, and gives
  what `Document.css` gives. -/
  ends : ∃ result r', s.document.run.run.run Run.start = some (result, r') ∧
    r'.now = Run.start.now ∧ (∀ moment ∈ r'.history, moment.depth ≤ mixinLimit) ∧
    s.document.css = (result.map fun _ => r'.draft.writer.text, r'.draft.warnings)
  /-- Every call leaves the count as it was, also when it fails. -/
  restores : ∀ (scope : Scope) (c : MixinCall) (r : Run), s.document.HasScope scope →
    r.now.Sound mixinLimit → ∃ result r', (scope.runCall c).run.run r = some (result, r') ∧
      r'.now = r.now ∧ ∀ moment ∈ r'.history, moment ∈ r.history ∨ moment.depth ≤ mixinLimit
  /-- As long as no chain of calls is longer than the limit, writing does not fail for it. -/
  within : ∀ result r', s.document.run.run.run Run.start = some (result, r') →
    (∀ body ∈ r'.reached, ∀ n, Scope.CallChain n body → n ≤ mixinLimit) →
    ∀ options mixin limit location unicode, (s.output options).result ≠
      .error (.located (.mixinsTooDeep mixin limit) location unicode)
  /-- Where a longer chain is reached, nothing is written. -/
  beyond : ∀ result r', s.document.run.run.run Run.start = some (result, r') →
    ∀ body ∈ r'.reached, ∀ n, Scope.CallChain n body → mixinLimit < n →
      ∀ options css, (s.output options).result ≠ .ok css
  /-- A call that comes back to the body it stands in makes such a chain. -/
  recursive : ∀ body t, Relation.ReflTransGen Scope.Calls body t →
    Relation.TransGen Scope.Calls t t → ∃ n, Scope.CallChain n body ∧ mixinLimit < n

theorem Document.run_follows (d : Document) :
    Running.Follows mixinLimit Run.start.now Running.Visits d.run (d.draft d.keys) := by
  have h := Running.document_visits Run.start_sound rfl d .root
  rwa [d.idleAt_of_resolving_nil rfl] at h

namespace StyleSheet

variable {s : StyleSheet} {options : Options} {e : Except Fault PUnit} {t : Text}
  {warnings : Warnings}

theorem outcome_of_output_ok {css : Text}
    (hcss : s.document.css = (e.map fun _ => t, warnings))
    (h : (s.output options).result = .ok css) : ∃ a, e = .ok a := by
  cases e with
  | ok a => exact ⟨a, rfl⟩
  | error fault =>
      simp only [output, hcss] at h
      cases h

theorem outcome_of_output_error {cause : Cause} {location : Location} {unicode : Bool}
    (hcss : s.document.css = (e.map fun _ => t, warnings))
    (h : (s.output options).result = .error (.located cause location unicode)) :
    ∃ span, e = .error ⟨cause, span⟩ := by
  cases e with
  | ok a =>
      simp only [output, hcss] at h
      cases h
  | error fault =>
      simp only [output, hcss] at h
      cases h
      exact ⟨fault.span, rfl⟩

theorem depthLimit (s : StyleSheet) : DepthLimit s := by
  obtain ⟨r₁, bodies, hrun, hnow, hdraft, hhistory, hreached, htold⟩ :=
    s.document.run_follows Run.start rfl
  have hcss : s.document.css =
      (((s.document.draft s.document.keys).run.run Run.start.draft).1.map
        fun _ => r₁.draft.writer.text, r₁.draft.warnings) := by
    rw [hdraft]
    rfl
  -- There is one run, so whatever is assumed of a run holds of this one.
  have unique {result : Except Fault PUnit} {r' : Run}
      (h : s.document.run.run.run Run.start = some (result, r')) : r'.reached = bodies := by
    rw [hrun] at h
    obtain ⟨-, rfl⟩ := Prod.ext_iff.mp (Option.some.inj h)
    rw [hreached]
    exact List.append_nil _
  refine ⟨⟨_, r₁, hrun, hnow, fun moment hmoment => ?_, hcss⟩, ?_, ?_, ?_, ?_⟩
  · rcases hhistory moment hmoment with hold | hsound
    · cases hold
    · exact hsound.depth_le
  · intro scope c r hscope hr
    cases scope with
    | nil => exact (hscope.ne_nil rfl).elim
    | cons layer outer =>
        obtain ⟨k, hk⟩ := Nat.le.dest hr.depth_le
        obtain ⟨r', _, hrun, hnow, -, hhistory, -⟩ := Running.runCall_follows c hscope hr hk r rfl
        exact ⟨_, r', hrun, hnow, fun moment hmoment =>
          (hhistory moment hmoment).imp_right (·.depth_le)⟩
  · intro result r' h hwithin options mixin limit location unicode houtput
    obtain ⟨span, hfault⟩ := outcome_of_output_error hcss houtput
    obtain ⟨body, hbody, hchain⟩ := htold.fault mixin limit span hfault
    have := hwithin body (unique h ▸ hbody) _ hchain
    omega
  · intro result r' h body hbody n hchain hn options css houtput
    obtain ⟨a, hok⟩ := outcome_of_output_ok hcss houtput
    exact htold.value a hok ⟨body, unique h ▸ hbody, hchain.of_le hn⟩
  · intro body t hpath hrecursive
    exact ⟨mixinLimit + 1, .of_recursive hrecursive _ hpath, Nat.lt_succ_self _⟩

/-- A mixin that calls itself makes a chain that is too long. -/
theorem depthLimit_recursive :
    ∃ sheet, (read {} ⟨"a.less"⟩ ".m() { .m(); }\na { .m(); }\n").result = .ok sheet ∧
      ∃ result r', sheet.document.run.run.run Run.start = some (result, r') ∧
        ∃ body ∈ r'.reached, ∃ n, Scope.CallChain n body ∧ mixinLimit < n := by
  have hfails :
      (read {} ⟨"a.less"⟩ ".m() { .m(); }\na { .m(); }\n").result.toOption.any (fun sheet =>
        (sheet.output {}).result = .error (.located (.mixinsTooDeep ".m" 100)
          ⟨"a.less", ⟨0, 7⟩, ⟨0, 11⟩, ".m() { .m(); }"⟩ true)) = true := by
    decide +kernel
  cases hread : (read {} ⟨"a.less"⟩ ".m() { .m(); }\na { .m(); }\n").result with
  | error failure =>
      rw [hread] at hfails
      cases hfails
  | ok sheet =>
      rw [hread] at hfails
      obtain ⟨result, r', hrun, -⟩ := (depthLimit sheet).ends
      refine ⟨sheet, rfl, result, r', hrun, ?_⟩
      by_contra hno
      refine (depthLimit sheet).within result r' hrun ?_ {} _ _ _ _ (of_decide_eq_true hfails)
      intro body hbody n hchain
      by_contra hn
      exact hno ⟨body, hbody, n, hchain, Nat.lt_of_not_le hn⟩

end StyleSheet

end Cascade
