import Cascade.Proofs.Causes
import Cascade.Proofs.Follows
import Cascade.Proofs.Keys
import Cascade.Proofs.Scopes

/-!
# The cycle check of variables

A variable is found where its definition stands, and its value is evaluated there.
So what decides whether an evaluation can end is the graph of definitions: one
refers to another if a name in its value stands for the other in its home.

Evaluation goes through that graph depth first and refuses to enter a definition
whose key is in progress. That this refuses exactly the cycles has two halves of
different kinds. No value is found where a cycle is reachable, whatever the keys
are (`Scope.not_cycle_of_evaluate_ok`). That a refused key really closes a cycle
needs the keys to be distinct, so that what was refused is the very definition in
progress and no other with the same key (`Document.HasScope.cycle_of_evaluate_error`).
-/

namespace Cascade

/-! ## What a value refers to -/

mutual

/-- The names of the variables in a token, at any depth. -/
def Token.references : Token → List Text
  | .reference name => [name]
  | .call _ arguments => Token.allReferences arguments
  | .group inside => Token.allReferences inside
  | .space | .comma _ | .operator _ | .word _ => []

def Token.allReferences : List Token → List Text
  | [] => []
  | token :: rest => token.references ++ Token.allReferences rest

end

def Raw.references (raw : Raw) : List Text := Token.allReferences (Token.ofText raw.text)

/-- A definition with the scope its value is evaluated in. -/
structure Definition where
  name : Text
  value : Raw
  home : Scope

namespace Definition

def key (x : Definition) : DefinitionKey := (x.name, x.value.span)

end Definition

/-- A name in the value stands for the definition. Evaluated arguments are no
definitions, so nothing is used through them. -/
def Scope.Uses (s : Scope) (raw : Raw) (x : Definition) : Prop :=
  x.name ∈ raw.references ∧ s.meaning? x.name = some (.raw x.value x.home)

def Definition.Refers (x y : Definition) : Prop := x.home.Uses x.value y

/-- The definitions that an evaluation can come to. -/
def Scope.Reaches (s : Scope) (raw : Raw) (x : Definition) : Prop :=
  ∃ first, s.Uses raw first ∧ Relation.ReflTransGen Definition.Refers first x

/-- A definition that is defined in terms of itself. -/
def Definition.Cyclic (x : Definition) : Prop := Relation.TransGen Definition.Refers x x

theorem Scope.Reaches.uses {s : Scope} {raw : Raw} {x y : Definition} (h : s.Reaches raw x)
    (hxy : x.Refers y) : s.Reaches raw y := by
  obtain ⟨first, hfirst, hpath⟩ := h
  exact ⟨first, hfirst, hpath.tail hxy⟩

/-- What a definition that nothing endless starts from refers to cannot lead back
to it. -/
theorem Definition.not_cyclic_of_acc {x : Definition}
    (h : Acc (fun y x : Definition => x.Refers y) x) :
    ∀ y, Relation.ReflTransGen Definition.Refers x y → ¬y.Cyclic := by
  have key (x : Definition) (h : Acc (fun y x : Definition => x.Refers y) x) : ¬x.Cyclic := by
    induction h with
    | intro x _ ih =>
        intro hcyclic
        obtain ⟨y, hxy, hyx⟩ := Relation.TransGen.head'_iff.mp hcyclic
        exact ih y hxy (Relation.TransGen.tail' hyx hxy)
  intro y hpath
  refine key y ?_
  induction hpath with
  | refl => exact h
  | tail _ hyz ih => exact ih.inv hyz

/-! ## Substitution -/

namespace Token

variable {replacement : Text → Except Fault (List Token)}

mutual

/-- Substitution asks for every name. -/
theorem replacement_ok_of_substitute {tokens : List Token} :
    ∀ {token : Token}, substitute replacement token = .ok tokens →
      ∀ name ∈ token.references, ∃ found, replacement name = .ok found
  | reference name, h => by
      intro other hother
      obtain rfl := List.mem_singleton.mp hother
      exact ⟨_, h⟩
  | call _ arguments, h => by
      obtain ⟨_, hinside, -⟩ := bind_eq_ok h
      exact replacement_ok_of_substituteAll hinside
  | group inside, h => by
      obtain ⟨_, hinside, -⟩ := bind_eq_ok h
      exact replacement_ok_of_substituteAll hinside
  | space, _ | comma _, _ | operator _, _ | word _, _ => fun _ hname => by cases hname

theorem replacement_ok_of_substituteAll {result : List Token} :
    ∀ {tokens : List Token}, substituteAll replacement tokens = .ok result →
      ∀ name ∈ allReferences tokens, ∃ found, replacement name = .ok found
  | [], _ => fun _ hname => by cases hname
  | token :: rest, h => by
      obtain ⟨first, hfirst, h⟩ := bind_eq_ok h
      obtain ⟨others, hothers, -⟩ := bind_eq_ok h
      intro name hname
      rcases List.mem_append.mp hname with hname | hname
      · exact replacement_ok_of_substitute hfirst name hname
      · exact replacement_ok_of_substituteAll hothers name hname

end

mutual

/-- Substitution only fails where a replacement does. -/
theorem replacement_error_of_substitute {fault : Fault} :
    ∀ {token : Token}, substitute replacement token = .error fault →
      ∃ name ∈ token.references, replacement name = .error fault
  | reference name, h => ⟨name, List.mem_cons_self .., h⟩
  | call _ arguments, h => by
      rcases bind_eq_error h with h | ⟨_, _, h⟩
      · exact replacement_error_of_substituteAll h
      · cases h
  | group inside, h => by
      rcases bind_eq_error h with h | ⟨_, _, h⟩
      · exact replacement_error_of_substituteAll h
      · cases h
  | space, h | comma _, h | operator _, h | word _, h => by cases h

theorem replacement_error_of_substituteAll {fault : Fault} :
    ∀ {tokens : List Token}, substituteAll replacement tokens = .error fault →
      ∃ name ∈ allReferences tokens, replacement name = .error fault
  | [], h => by cases h
  | token :: rest, h => by
      rcases bind_eq_error h with h | ⟨_, _, h⟩
      · obtain ⟨name, hname, hfault⟩ := replacement_error_of_substitute h
        exact ⟨name, List.mem_append_left _ hname, hfault⟩
      · rcases bind_eq_error h with h | ⟨_, _, h⟩
        · obtain ⟨name, hname, hfault⟩ := replacement_error_of_substituteAll h
          exact ⟨name, List.mem_append_right _ hname, hfault⟩
        · cases h

end

end Token

/-! ## Evaluation, one definition at a time -/

/-- Evaluates a definition in its home, if it is idle. -/
def Definition.evaluate (idle : List DefinitionKey) (x : Definition) (used : Span) :
    Except Fault Text :=
  match Idle.take? x.key idle with
  | none => .error ⟨.variableCycle x.name, used⟩
  | some ⟨rest, _⟩ => x.home.evaluate rest x.value

namespace Scope

/-- What a variable is replaced by. -/
def replacement (idle : List DefinitionKey) (s : Scope) (used : Span) (name : Text) :
    Except Fault (List Token) :=
  match s.meaning? name with
  | none => .ok [.word ('@' :: name)]
  | some (.evaluated t) => .ok (Token.ofText t)
  | some (.raw value home) =>
    (Definition.evaluate idle ⟨name, value, home⟩ used).map Token.ofText

theorem evaluate_eq (idle : List DefinitionKey) (s : Scope) (raw : Raw) :
    s.evaluate idle raw = do
      let tokens ← Token.substituteAll (s.replacement idle raw.span) (Token.ofText raw.text)
      let v ← blame raw.span (Token.value tokens)
      return v.css := by
  rw [evaluate]
  refine congrArg (fun replacement => do
    let tokens ← Token.substituteAll replacement (Token.ofText raw.text)
    let v ← blame raw.span (Token.value tokens)
    return v.css) (funext fun name => ?_)
  unfold replacement
  rcases s.meaning? name with _ | (t | ⟨value, home⟩)
  · rfl
  · rfl
  · simp only [Definition.evaluate, Definition.key]
    cases Idle.take? (name, value.span) idle <;> rfl

theorem replacement_of_uses {idle : List DefinitionKey} {s : Scope} {raw : Raw} {used : Span}
    {x : Definition} (h : s.Uses raw x) :
    s.replacement idle used x.name = (x.evaluate idle used).map Token.ofText := by
  rw [replacement, h.2]

end Scope

namespace Definition

variable {idle : List DefinitionKey} {x : Definition} {used : Span}

theorem evaluate_of_notMem (h : x.key ∉ idle) :
    x.evaluate idle used = .error ⟨.variableCycle x.name, used⟩ := by
  rw [evaluate, Idle.take?_eq_none_iff.mpr h]

theorem evaluate_of_mem (h : x.key ∈ idle) :
    x.evaluate idle used = x.home.evaluate (idle.filter (· ≠ x.key)) x.value := by
  cases htake : Idle.take? x.key idle with
  | none => exact (Idle.take?_eq_none_iff.mp htake h).elim
  | some rest => rw [evaluate, htake, ← (Idle.val_of_take? htake).2]

end Definition

theorem length_filter_ne_lt {key : DefinitionKey} {idle : List DefinitionKey} (h : key ∈ idle) :
    (idle.filter (· ≠ key)).length < idle.length :=
  List.length_filter_lt_length_iff_exists.mpr ⟨key, h, by simp⟩

/-! ## No value where a cycle is reachable -/

namespace Scope

/-- Where an evaluation gives a value, everything it refers to has been evaluated
with fewer definitions idle, so it leads nowhere endless. -/
theorem acc_of_evaluate_ok {idle : List DefinitionKey} {s : Scope} {raw : Raw} {t : Text}
    (h : s.evaluate idle raw = .ok t) {x : Definition} (hx : s.Uses raw x) :
    Acc (fun y x : Definition => x.Refers y) x := by
  rw [evaluate_eq] at h
  obtain ⟨tokens, htokens, -⟩ := bind_eq_ok h
  obtain ⟨found, hfound⟩ := Token.replacement_ok_of_substituteAll htokens x.name hx.1
  rw [replacement_of_uses hx] at hfound
  by_cases hidle : x.key ∈ idle
  · rw [Definition.evaluate_of_mem hidle] at hfound
    have := length_filter_ne_lt hidle
    cases hvalue : x.home.evaluate (idle.filter (· ≠ x.key)) x.value with
    | error fault =>
        rw [hvalue] at hfound
        cases hfound
    | ok t => exact .intro x fun y hy => acc_of_evaluate_ok hvalue hy
  · rw [Definition.evaluate_of_notMem hidle] at hfound
    cases hfound
termination_by idle.length

theorem not_cyclic_of_evaluate_ok {idle : List DefinitionKey} {s : Scope} {raw : Raw} {t : Text}
    (h : s.evaluate idle raw = .ok t) {x : Definition} (hx : s.Reaches raw x) : ¬x.Cyclic := by
  obtain ⟨first, hfirst, hpath⟩ := hx
  exact Definition.not_cyclic_of_acc (acc_of_evaluate_ok h hfirst) x hpath

end Scope

/-! ## What is refused is a cycle -/

/-- An evaluation that started from `raw₀` has come to `raw`. Every key in progress
is that of a definition that was reached, could be found from the start, and leads
to whatever is used next. -/
structure Underway (keys idle : List DefinitionKey) (start : Scope) (raw₀ : Raw) (s : Scope)
    (raw : Raw) : Prop where
  homes_subset : s.homes ⊆ start.homes
  reaches : ∀ {x}, s.Uses raw x → start.Reaches raw₀ x
  in_progress : ∀ key ∈ keys, key ∉ idle → ∃ x : Definition, x.key = key ∧
    start.Reaches raw₀ x ∧ x.home ∈ start.homes ∧ x.home.Defines x.name x.value ∧
    ∀ y, s.Uses raw y → Relation.TransGen Definition.Refers x y

namespace Underway

variable {keys idle : List DefinitionKey} {start s : Scope} {raw₀ raw : Raw} {x : Definition}

theorem found (h : Underway keys idle start raw₀ s raw) (hx : s.Uses raw x) :
    x.home ∈ start.homes ∧ x.home.Defines x.name x.value :=
  (Scope.mem_homes_of_meaning? hx.2).imp_left fun hmem => h.homes_subset hmem

theorem step (h : Underway keys idle start raw₀ s raw) (hx : s.Uses raw x) :
    Underway keys (idle.filter (· ≠ x.key)) start raw₀ x.home x.value where
  homes_subset := Scope.homes_subset (h.found hx).1
  reaches := fun hy => (h.reaches hx).uses hy
  in_progress := by
    intro key hkey hnotin
    by_cases heq : key = x.key
    · exact ⟨x, heq.symm, h.reaches hx, (h.found hx).1, (h.found hx).2, fun _ hy => .single hy⟩
    · have hnotin : key ∉ idle := fun hmem =>
        hnotin (List.mem_filter.mpr ⟨hmem, decide_eq_true heq⟩)
      obtain ⟨z, hz, hreached, hhome, hdefines, hleads⟩ := h.in_progress key hkey hnotin
      exact ⟨z, hz, hreached, hhome, hdefines, fun y hy => (hleads x hx).tail hy⟩

/-- A key that is refused belongs to a definition in progress. As keys are distinct,
it is the very definition that was asked for. -/
theorem cyclic_of_not_idle {d : Document} (hkeys : d.keys.Nodup) (hstart : d.HasScope start)
    (h : Underway d.keys idle start raw₀ s raw) (hx : s.Uses raw x) (hidle : x.key ∉ idle) :
    x.Cyclic := by
  obtain ⟨hhome, hdefines⟩ := h.found hx
  have hkey := (hstart.of_mem_homes hhome).key_mem hdefines
  obtain ⟨y, hy, -, hhome', hdefines', hleads⟩ := h.in_progress x.key hkey hidle
  obtain ⟨hname, hspan⟩ := Prod.ext_iff.mp hy
  simp only [Definition.key] at hname hspan
  rw [hname] at hdefines'
  obtain ⟨hhomes, hvalues⟩ := hstart.home_unique hkeys hhome' hhome hdefines' hdefines hspan
  have hsame : y = x := by
    cases x
    cases y
    simp_all
  exact hsame ▸ hleads x hx

end Underway

theorem blame_error {α : Type} {span : Span} {e : Except Cause α} {fault : Fault}
    (h : blame span e = .error fault) : e = .error fault.cause := by
  cases e with
  | error =>
      cases h
      rfl
  | ok => cases h

/-- Once variables are replaced, no variable can be refused any more. -/
theorem Scope.substitute_error_of_evaluate_error {idle : List DefinitionKey} {s : Scope} {raw : Raw}
    {fault : Fault} (h : s.evaluate idle raw = .error fault) (hcause : ¬ fault.cause.IsComputing) :
    ∃ x, s.Uses raw x ∧
      x.evaluate idle raw.span = .error fault := by
  rw [evaluate_eq] at h
  rcases bind_eq_error h with h | ⟨tokens, -, h⟩
  · obtain ⟨name, hname, hfault⟩ := Token.replacement_error_of_substituteAll h
    cases hmeaning : s.meaning? name with
    | none =>
        rw [replacement, hmeaning] at hfault
        cases hfault
    | some found =>
        cases found with
        | evaluated t =>
            rw [replacement, hmeaning] at hfault
            cases hfault
        | raw value home =>
            have huses : s.Uses raw ⟨name, value, home⟩ := ⟨hname, hmeaning⟩
            rw [replacement_of_uses huses] at hfault
            refine ⟨_, huses, ?_⟩
            cases hvalue : Definition.evaluate idle ⟨name, value, home⟩ raw.span with
            | ok t =>
                rw [hvalue] at hfault
                cases hfault
            | error f =>
                rw [hvalue] at hfault
                cases hfault
                rfl
  · rcases bind_eq_error h with h | ⟨v, -, h⟩
    · exact (hcause (Token.value_computes tokens _ (blame_error h))).elim
    · cases h

/-- The variable of the fault is in a cycle that is reached from the value. -/
theorem Underway.cyclic_of_evaluate_error {d : Document} (hkeys : d.keys.Nodup) {start s : Scope}
    (hstart : d.HasScope start) {idle : List DefinitionKey} {raw₀ raw : Raw} {name : Text}
    {span : Span} (hway : Underway d.keys idle start raw₀ s raw)
    (h : s.evaluate idle raw = .error ⟨.variableCycle name, span⟩) :
    ∃ x, x.name = name ∧ start.Reaches raw₀ x ∧ x.Cyclic := by
  obtain ⟨x, hx, hfault⟩ :=
    Scope.substitute_error_of_evaluate_error h fun hcause => hcause.ne_recursion rfl
  by_cases hidle : x.key ∈ idle
  · rw [Definition.evaluate_of_mem hidle] at hfault
    have := length_filter_ne_lt hidle
    exact cyclic_of_evaluate_error hkeys hstart (hway.step hx) hfault
  · rw [Definition.evaluate_of_notMem hidle] at hfault
    cases hfault
    exact ⟨x, rfl, hway.reaches hx, hway.cyclic_of_not_idle hkeys hstart hx hidle⟩
termination_by idle.length

/-- Evaluation fails for nothing but operands, arguments and variables that are cyclic. -/
theorem Scope.variableCycle_of_evaluate_error {idle : List DefinitionKey} {s : Scope} {raw : Raw}
    {fault : Fault} (h : s.evaluate idle raw = .error fault) (hcause : ¬ fault.cause.IsComputing) :
    ∃ name, fault.cause = .variableCycle name := by
  obtain ⟨x, hx, hfault⟩ := substitute_error_of_evaluate_error h hcause
  by_cases hidle : x.key ∈ idle
  · rw [Definition.evaluate_of_mem hidle] at hfault
    have := length_filter_ne_lt hidle
    exact variableCycle_of_evaluate_error hfault hcause
  · rw [Definition.evaluate_of_notMem hidle] at hfault
    cases hfault
    exact ⟨x.name, rfl⟩
termination_by idle.length

/-! ## The stack of an evaluation -/

/-- The definitions of a document that are not in progress. -/
def Document.idleAt (d : Document) (now : Moment) : List DefinitionKey :=
  d.keys.filter (· ∉ now.resolving)

/-- The moment at which a definition is begun. -/
def Moment.resolve (now : Moment) (key : DefinitionKey) : Moment :=
  { now with resolving := key :: now.resolving }

theorem Moment.Sound.resolve {limit : Nat} {now : Moment} (h : now.Sound limit)
    {key : DefinitionKey} (hkey : key ∉ now.resolving) : (now.resolve key).Sound limit :=
  ⟨List.nodup_cons.mpr ⟨hkey, h.nodup⟩, h.depth_le⟩

theorem Document.mem_idleAt {d : Document} {now : Moment} {key : DefinitionKey}
    (hkey : key ∈ d.keys) : key ∈ d.idleAt now ↔ key ∉ now.resolving := by
  rw [idleAt, List.mem_filter, decide_eq_true_iff]
  exact and_iff_right hkey

theorem Document.idleAt_resolve (d : Document) (now : Moment) (key : DefinitionKey) :
    d.idleAt (now.resolve key) = (d.idleAt now).filter (· ≠ key) := by
  rw [idleAt, idleAt, List.filter_filter]
  refine List.filter_congr fun other _ => ?_
  simp [Moment.resolve]

namespace Running

variable {limit : Nat} {d : Document} {s : Scope} {now : Moment} {used : Span}

theorem runDefinition_follows {x : Definition} (hnow : now.Sound limit) (hkey : x.key ∈ d.keys)
    (hvalue : x.key ∉ now.resolving →
      Follows limit (now.resolve x.key)
        (Gives (x.home.evaluate (d.idleAt (now.resolve x.key)) x.value))
        (x.home.runValue x.value)
        (liftM (x.home.evaluate (d.idleAt (now.resolve x.key)) x.value))) :
    Follows limit now (Gives (x.evaluate (d.idleAt now) used))
      (Scope.runDefinition x.home x.name x.value used)
      (liftM (x.evaluate (d.idleAt now) used)) := by
  by_cases hmem : x.key ∈ now.resolving
  · rw [Definition.evaluate_of_notMem fun h => (Document.mem_idleAt hkey).mp h hmem]
    rintro r rfl
    exact ⟨r, [], (Scope.runDefinition.eq_1 ..).trans (if_pos hmem), rfl, rfl, fun _ => .inl, rfl,
      rfl, rfl⟩
  · rw [Definition.evaluate_of_mem ((Document.mem_idleAt hkey).mpr hmem), ← Document.idleAt_resolve]
    refine .begun Run.pop (hnow.resolve hmem) (hvalue hmem) ?_ ?_
    · intro r' hr'
      rw [Run.pop, hr']
      rfl
    · rintro r rfl
      exact (Scope.runDefinition.eq_1 ..).trans (if_neg hmem)

/-- Given that the definitions used by the tokens can be evaluated. -/
theorem runTokens_follows {idle : List DefinitionKey}
    (hdefinition : ∀ x : Definition, s.meaning? x.name = some (.raw x.value x.home) →
      Follows limit now (Gives (x.evaluate idle used))
        (Scope.runDefinition x.home x.name x.value used)
        (liftM (x.evaluate idle used))) :
    ∀ tokens, Follows limit now (Gives (Token.substituteAll (s.replacement idle used) tokens))
      (s.runTokens used tokens) (liftM (Token.substituteAll (s.replacement idle used) tokens))
  | [] => by
      rw [Scope.runTokens]
      exact .gives_ok _
  | .reference name :: rest => by
      rw [Scope.runTokens, Token.substituteAll, Token.substitute, Scope.replacement]
      have hrest (first : List Token) := (runTokens_follows hdefinition rest).gives_bind
        fun others _ => Follows.gives_ok (first ++ others)
      cases hmeaning : s.meaning? name with
      | none => exact hrest _
      | some found =>
          cases found with
          | evaluated t => exact hrest _
          | raw value home =>
              have hmap {e : Except Fault Text} {f : List Token → Except Fault (List Token)} :
                  e.map Token.ofText >>= f = e >>= fun t => f (Token.ofText t) := by
                cases e <;> rfl
              simp only [hmap, pure_bind]
              exact (hdefinition ⟨name, value, home⟩ hmeaning).gives_bind fun t _ => hrest _
  | .call name arguments :: rest => by
      rw [Scope.runTokens, Token.substituteAll, Token.substitute]
      simp only [bind_assoc, pure_bind, List.singleton_append]
      refine (runTokens_follows hdefinition arguments).gives_bind fun inside _ => ?_
      exact (runTokens_follows hdefinition rest).gives_bind fun others _ => .gives_ok _
  | .group inside :: rest => by
      rw [Scope.runTokens, Token.substituteAll, Token.substitute]
      simp only [bind_assoc, pure_bind, List.singleton_append]
      refine (runTokens_follows hdefinition inside).gives_bind fun inside _ => ?_
      exact (runTokens_follows hdefinition rest).gives_bind fun others _ => .gives_ok _
  | .space :: rest | .comma _ :: rest | .operator _ :: rest | .word _ :: rest => by
      rw [Scope.runTokens, Token.substituteAll, Token.substitute]
      · exact (runTokens_follows hdefinition rest).gives_bind fun others _ => .gives_ok _
      all_goals
        intros
        contradiction

/-- From any stack without repetitions, evaluating a value ends, gives what the
evaluation with the other definitions idle gives, and leaves the stack as it was. -/
theorem runValue_follows {s : Scope} {now : Moment} (hscope : d.HasScope s) (hnow : now.Sound limit)
    (raw : Raw) :
    Follows limit now (Gives (s.evaluate (d.idleAt now) raw)) (s.runValue raw)
      (liftM (s.evaluate (d.idleAt now) raw)) := by
  rw [Scope.runValue, Scope.evaluate_eq]
  refine (runTokens_follows (fun x hx => ?_) _).gives_bind fun tokens _ => ?_
  · obtain ⟨hhome, hkey⟩ := hscope.of_meaning? hx
    refine runDefinition_follows hnow hkey fun hnotin => ?_
    have : (d.idleAt (now.resolve x.key)).length < (d.idleAt now).length := by
      rw [Document.idleAt_resolve]
      exact length_filter_ne_lt ((Document.mem_idleAt hkey).mpr hnotin)
    exact runValue_follows hhome (hnow.resolve hnotin) x.value
  · exact (Follows.lift _).gives_bind fun v _ => .gives_ok _
termination_by (d.idleAt now).length

end Running

/-! ## The check -/

theorem Document.idleAt_of_resolving_nil (d : Document) {now : Moment} (h : now.resolving = []) :
    d.idleAt now = d.keys := by
  rw [idleAt, h]
  exact List.filter_eq_self.mpr fun _ _ => rfl

/-- What the check for variables that lead back to themselves comes to, for a value
in a scope of a document. -/
structure CycleCheck (d : Document) (s : Scope) (raw : Raw) : Prop where
  /-- Every evaluation ends and leaves the stack as it was, also when it fails, and
  no definition is on the stack twice while it goes on. -/
  stack : ∀ r : Run, r.now.resolving.Nodup → ∃ r',
    (s.runValue raw).run.run r = some (s.evaluate (d.idleAt r.now) raw, r') ∧ r'.now = r.now ∧
      ∀ moment ∈ r'.history, moment ∈ r.history ∨ moment.resolving.Nodup
  /-- A variable that is refused is in a cycle that the value leads to. -/
  cyclic : ∀ (r r' : Run) (name : Text) (span : Span), r.now.resolving = [] →
    (s.runValue raw).run.run r = some (.error ⟨.variableCycle name, span⟩, r') →
    ∃ x, x.name = name ∧ s.Reaches raw x ∧ x.Cyclic
  /-- A value that leads to a cycle has no result. -/
  no_value : ∀ x, s.Reaches raw x → x.Cyclic → ∀ (r r' : Run) (t : Text), r.now.resolving.Nodup →
    (s.runValue raw).run.run r ≠ some (.ok t, r')

theorem StyleSheet.cycleCheck {options : Options} {path : Path} {text : Text} {d : Document}
    (hread : (readState options path text).1 = .ok d) {s : Scope} (hscope : d.HasScope s)
    (raw : Raw) : CycleCheck d s raw := by
  have stack (r : Run) (hr : r.now.resolving.Nodup) : ∃ r',
      (s.runValue raw).run.run r = some (s.evaluate (d.idleAt r.now) raw, r') ∧ r'.now = r.now ∧
        ∀ moment ∈ r'.history, moment ∈ r.history ∨ moment.resolving.Nodup := by
    obtain ⟨r', _, hrun, hnow, -, hhistory, -, hgives, -⟩ :=
      Running.runValue_follows hscope ⟨hr, Nat.le_refl _⟩ raw r rfl
    rw [hgives] at hrun
    exact ⟨r', hrun, hnow, fun moment hmoment => (hhistory moment hmoment).imp_right (·.nodup)⟩
  refine ⟨stack, fun r r' name span hr hrun => ?_, fun x hx hcyclic r r' t hr hrun => ?_⟩
  · obtain ⟨_, hrun', -⟩ := stack r (hr ▸ .nil)
    rw [hrun, d.idleAt_of_resolving_nil hr] at hrun'
    have hfault := (Prod.ext_iff.mp (Option.some.inj hrun')).1.symm
    refine Underway.cyclic_of_evaluate_error (Document.keys_nodup_of_read hread) hscope ?_ hfault
    exact ⟨List.Subset.refl _, fun hx => ⟨_, hx, .refl⟩, fun key hkey hnotin => (hnotin hkey).elim⟩
  · obtain ⟨_, hrun', -⟩ := stack r hr
    rw [hrun] at hrun'
    have hok := (Prod.ext_iff.mp (Option.some.inj hrun')).1.symm
    exact Scope.not_cyclic_of_evaluate_ok hok hx hcyclic

/-- Two variables that are defined in terms of each other. -/
theorem StyleSheet.cycleCheck_mutual :
    ∃ d, (readState {} ⟨"a.less"⟩ "@a: 1px @b;\n@b: (@a * 2);\n").1 = .ok d ∧
      d.HasScope (.ofBlock d.block) ∧
      (Scope.ofBlock d.block).evaluate d.keys ⟨"@b", ⟨0, 0, 2⟩⟩ =
        .error ⟨.variableCycle "b", ⟨0, 3, 10⟩⟩ ∧
      CycleCheck d (.ofBlock d.block) ⟨"@b", ⟨0, 0, 2⟩⟩ := by
  have hrefused :
      (readState {} ⟨"a.less"⟩ "@a: 1px @b;\n@b: (@a * 2);\n").1.toOption.any (fun d =>
        (Scope.ofBlock d.block).evaluate d.keys ⟨"@b", ⟨0, 0, 2⟩⟩ =
          .error ⟨.variableCycle "b", ⟨0, 3, 10⟩⟩) = true := by
    decide +kernel
  cases hread : (readState {} ⟨"a.less"⟩ "@a: 1px @b;\n@b: (@a * 2);\n").1 with
  | error fault =>
      rw [hread] at hrefused
      cases hrefused
  | ok d =>
      rw [hread] at hrefused
      exact ⟨d, rfl, .root, of_decide_eq_true hrefused, cycleCheck hread .root _⟩

end Cascade
