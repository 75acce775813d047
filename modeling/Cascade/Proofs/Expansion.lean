import Cascade.Proofs.Depth

/-!
# What a block expands to

Writing a style sheet warns on the way and keeps all it has written, but what a block
expands to depends on neither. `Scope.expand` is the same expansion as a function of
the scope alone, and `Drafting.Settles` ties the two: a drafting settles for an outcome
if it comes to it from any draft and writes nothing.

The number of calls that may still be nested does not show in an expansion either, as
long as it is not what the expansion fails for (`Scope.expand_deepens`), and neither
does which definitions of other documents are idle (`Document.HasScope.expand_congr`).
-/

namespace Cascade

/-! ## Draftings that only warn -/

/-- From any draft the outcome is the same, and nothing is written. -/
def Drafting.Settles {α : Type} (m : Drafting α) (e : Except Fault α) : Prop :=
  ∀ d : Draft, ∃ warnings, m.run.run d = (e, { d with warnings })

namespace Drafting.Settles

variable {α β γ : Type} {m : Drafting α} {e : Except Fault α}

theorem outcome (h : m.Settles e) (d : Draft) : (m.run.run d).1 = e := by
  obtain ⟨warnings, h⟩ := h d
  rw [h]

theorem pure (a : α) : Settles (Pure.pure a) (.ok a) := fun d => ⟨d.warnings, rfl⟩

theorem throw (fault : Fault) : Settles (MonadExcept.throw fault : Drafting α) (.error fault) :=
  fun d => ⟨d.warnings, rfl⟩

theorem lift (e : Except Fault α) : Settles (liftM e) e := by
  cases e with
  | error fault => exact .throw fault
  | ok a => exact .pure a

theorem warn (span : Span) (w : Warning) : Settles (Drafting.warn span w) (.ok ⟨⟩) :=
  fun d => ⟨d.warnings.add span w, rfl⟩

theorem bind {f : α → Drafting β} {g : α → Except Fault β} (h : m.Settles e)
    (hf : ∀ a, e = .ok a → (f a).Settles (g a)) : (m >>= f).Settles (e >>= g) := by
  intro d
  obtain ⟨warnings, hm⟩ := h d
  cases e with
  | error fault => exact ⟨warnings, run_bind_error hm⟩
  | ok a =>
      obtain ⟨warnings', hf⟩ := hf a rfl { d with warnings }
      exact ⟨warnings', (run_bind_ok hm).trans hf⟩

theorem mapM {f : γ → Drafting β} {g : γ → Except Fault β} :
    ∀ {l : List γ}, (∀ a ∈ l, (f a).Settles (g a)) → (l.mapM f).Settles (l.mapM g)
  | [], _ => .pure []
  | a :: rest, h => by
      rw [List.mapM_cons, List.mapM_cons]
      have hrest := Settles.mapM fun a ha => h a (List.mem_cons_of_mem _ ha)
      exact (h a (List.mem_cons_self ..)).bind fun b _ => hrest.bind fun bs _ => .pure (b :: bs)

end Drafting.Settles

/-! ## Blocks and calls -/

/-- The declarations of a block in its scope, with at most `depth` mixin calls inside
each other. A call of an unknown mixin stands for nothing. -/
def Scope.expand (idle : List DefinitionKey) (depth : Nat) (s : Scope) (b : Block) :
    Except Fault (List Css.Declaration) := do
  let expanded ← b.declarations.mapM fun
    | .property p => do return [⟨p.name, ← s.evaluate idle p.value⟩]
    | .call c =>
      match s.mixin? c.name with
      | none => return []
      | some (rule, home) =>
        match depth with
        | 0 => .error ⟨.mixinsTooDeep c.name mixinLimit, c.span⟩
        | depth + 1 => do
          let bindings ← c.bindings idle rule s
          Scope.expand idle depth (home.ofCall rule.block bindings) rule.block
  return expanded.flatten

namespace Scope

variable {idle : List DefinitionKey}

/-- The declarations that a call stands for. -/
def callExpansion (idle : List DefinitionKey) (depth : Nat) (s : Scope) (c : MixinCall) :
    Except Fault (List Css.Declaration) :=
  match s.mixin? c.name with
  | none => .ok []
  | some (rule, home) =>
    match depth with
    | 0 => .error ⟨.mixinsTooDeep c.name mixinLimit, c.span⟩
    | depth + 1 => do
      let bindings ← c.bindings idle rule s
      expand idle depth (home.ofCall rule.block bindings) rule.block

/-- The declarations that one declaration of a block stands for. -/
def expansion (idle : List DefinitionKey) (depth : Nat) (s : Scope) :
    Declaration → Except Fault (List Css.Declaration)
  | .property p => do return [⟨p.name, ← s.evaluate idle p.value⟩]
  | .call c => s.callExpansion idle depth c

theorem expand_eq (idle : List DefinitionKey) (depth : Nat) (s : Scope) (b : Block) :
    s.expand idle depth b = do
      let expanded ← b.declarations.mapM (s.expansion idle depth)
      return expanded.flatten := by
  rw [expand]
  rfl

theorem expandCall_settles_of {depth : Nat} {s : Scope} {c : MixinCall}
    (hbody : ∀ j t b, depth = j + 1 → (declarations idle j t b).Settles (expand idle j t b)) :
    (s.expandCall idle depth c).Settles (s.callExpansion idle depth c) := by
  unfold expandCall callExpansion
  cases s.mixin? c.name with
  | none => exact (Drafting.Settles.warn _ _).bind fun _ _ => .pure []
  | some found =>
      cases depth with
      | zero => exact .throw _
      | succ j => exact (Drafting.Settles.lift _).bind fun bindings _ => hbody j _ _ rfl

theorem declarations_settles (idle : List DefinitionKey) (depth : Nat) (s : Scope) (b : Block) :
    (s.declarations idle depth b).Settles (s.expand idle depth b) := by
  rw [declarations_eq, expand_eq]
  refine (Drafting.Settles.mapM fun declaration _ => ?_).bind fun expanded _ => .pure _
  cases declaration with
  | property p => exact (Drafting.Settles.lift _).bind fun t _ => .pure _
  | call c =>
      refine expandCall_settles_of fun j t b h => ?_
      subst h
      exact declarations_settles idle j t b

theorem expandCall_settles (depth : Nat) (s : Scope) (c : MixinCall) :
    (s.expandCall idle depth c).Settles (s.callExpansion idle depth c) :=
  expandCall_settles_of fun j t b _ => declarations_settles idle j t b

end Scope

/-! ## How deep calls may be nested -/

/-- The limit on nested calls has been met. -/
def Cause.IsTooDeep (cause : Cause) : Prop := ∃ mixin limit, cause = .mixinsTooDeep mixin limit

/-- The first outcome fails for the limit on nested calls, or the second is the same. -/
def Deepens {α : Type} (e e' : Except Fault α) : Prop :=
  (∀ fault, e = .error fault → ¬fault.cause.IsTooDeep) → e' = e

namespace Deepens

variable {α β γ : Type} {e e' : Except Fault α}

theorem refl (e : Except Fault α) : Deepens e e := fun _ => rfl

theorem bind {f f' : α → Except Fault β} (h : Deepens e e') (hf : ∀ a, Deepens (f a) (f' a)) :
    Deepens (e >>= f) (e' >>= f') := by
  intro hlimit
  cases e with
  | error fault =>
      rw [h fun other heq => hlimit other (congrArg (· >>= f) heq)]
      rfl
  | ok a =>
      rw [h fun other heq => nomatch heq]
      exact hf a hlimit

theorem mapM {f f' : γ → Except Fault β} (h : ∀ a, Deepens (f a) (f' a)) :
    ∀ l : List γ, Deepens (l.mapM f) (l.mapM f')
  | [] => refl _
  | a :: rest => by
      rw [List.mapM_cons, List.mapM_cons]
      exact (h a).bind fun b => (Deepens.mapM h rest).bind fun bs => refl _

end Deepens

namespace Scope

variable {idle : List DefinitionKey}

theorem callExpansion_deepens_of {depth depth' : Nat} (hle : depth ≤ depth') {s : Scope}
    {c : MixinCall}
    (hbody : ∀ j j' t b, depth = j + 1 → j ≤ j' →
      Deepens (expand idle j t b) (expand idle j' t b)) :
    Deepens (s.callExpansion idle depth c) (s.callExpansion idle depth' c) := by
  unfold callExpansion
  cases s.mixin? c.name with
  | none => exact .refl _
  | some found =>
      cases depth with
      | zero => exact fun hlimit => (hlimit _ rfl ⟨_, _, rfl⟩).elim
      | succ j =>
          cases depth' with
          | zero => omega
          | succ j' =>
              exact (Deepens.refl _).bind fun bindings =>
                hbody j j' _ _ rfl (Nat.le_of_succ_le_succ hle)

/-- With more calls allowed inside each other, an expansion is the same as long as it
has not failed for the limit. -/
theorem expand_deepens {depth depth' : Nat} (hle : depth ≤ depth') (s : Scope) (b : Block) :
    Deepens (s.expand idle depth b) (s.expand idle depth' b) := by
  rw [expand_eq, expand_eq]
  refine (Deepens.mapM (fun declaration => ?_) _).bind fun _ => .refl _
  cases declaration with
  | property p => exact .refl _
  | call c =>
      refine callExpansion_deepens_of hle fun j j' t b h hbody => ?_
      subst h
      exact expand_deepens hbody t b

theorem callExpansion_deepens {depth depth' : Nat} (hle : depth ≤ depth') (s : Scope)
    (c : MixinCall) : Deepens (s.callExpansion idle depth c) (s.callExpansion idle depth' c) :=
  callExpansion_deepens_of hle fun _ _ t b _ hle => expand_deepens hle t b

end Scope

/-! ## Which definitions are idle -/

/-- The same definitions of the document are idle. -/
def Document.IdleAlike (e : Document) (idle idle' : List DefinitionKey) : Prop :=
  ∀ key ∈ e.keys, key ∈ idle ↔ key ∈ idle'

theorem Document.IdleAlike.without {e : Document} {idle idle' : List DefinitionKey}
    (h : e.IdleAlike idle idle') (key : DefinitionKey) :
    e.IdleAlike (idle.filter (· ≠ key)) (idle'.filter (· ≠ key)) := by
  intro other hother
  rw [List.mem_filter, List.mem_filter, h other hother]

namespace Document.HasScope

variable {e : Document} {s : Scope} {idle idle' : List DefinitionKey}

/-- A value in a document does not ask for definitions of any other document. -/
theorem evaluate_congr {s : Scope} (hs : e.HasScope s) {idle idle' : List DefinitionKey}
    (h : e.IdleAlike idle idle') (raw : Raw) : s.evaluate idle raw = s.evaluate idle' raw := by
  rw [Scope.evaluate_eq, Scope.evaluate_eq]
  suffices hreplacement : s.replacement idle raw.span = s.replacement idle' raw.span by
    rw [hreplacement]
  funext name
  unfold Scope.replacement
  cases hmeaning : s.meaning? name with
  | none => rfl
  | some found =>
      cases found with
      | evaluated t => rfl
      | raw value home =>
          obtain ⟨hhome, hkey⟩ := hs.of_meaning? hmeaning
          simp only
          by_cases hidle : (⟨name, value, home⟩ : Definition).key ∈ idle
          · have := length_filter_ne_lt hidle
            rw [Definition.evaluate_of_mem hidle, Definition.evaluate_of_mem ((h _ hkey).mp hidle),
              evaluate_congr hhome (h.without _) value]
          · rw [Definition.evaluate_of_notMem hidle,
              Definition.evaluate_of_notMem fun hidle' => hidle ((h _ hkey).mpr hidle')]
termination_by idle.length

theorem bindings_congr (hs : e.HasScope s) (h : e.IdleAlike idle idle') (c : MixinCall)
    (rule : Rule) : c.bindings idle rule s = c.bindings idle' rule s := by
  unfold MixinCall.bindings MixinCall.bind
  simp only [hs.evaluate_congr h]

theorem expand_congr {depth : Nat} {s : Scope} (hs : e.HasScope s) (h : e.IdleAlike idle idle') :
    ∀ b : Block, s.expand idle depth b = s.expand idle' depth b := by
  intro b
  rw [Scope.expand_eq, Scope.expand_eq]
  suffices hexpansion : s.expansion idle depth = s.expansion idle' depth by rw [hexpansion]
  funext declaration
  cases declaration with
  | property p => rw [Scope.expansion, Scope.expansion, hs.evaluate_congr h]
  | call c =>
      rw [Scope.expansion, Scope.expansion]
      unfold Scope.callExpansion
      cases hmixin : s.mixin? c.name with
      | none => rfl
      | some found =>
          cases depth with
          | zero => rfl
          | succ j =>
              simp only
              rw [hs.bindings_congr h]
              cases hbindings : c.bindings idle' found.1 s with
              | error fault => rfl
              | ok bindings =>
                  exact expand_congr (hs.of_mixin? hmixin (MixinCall.bindings_fit hbindings)) h _

end Document.HasScope

end Cascade
