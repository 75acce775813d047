import Cascade.Proofs.Closure
import Cascade.Proofs.Outcomes
import Cascade.Proofs.Retabling

/-!
# Scopes in which the same comes out

What a value comes to depends on its scope only through what its names mean there. So if
two scopes are related, and the names in a value mean the same in both, with homes that
are related again, then the value comes to the same in both (`Simulation.evaluate_eq`).
Which definitions are in progress matters as far as they can be asked for.

A block expands to the same in two scopes if all that its declarations ask for comes to
the same, down to the bodies of the mixins that are called
(`BodySimulation.declarations_eq`).
-/

namespace Cascade

/-! ## Substitution -/

namespace Token

variable {replacement replacement' : Text → Except Fault (List Token)}

mutual

/-- Substitution asks for nothing but the names in the tokens. -/
theorem substitute_congr : ∀ token : Token,
    (∀ name ∈ token.references, replacement name = replacement' name) →
      token.substitute replacement = token.substitute replacement'
  | .reference name, h => h name (List.mem_singleton.mpr rfl)
  | .call name arguments, h => by
      rw [substitute, substitute, substituteAll_congr arguments h]
  | .group inside, h => by
      rw [substitute, substitute, substituteAll_congr inside h]
  | .space, _ | .comma _, _ | .operator _, _ | .word _, _ => rfl

theorem substituteAll_congr : ∀ tokens : List Token,
    (∀ name ∈ allReferences tokens, replacement name = replacement' name) →
      substituteAll replacement tokens = substituteAll replacement' tokens
  | [], _ => rfl
  | token :: rest, h => by
      rw [substituteAll, substituteAll,
        substitute_congr token fun name hname => h name (List.mem_append_left _ hname),
        substituteAll_congr rest fun name hname => h name (List.mem_append_right _ hname)]

end

end Token

/-! ## Values -/

/-- Neither name means anything, or both the same text, or both the same value, with homes
that are related. -/
inductive MeaningAlike (rel : Raw → Scope → Scope → Prop) : Option Meaning → Option Meaning → Prop
  | unknown : MeaningAlike rel none none
  | evaluated (t : Text) : MeaningAlike rel (some (.evaluated t)) (some (.evaluated t))
  | raw {value : Raw} {home home' : Scope} : rel value home home' →
      MeaningAlike rel (some (.raw value home)) (some (.raw value home'))

theorem MeaningAlike.imp {rel rel' : Raw → Scope → Scope → Prop} {found found' : Option Meaning}
    (h : MeaningAlike rel found found') (himp : ∀ value home home',
      found = some (.raw value home) → rel value home home' → rel' value home home') :
    MeaningAlike rel' found found' := by
  cases h with
  | unknown => exact .unknown
  | evaluated t => exact .evaluated t
  | raw hrel => exact .raw (himp _ _ _ rfl hrel)

/-- Of the keys that can be asked for the same are idle. -/
def IdleAmong (asked : DefinitionKey → Prop) (idle idle' : List DefinitionKey) : Prop :=
  ∀ key, asked key → (key ∈ idle ↔ key ∈ idle')

theorem IdleAmong.without {asked : DefinitionKey → Prop} {idle idle' : List DefinitionKey}
    (h : IdleAmong asked idle idle') (key : DefinitionKey) :
    IdleAmong asked (idle.filter (· ≠ key)) (idle'.filter (· ≠ key)) := by
  intro other hother
  rw [List.mem_filter, List.mem_filter, h other hother]

/-- Both documents have a definition with the key. -/
def Document.BothHave (d d' : Document) (key : DefinitionKey) : Prop :=
  key ∈ d.keys ∧ key ∈ d'.keys

/-- A relation between the scopes of a value that goes on to whatever the value refers
to, with keys that can be asked for. -/
def Simulation (asked : DefinitionKey → Prop) (rel : Raw → Scope → Scope → Prop) : Prop :=
  ∀ {raw : Raw} {s s' : Scope}, rel raw s s' → ∀ name ∈ raw.references,
    MeaningAlike (fun value home home' => asked (name, value.span) ∧ rel value home home')
      (s.meaning? name) (s'.meaning? name)

/-- Two definitions of a value come to the same if the value does, once they are in progress. -/
theorem Definition.evaluate_congr {idle idle' : List DefinitionKey} {x x' : Definition}
    {used : Span} (hname : x.name = x'.name) (hkey : x.key ∈ idle ↔ x'.key ∈ idle')
    (h : x.key ∈ idle → x.home.evaluate (idle.filter (· ≠ x.key)) x.value =
      x'.home.evaluate (idle'.filter (· ≠ x'.key)) x'.value) :
    x.evaluate idle used = x'.evaluate idle' used := by
  by_cases hidle : x.key ∈ idle
  · rw [evaluate_of_mem hidle, evaluate_of_mem (hkey.mp hidle), h hidle]
  · rw [evaluate_of_notMem hidle, evaluate_of_notMem (mt hkey.mpr hidle), hname]

theorem MeaningAlike.replacement_eq {rel : Raw → Scope → Scope → Prop}
    {idle idle' : List DefinitionKey} {s s' : Scope} {used : Span} {name : Text}
    (h : MeaningAlike rel (s.meaning? name) (s'.meaning? name))
    (hraw : ∀ value home home', rel value home home' →
      Definition.evaluate idle ⟨name, value, home⟩ used =
        Definition.evaluate idle' ⟨name, value, home'⟩ used) :
    s.replacement idle used name = s'.replacement idle' used name := by
  unfold Scope.replacement
  generalize s.meaning? name = found at h
  generalize s'.meaning? name = found' at h
  cases h with
  | unknown | evaluated t => rfl
  | raw hrel => simp only [hraw _ _ _ hrel]

theorem Simulation.evaluate_eq {asked : DefinitionKey → Prop} {rel : Raw → Scope → Scope → Prop}
    (hsim : Simulation asked rel) {idle idle' : List DefinitionKey}
    (hidle : IdleAmong asked idle idle') {raw : Raw} {s s' : Scope} (h : rel raw s s') :
    s.evaluate idle raw = s'.evaluate idle' raw := by
  rw [Scope.evaluate_eq, Scope.evaluate_eq]
  suffices hreplacement : ∀ name ∈ raw.references,
      s.replacement idle raw.span name = s'.replacement idle' raw.span name by
    rw [Token.substituteAll_congr _ hreplacement]
  intro name hname
  refine (hsim h name hname).replacement_eq ?_
  rintro value home home' ⟨hasked, hhome⟩
  refine Definition.evaluate_congr rfl (hidle _ hasked) fun hkey => ?_
  have := length_filter_ne_lt hkey
  exact hsim.evaluate_eq (hidle.without (name, value.span)) hhome
termination_by idle.length

/-! ## Blocks -/

/-- Neither call expands anything, or the two expand rules with the same bindings, whose
bodies are related. -/
def CallAlike (idle idle' : List DefinitionKey) (rel : Scope → Scope → Prop) (c : MixinCall)
    (s s' : Scope) : Prop :=
  (s.mixin? c.name = none ∧ s'.mixin? c.name = none) ∨
    ∃ rule home rule' home', s.mixin? c.name = some (rule, home) ∧
      s'.mixin? c.name = some (rule', home') ∧
      c.bindings idle rule s = c.bindings idle' rule' s' ∧
      ∀ bindings, c.bindings idle rule s = .ok bindings →
        rel (home.ofCall rule.block bindings) (home'.ofCall rule'.block bindings)

/-- A relation between scopes in which the values of the innermost block come to the same,
and which goes on to the bodies of the mixins that are called. -/
structure BodySimulation (idle idle' : List DefinitionKey) (rel : Scope → Scope → Prop) :
    Prop where
  declarations : ∀ {s s'}, rel s s' → s.body.declarations = s'.body.declarations
  property : ∀ {s s' p}, rel s s' → Declaration.property p ∈ s.body.declarations →
    s.evaluate idle p.value = s'.evaluate idle' p.value
  call : ∀ {s s' c}, rel s s' → Declaration.call c ∈ s.body.declarations →
    CallAlike idle idle' rel c s s'

theorem Drafting.lift_bind_congr {α β : Type} {e : Except Fault α} {f f' : α → Drafting β}
    (h : ∀ a, e = .ok a → f a = f' a) :
    (liftM e >>= f : Drafting β) = liftM e >>= f' := by
  cases e with
  | error fault => rfl
  | ok a => exact h a rfl

namespace BodySimulation

variable {idle idle' : List DefinitionKey} {rel : Scope → Scope → Prop}

/-- A block comes to the same if its calls do. -/
theorem declarations_eq_of (hsim : BodySimulation idle idle' rel) {depth : Nat} {s s' : Scope}
    (h : rel s s') (hcalls : ∀ c, Declaration.call c ∈ s.body.declarations →
      s.expandCall idle depth c = s'.expandCall idle' depth c) :
    s.declarations idle depth s.body = s'.declarations idle' depth s'.body := by
  rw [Scope.declarations_eq, Scope.declarations_eq, ← hsim.declarations h]
  refine congrArg (· >>= fun expanded => pure (List.flatten expanded)) ?_
  refine mapM_congr fun declaration hmem => ?_
  cases declaration with
  | property p => simp only [hsim.property h hmem]
  | call c => exact hcalls c hmem

theorem expandCall_eq (hsim : BodySimulation idle idle' rel) : ∀ (depth : Nat) {s s' : Scope}
    {c : MixinCall}, rel s s' → Declaration.call c ∈ s.body.declarations →
      s.expandCall idle depth c = s'.expandCall idle' depth c
  | depth, s, s', c, h, hmem => by
      unfold Scope.expandCall
      obtain ⟨hnone, hnone'⟩ | ⟨rule, home, rule', home', hrule, hrule', hbindings, hbody⟩ :=
        hsim.call h hmem
      · rw [hnone, hnone']
      · rw [hrule, hrule']
        cases depth with
        | zero => rfl
        | succ depth =>
            simp only [← hbindings]
            refine Drafting.lift_bind_congr fun bindings hbound => ?_
            exact hsim.declarations_eq_of (hbody bindings hbound) fun c =>
              hsim.expandCall_eq depth (hbody bindings hbound)

theorem declarations_eq (hsim : BodySimulation idle idle' rel) (depth : Nat) {s s' : Scope}
    (h : rel s s') : s.declarations idle depth s.body = s'.declarations idle' depth s'.body :=
  hsim.declarations_eq_of h fun _ => hsim.expandCall_eq depth h

theorem expand_eq (hsim : BodySimulation idle idle' rel) (depth : Nat) {s s' : Scope}
    (h : rel s s') : s.expand idle depth s.body = s'.expand idle' depth s'.body := by
  have hsettles := s.declarations_settles idle depth s.body
  rw [hsim.declarations_eq depth h] at hsettles
  rw [← hsettles.outcome ⟨.empty, []⟩,
    (s'.declarations_settles idle' depth s'.body).outcome ⟨.empty, []⟩]

end BodySimulation

namespace MixinCall

variable {idle idle' : List DefinitionKey} {s s' : Scope} {rule rule' : Rule}

theorem bind_eq {c : MixinCall} {mixin : Text} {p : Parameter} {i : Nat}
    (h : ∀ a, c.argument? i = some a → s.evaluate idle a = s'.evaluate idle' a) :
    c.bind idle mixin s p i = c.bind idle' mixin s' p i := by
  unfold bind
  cases hargument : c.argument? i with
  | none => cases p.fallback <;> rfl
  | some a => simp only [h a hargument]

/-- Two rules with the same parameters are bound alike where the arguments come to the
same. -/
theorem bindings_eq {c : MixinCall} (hkind : rule.kind = rule'.kind)
    (hname : rule.name = rule'.name)
    (harguments : ∀ i < rule.kind.parameters.length, ∀ a, c.argument? i = some a →
      s.evaluate idle a = s'.evaluate idle' a) :
    c.bindings idle rule s = c.bindings idle' rule' s' := by
  unfold bindings
  rw [← hkind, ← hname]
  cases hparameters : rule.kind with
  | mixin parameters =>
      rw [hparameters] at harguments
      exact mapM_congr fun entry hentry => bind_eq (harguments _ (List.mem_zipIdx' hentry).1)
  | style | atRule _ | directive _ => rfl

end MixinCall

end Cascade
