import Cascade.Proofs.Expansion

/-!
# What the expansion of a call depends on

A mixin is expanded in the scope it is defined in, with its parameters bound. Of the
scope that a call stands in only the texts that its arguments come to get that far, so
two calls of one mixin expand to the same if their arguments come to the same texts,
whatever else the two scopes hold (`Scope.expandCall_closed`). The mixins that are
called from the body see the body, and not the caller.

Where the expansion fails, the fault may stand at the one call or at the other, but its
cause is the same.
-/

namespace Cascade

/-- Both give the same, or both fail from the same cause. -/
def SameCause {α : Type} (e e' : Except Fault α) : Prop :=
  e.mapError Fault.cause = e'.mapError Fault.cause

namespace SameCause

variable {α β γ : Type} {e e' : Except Fault α}

theorem refl (e : Except Fault α) : SameCause e e := rfl

theorem bind {f f' : α → Except Fault β} (h : SameCause e e') (hf : ∀ a, SameCause (f a) (f' a)) :
    SameCause (e >>= f) (e' >>= f') := by
  cases e with
  | error fault =>
      cases e' with
      | error fault' => exact congrArg Except.error (Except.error.inj h)
      | ok => cases h
  | ok a =>
      cases e' with
      | error => cases h
      | ok a' =>
          obtain rfl : a = a' := Except.ok.inj h
          exact hf a

theorem mapM {f f' : γ → Except Fault β} :
    ∀ {l : List γ}, (∀ a ∈ l, SameCause (f a) (f' a)) → SameCause (l.mapM f) (l.mapM f')
  | [], _ => refl _
  | a :: rest, h => by
      rw [List.mapM_cons, List.mapM_cons]
      have hrest := SameCause.mapM fun a ha => h a (List.mem_cons_of_mem _ ha)
      exact (h a (List.mem_cons_self ..)).bind fun b => hrest.bind fun bs => refl _

end SameCause

/-- The parameters of a rule. A style rule has none. -/
def RuleKind.parameters : RuleKind → List Parameter
  | .mixin parameters => parameters
  | .style | .atRule _ | .directive _ => []

namespace MixinCall

variable {idle : List DefinitionKey} {s s' : Scope} {c c' : MixinCall}

/-- For the parameter with the given number neither call has an argument, or both have
one and the two come to the same text, each where its call is. -/
def SameArgument (idle : List DefinitionKey) (s s' : Scope) (c c' : MixinCall) (i : Nat) : Prop :=
  (c.argument? i = none ∧ c'.argument? i = none) ∨
    ∃ a a' t, c.argument? i = some a ∧ c'.argument? i = some a' ∧
      s.evaluate idle a = .ok t ∧ s'.evaluate idle a' = .ok t

theorem bind_sameCause {mixin : Text} {p : Parameter} {i : Nat}
    (h : SameArgument idle s s' c c' i) :
    SameCause (c.bind idle mixin s p i) (c'.bind idle mixin s' p i) := by
  unfold bind
  rcases h with ⟨hnone, hnone'⟩ | ⟨a, a', t, ha, ha', ht, ht'⟩
  · rw [hnone, hnone']
    cases p.fallback <;> rfl
  · rw [ha, ha']
    simp only [ht, ht']
    rfl

theorem bindings_sameCause {rule : Rule}
    (h : ∀ i < rule.kind.parameters.length, SameArgument idle s s' c c' i) :
    SameCause (c.bindings idle rule s) (c'.bindings idle rule s') := by
  unfold bindings
  cases hkind : rule.kind with
  | mixin parameters =>
      refine SameCause.mapM fun entry hentry => bind_sameCause (h _ ?_)
      rw [hkind]
      exact (List.mem_zipIdx' hentry).1
  | style | atRule _ | directive _ => exact .refl _

end MixinCall

namespace Scope

variable {idle : List DefinitionKey} {s s' home : Scope} {c c' : MixinCall} {rule : Rule}

theorem callExpansion_sameCause (hrule : s.mixin? c.name = some (rule, home))
    (hrule' : s'.mixin? c'.name = some (rule, home))
    (harguments : ∀ i < rule.kind.parameters.length, MixinCall.SameArgument idle s s' c c' i)
    (depth : Nat) :
    SameCause (s.callExpansion idle (depth + 1) c) (s'.callExpansion idle (depth + 1) c') := by
  unfold callExpansion
  rw [hrule, hrule']
  exact (MixinCall.bindings_sameCause harguments).bind fun bindings => .refl _

/-- Two calls of one mixin in one home expand to the same declarations, or fail from
the same cause, if their arguments come to the same texts. Where they stand, what is
written or warned about before them and how deep they are nested does not matter,
unless they are nested too deep. -/
theorem expandCall_closed (hrule : s.mixin? c.name = some (rule, home))
    (hrule' : s'.mixin? c'.name = some (rule, home))
    (harguments : ∀ i < rule.kind.parameters.length, MixinCall.SameArgument idle s s' c c' i)
    {depth depth' : Nat} {draft draft' : Draft}
    (hlimit : ∀ fault, ((s.expandCall idle depth c).run.run draft).1 = .error fault →
      ¬fault.cause.IsTooDeep)
    (hlimit' : ∀ fault, ((s'.expandCall idle depth' c').run.run draft').1 = .error fault →
      ¬fault.cause.IsTooDeep) :
    SameCause ((s.expandCall idle depth c).run.run draft).1
      ((s'.expandCall idle depth' c').run.run draft').1 := by
  rw [(expandCall_settles depth s c).outcome draft] at hlimit ⊢
  rw [(expandCall_settles depth' s' c').outcome draft'] at hlimit' ⊢
  have hle : depth ≤ max depth depth' + 1 := by omega
  have hle' : depth' ≤ max depth depth' + 1 := by omega
  -- Both are what they are with the same number of calls still allowed.
  rw [← callExpansion_deepens hle s c hlimit, ← callExpansion_deepens hle' s' c' hlimit']
  exact callExpansion_sameCause hrule hrule' harguments _

/-- Two rules, each with a `@y` of its own, call a mixin that has neither in sight: one
with its variable, the other with a sum. -/
theorem expandCall_closed_default :
    ∃ (idle : List DefinitionKey) (s s' : Scope) (c c' : MixinCall) (draft : Draft),
      ((s.expandCall idle 100 c).run.run draft).1 = .ok [⟨"d", "2px 1px @y"⟩] ∧
      SameCause ((s.expandCall idle 100 c).run.run draft).1
        ((s'.expandCall idle 7 c').run.run draft).1 := by
  let m : Rule := ⟨[".m"], [".m"], .mixin [⟨"a", none⟩, ⟨"b", some ⟨"1px", ⟨0, 0, 1⟩⟩⟩], none,
    ⟨[], [], [.property ⟨"d", ⟨"@a @b @y", ⟨0, 2, 3⟩⟩⟩], []⟩, ⟨0, 0, 1⟩⟩
  let root : Scope := .ofBlock ⟨[], [], [], [m]⟩
  let s : Scope := root.nest ⟨[], [("y", ⟨"2px", ⟨0, 4, 5⟩⟩)], [], []⟩
  let s' : Scope := root.nest ⟨[], [("y", ⟨"9px", ⟨0, 6, 7⟩⟩)], [], []⟩
  let c : MixinCall := ⟨".m", [⟨"@y", ⟨0, 8, 9⟩⟩], ⟨0, 8, 9⟩⟩
  let c' : MixinCall := ⟨".m", [⟨"1px + 1", ⟨0, 10, 11⟩⟩, ⟨[], ⟨0, 10, 11⟩⟩], ⟨0, 10, 11⟩⟩
  let idle : List DefinitionKey := [("b", ⟨0, 0, 1⟩), ("y", ⟨0, 4, 5⟩), ("y", ⟨0, 6, 7⟩)]
  have hcall : ((s.expandCall idle 100 c).run.run ⟨.empty, []⟩).1 = .ok [⟨"d", "2px 1px @y"⟩] := by
    decide +kernel
  have hcall' : ((s'.expandCall idle 7 c').run.run ⟨.empty, []⟩).1 = .ok [⟨"d", "2px 1px @y"⟩] := by
    decide +kernel
  have harguments : ∀ i < m.kind.parameters.length, MixinCall.SameArgument idle s s' c c' i
    | 0, _ => .inr ⟨_, _, "2px", rfl, rfl, by decide +kernel, by decide +kernel⟩
    | 1, _ => .inl ⟨rfl, rfl⟩
    | n + 2, h => absurd (show n + 2 < 2 from h) (by omega)
  refine ⟨idle, s, s', c, c', ⟨.empty, []⟩, hcall, ?_⟩
  have hmixin : s.mixin? c.name = some (m, root) := rfl
  refine expandCall_closed hmixin rfl harguments ?_ ?_
  · rw [hcall]
    exact nofun
  · rw [hcall']
    exact nofun

end Scope

end Cascade
