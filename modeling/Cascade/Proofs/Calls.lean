import Cascade.Css.Expansion
import Cascade.Proofs.Scopes
import Mathlib.Logic.Relation

/-!
# Chains of mixin calls

A call stands in the body of a rule, and the rule it expands has a body in turn, in
which more calls stand. `Scope.CallChain n s` says that there are `n` such calls one
inside the other, the first of them in the body whose scope is `s`.

How the parameters of a mixin are bound does not show in a chain: which rule a call
expands is decided by the blocks around it alone (`CallChain.congr`).
-/

namespace Cascade

namespace Scope

/-- A call in a body expands a rule with the other body. -/
inductive Calls : Scope → Scope → Prop
  | intro {layer : Layer} {outer home : Scope} {c : MixinCall} {rule : Rule} :
      Declaration.call c ∈ layer.block.declarations →
      mixin? c.name (layer :: outer) = some (rule, home) →
      Calls (layer :: outer) (home.nest rule.block)

/-- So many calls can be followed, each from the body that the one before expands. -/
inductive CallChain : Nat → Scope → Prop
  | zero {s : Scope} : CallChain 0 s
  | succ {n : Nat} {s t : Scope} : s.Calls t → CallChain n t → CallChain (n + 1) s

/-- The blocks of a scope, without what is bound over them. -/
def blocks (s : Scope) : List Block := s.map Layer.block

theorem mixin?_congr {name : Text} :
    ∀ {s s' : Scope}, s.blocks = s'.blocks →
      ∀ {rule : Rule} {home : Scope}, mixin? name s = some (rule, home) →
        ∃ home', mixin? name s' = some (rule, home') ∧ home.blocks = home'.blocks
  | [], _, _, _, _, h => by cases h
  | layer :: outer, [], hblocks, _, _, _ => by cases hblocks
  | layer :: outer, layer' :: outer', hblocks, rule, home, h => by
      obtain ⟨hlayer, houter⟩ := List.cons.inj hblocks
      rw [mixin?] at h ⊢
      rw [← hlayer]
      split at h
      · cases h
        exact ⟨_, rfl, hblocks⟩
      · split at h
        · cases h
          exact ⟨_, rfl, rfl⟩
        · exact mixin?_congr houter h

theorem Calls.congr {s s' t : Scope} (h : s.Calls t) (hblocks : s.blocks = s'.blocks) :
    ∃ t', s'.Calls t' ∧ t.blocks = t'.blocks := by
  cases h with
  | @intro layer outer home c rule hmem hmixin =>
      cases s' with
      | nil => cases hblocks
      | cons layer' outer' =>
          obtain ⟨home', hmixin', hhome⟩ := mixin?_congr hblocks hmixin
          rw [(List.cons.inj hblocks).1] at hmem
          exact ⟨_, .intro hmem hmixin', congrArg (List.cons rule.block) hhome⟩

namespace CallChain

variable {n : Nat} {s s' t : Scope}

theorem congr (h : CallChain n s) (hblocks : s.blocks = s'.blocks) : CallChain n s' := by
  induction h generalizing s' with
  | zero => exact .zero
  | succ hcalls _ ih =>
      obtain ⟨t', hcalls', ht⟩ := hcalls.congr hblocks
      exact .succ hcalls' (ih ht)

theorem of_le {m : Nat} (h : CallChain n s) (hle : m ≤ n) : CallChain m s := by
  induction h generalizing m with
  | zero => exact Nat.le_zero.mp hle ▸ .zero
  | succ hcalls _ ih =>
      cases m with
      | zero => exact .zero
      | succ m => exact .succ hcalls (ih (Nat.le_of_succ_le_succ hle))

/-- How the parameters of a rule are bound does not matter. -/
theorem ofCall_iff {home : Scope} {b : Block} {bindings : Bindings} :
    CallChain n (home.ofCall b bindings) ↔ CallChain n (home.nest b) :=
  ⟨fun h => h.congr rfl, fun h => h.congr rfl⟩

theorem succ_iff {layer : Layer} {outer : Scope} :
    CallChain (n + 1) (layer :: outer) ↔ ∃ d ∈ layer.block.declarations, ∃ c, d = .call c ∧
      ∃ rule home, mixin? c.name (layer :: outer) = some (rule, home) ∧
        CallChain n (home.nest rule.block) := by
  constructor
  · rintro (_ | ⟨⟨hmem, hmixin⟩, h⟩)
    exact ⟨_, hmem, _, rfl, _, _, hmixin, h⟩
  · rintro ⟨_, hmem, c, rfl, rule, home, hmixin, h⟩
    exact .succ (.intro hmem hmixin) h

/-- A call that comes back to the body it stands in makes chains of any length. -/
theorem of_recursive (hrecursive : Relation.TransGen Calls t t) :
    ∀ (n : Nat) {s : Scope}, Relation.ReflTransGen Calls s t → CallChain n s
  | 0, _, _ => .zero
  | n + 1, s, hpath => by
      rcases hpath.cases_head with heq | ⟨u, hsu, hut⟩
      · rw [heq]
        obtain ⟨u, htu, hut⟩ := Relation.TransGen.head'_iff.mp hrecursive
        exact .succ htu (of_recursive hrecursive n hut)
      · exact .succ hsu (of_recursive hrecursive n hut)

end CallChain

end Scope

end Cascade
