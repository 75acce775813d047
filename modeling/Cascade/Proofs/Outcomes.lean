import Mathlib.Data.List.Forall2
import Mathlib.Logic.Basic

/-!
# Outcomes of steps in a row

What `Except` computations come to when they are put in a row: how the error of one
becomes the error of all, and what changes with the values and the errors of each.
-/

namespace Cascade

theorem mapM_congr {m : Type → Type} [Monad m] [LawfulMonad m] {α β : Type} {f g : α → m β} :
    ∀ {l : List α}, (∀ a ∈ l, f a = g a) → l.mapM f = l.mapM g
  | [], _ => by rw [List.mapM_nil, List.mapM_nil]
  | a :: rest, h => by
      rw [List.mapM_cons, List.mapM_cons, h a (List.mem_cons_self ..),
        mapM_congr fun b hb => h b (List.mem_cons_of_mem _ hb)]

section

variable {α β γ ε ε' : Type} (f : ε → ε')

theorem mapError_bind (e : Except ε α) (g : α → Except ε β) :
    (e >>= g).mapError f = e.mapError f >>= fun a => (g a).mapError f := by
  cases e <;> rfl

theorem mapError_map (e : Except ε α) (g : α → β) :
    (e.map g).mapError f = (e.mapError f).map g := by
  cases e <;> rfl

theorem map_mapM (r : α → β) (g : γ → Except ε α) :
    ∀ l : List γ, (l.mapM g).map (List.map r) = l.mapM fun a => (g a).map r
  | [] => rfl
  | a :: rest => by
      rw [List.mapM_cons, List.mapM_cons, ← map_mapM r g rest]
      cases g a with
      | error => rfl
      | ok b => cases rest.mapM g <;> rfl

theorem mapError_mapM (g : γ → Except ε β) :
    ∀ l : List γ, (l.mapM g).mapError f = l.mapM fun a => (g a).mapError f
  | [] => rfl
  | a :: rest => by
      rw [List.mapM_cons, List.mapM_cons, mapError_bind, ← mapError_mapM g rest]
      refine congrArg _ (funext fun b => ?_)
      rw [mapError_bind]
      rfl

theorem mapM_eq_ok_iff {g : α → Except ε β} : ∀ {l : List α} {bs : List β},
    l.mapM g = .ok bs ↔ List.Forall₂ (fun a b => g a = .ok b) l bs
  | [], bs => by
      rw [List.forall₂_nil_left_iff]
      exact ⟨fun h => (Except.ok.inj h).symm, fun h => h ▸ rfl⟩
  | a :: rest, bs => by
      rw [List.mapM_cons, List.forall₂_cons_left_iff]
      cases hfirst : g a with
      | error => exact ⟨nofun, fun ⟨_, _, h, _⟩ => nomatch h⟩
      | ok b =>
          simp only [← mapM_eq_ok_iff]
          cases hrest : rest.mapM g with
          | error => exact ⟨nofun, fun ⟨_, _, _, h, _⟩ => nomatch h⟩
          | ok others =>
              constructor
              · intro h
                exact ⟨b, others, rfl, rfl, (Except.ok.inj h).symm⟩
              · rintro ⟨_, _, ⟨⟩, ⟨⟩, rfl⟩
                rfl

/-- A row fails with the error of the first step that does. -/
theorem mapM_eq_error_iff {g : α → Except ε β} {error : ε} : ∀ {l : List α},
    l.mapM g = .error error ↔ ∃ before first after, l = before ++ first :: after ∧
      (∀ a ∈ before, ∃ b, g a = .ok b) ∧ g first = .error error
  | [] => ⟨nofun, fun ⟨before, _, _, h, _⟩ => by cases before <;> cases h⟩
  | a :: rest => by
      rw [List.mapM_cons]
      constructor
      · intro h
        rcases hfirst : g a with f | b
        · rw [hfirst] at h
          cases h
          exact ⟨[], a, rest, rfl, nofun, hfirst⟩
        · rcases hrest : rest.mapM g with f | others
          · rw [hfirst, hrest] at h
            cases h
            obtain ⟨before, first, after, rfl, hbefore, herror⟩ := mapM_eq_error_iff.mp hrest
            exact ⟨a :: before, first, after, rfl,
              List.forall_mem_cons.mpr ⟨⟨b, hfirst⟩, hbefore⟩, herror⟩
          · rw [hfirst, hrest] at h
            cases h
      · rintro ⟨before, first, after, heq, hbefore, herror⟩
        cases before with
        | nil =>
            obtain ⟨rfl, rfl⟩ := List.cons.inj heq
            rw [herror]
            rfl
        | cons a' before =>
            obtain ⟨rfl, hrest⟩ := List.cons.inj heq
            obtain ⟨⟨b, hfirst⟩, hbefore⟩ := List.forall_mem_cons.mp hbefore
            rw [hfirst, mapM_eq_error_iff.mpr ⟨before, first, after, hrest, hbefore, herror⟩]
            rfl

/-- If a step in a row fails, there is a first that does, and its error is that of the
row. -/
theorem exists_first_error {g : α → Except ε β} {l : List α}
    (h : ∃ a ∈ l, ∃ error, g a = .error error) : ∃ before first after error,
      l = before ++ first :: after ∧ (∀ a ∈ before, ∃ b, g a = .ok b) ∧
        g first = .error error ∧ l.mapM g = .error error := by
  rcases hrow : l.mapM g with error | bs
  · obtain ⟨before, first, after, heq, hbefore, herror⟩ := mapM_eq_error_iff.mp hrow
    exact ⟨before, first, after, error, heq, hbefore, herror, rfl⟩
  · obtain ⟨failing, hmem, error, hfails⟩ := h
    have hall : List.Forall₂ (fun a b => (∃ b, g a = .ok b) ∧ g a = .ok b) l bs :=
      (mapM_eq_ok_iff.mp hrow).imp fun _ b hb => ⟨⟨b, hb⟩, hb⟩
    obtain ⟨b, hb⟩ := ((List.forall₂_and_left l bs).mp hall).1 failing hmem
    rw [hfails] at hb
    cases hb

end

/-! ## Steps with a state -/

section

variable {m : Type → Type} [Monad m] [LawfulMonad m] {σ ε α β : Type}
  {step : ExceptT ε (StateT σ m) α} {next : α → ExceptT ε (StateT σ m) β} {s s' : σ}

theorem run_bind_of_ok {a : α} (h : step.run.run s = pure (.ok a, s')) :
    (step >>= next).run.run s = (next a).run.run s' := by
  show StateT.run (step.run >>= ExceptT.bindCont next) s = _
  rw [StateT.run_bind, h, pure_bind]
  rfl

theorem run_bind_of_error {error : ε} (h : step.run.run s = pure (.error error, s')) :
    (step >>= next).run.run s = pure (.error error, s') := by
  show StateT.run (step.run >>= ExceptT.bindCont next) s = _
  rw [StateT.run_bind, h, pure_bind]
  rfl

end

end Cascade
