import Cascade.Proofs.Outcomes
import Cascade.Proofs.Run

/-!
# Runs that follow the drafting

A step of a run follows a drafting if it ends whenever it is begun, with the same
outcome and the same draft, and with stack and count where they were. The relation
goes through `>>=` (`bind`), and through what is begun and ended again around a
step (`begun`), which are the evaluation of a definition and the expansion of a
body.

What a run reaches does not show in the draft, so the relation also carries a
statement about the outcome and the bodies reached on the way.
-/

namespace Cascade

/-- No definition is begun twice, and no more calls than the limit. -/
structure Moment.Sound (limit : Nat) (m : Moment) : Prop where
  nodup : m.resolving.Nodup
  depth_le : m.depth ≤ limit

variable {α β : Type}

namespace Drafting

variable {m : Drafting α} {f : α → Drafting β} {d d' : Draft}

theorem run_bind_ok {a : α} (h : m.run.run d = (.ok a, d')) :
    (m >>= f).run.run d = (f a).run.run d' :=
  run_bind_of_ok h

theorem run_bind_error {fault : Fault} (h : m.run.run d = (.error fault, d')) :
    (m >>= f).run.run d = (.error fault, d') :=
  run_bind_of_error h

end Drafting

namespace Running

variable {step : Running α} {next : α → Running β} {r r' : Run}

theorem run_bind_ok {a : α} (h : step.run.run r = some (.ok a, r')) :
    (step >>= next).run.run r = (next a).run.run r' :=
  run_bind_of_ok h

theorem run_bind_error {fault : Fault} (h : step.run.run r = some (.error fault, r')) :
    (step >>= next).run.run r = some (.error fault, r') :=
  run_bind_of_error h

/-- A statement about the outcome of a step and the bodies it has reached. -/
abbrev Told (α : Type) := Except Fault α → List Scope → Prop

/-- Begun at the given moment, the step ends at the same moment, with the outcome
and the draft of the drafting. Nothing has been begun on the way at a moment that is
not sound, and `P` holds of the outcome and the bodies reached. -/
def Follows (limit : Nat) (now : Moment) (P : Told α) (step : Running α) (m : Drafting α) : Prop :=
  ∀ r : Run, r.now = now → ∃ r' bodies,
    step.run.run r = some ((m.run.run r.draft).1, r') ∧
    r'.now = now ∧ r'.draft = (m.run.run r.draft).2 ∧
    (∀ moment ∈ r'.history, moment ∈ r.history ∨ moment.Sound limit) ∧
    r'.reached = bodies ++ r.reached ∧ P (m.run.run r.draft).1 bodies

/-- The outcome is the given one, and no body is reached. -/
def Gives (result : Except Fault α) : Told α := fun result' bodies =>
  result' = result ∧ bodies = []

namespace Follows

variable {limit : Nat} {now : Moment} {P R : Told α} {Q : α → Told β} {T : Told β}
  {m : Drafting α}

theorem imp (h : Follows limit now P step m)
    (himp : ∀ result bodies, P result bodies → R result bodies) : Follows limit now R step m := by
  intro r hr
  obtain ⟨r', bodies, hrun, hnow, hdraft, hhistory, hreached, htold⟩ := h r hr
  exact ⟨r', bodies, hrun, hnow, hdraft, hhistory, hreached, himp _ _ htold⟩

theorem bind {f : α → Drafting β} (h : Follows limit now P step m)
    (hnext : ∀ a bodies, P (.ok a) bodies → Follows limit now (Q a) (next a) (f a))
    (hok : ∀ a result bodies bodies', P (.ok a) bodies → Q a result bodies' →
      T result (bodies' ++ bodies))
    (herror : ∀ fault bodies, P (.error fault) bodies → T (.error fault) bodies) :
    Follows limit now T (step >>= next) (m >>= f) := by
  intro r hr
  obtain ⟨r₁, bodies, hrun, hnow, hdraft, hhistory, hreached, htold⟩ := h r hr
  rcases hm : m.run.run r.draft with ⟨result, d⟩
  simp only [hm] at hrun hdraft htold
  cases result with
  | error fault =>
      rw [Drafting.run_bind_error hm, run_bind_error hrun]
      exact ⟨r₁, bodies, rfl, hnow, hdraft, hhistory, hreached, herror fault bodies htold⟩
  | ok a =>
      rw [Drafting.run_bind_ok hm, run_bind_ok hrun, ← hdraft]
      obtain ⟨r₂, bodies', hrun, hnow', hdraft', hhistory', hreached', htold'⟩ :=
        hnext a bodies htold r₁ hnow
      refine ⟨r₂, bodies' ++ bodies, hrun, hnow', hdraft', ?_, ?_, hok _ _ _ _ htold htold'⟩
      · intro moment hmoment
        rcases hhistory' moment hmoment with hold | hsound
        · exact hhistory moment hold
        · exact .inr hsound
      · rw [hreached', hreached, List.append_assoc]

theorem pure {a : α} (h : P (.ok a) []) : Follows limit now P (Pure.pure a) (Pure.pure a) :=
  fun r hr => ⟨r, [], rfl, hr, rfl, fun _ => .inl, rfl, h⟩

theorem throw {fault : Fault} (h : P (.error fault) []) :
    Follows limit now P (MonadExcept.throw fault) (MonadExcept.throw fault) :=
  fun r hr => ⟨r, [], rfl, hr, rfl, fun _ => .inl, rfl, h⟩

theorem drafting (h : ∀ d, P (m.run.run d).1 []) : Follows limit now P (Running.drafting m) m :=
  fun r hr => ⟨_, [], rfl, hr, rfl, fun _ => .inl, rfl, h r.draft⟩

/-- A step may look at the moment. -/
theorem observe {next : Run → Running α} (h : ∀ r, r.now = now → Follows limit now P (next r) m) :
    Follows limit now P (get >>= next) m :=
  fun r hr => h r hr r hr

/-- A step that is begun at a moment of its own, and taken back from it however it
ends. -/
theorem begun {now' : Moment} {run : Running α} (back : Run → Run) (hsound : now'.Sound limit)
    (h : Follows limit now' P step m) (hback : ∀ r', r'.now = now' → back r' = { r' with now })
    (hrun : ∀ r, r.now = now → run.run.run r = do
      let (result, r') ← step.run.run (r.beginning now')
      return (result, back r')) :
    Follows limit now P run m := by
  intro r hr
  obtain ⟨r', bodies, hstep, hnow, hdraft, hhistory, hreached, htold⟩ := h (r.beginning now') rfl
  refine ⟨back r', bodies, by rw [hrun r hr, hstep]; rfl, ?_, ?_, ?_, ?_, htold⟩
  all_goals rw [hback r' hnow]
  · exact hdraft
  · intro moment hmoment
    rcases hhistory moment hmoment with hold | hsound'
    · rcases List.mem_cons.mp hold with rfl | hold
      · exact .inr hsound
      · exact .inl hold
    · exact .inr hsound'
  · exact hreached

/-! ## Steps that only give a value -/

theorem lift (e : Except Fault α) : Follows limit now (Gives e) (liftM e) (liftM e) := by
  cases e with
  | error fault => exact .throw ⟨rfl, rfl⟩
  | ok a => exact .pure ⟨rfl, rfl⟩

theorem gives_ok (a : α) : Follows limit now (Gives (.ok a)) (Pure.pure a)
    (liftM (.ok a : Except Fault α)) :=
  .pure ⟨rfl, rfl⟩

theorem gives_bind {e : Except Fault α} {f : α → Except Fault β}
    (h : Follows limit now (Gives e) step (liftM e))
    (hnext : ∀ a, e = .ok a → Follows limit now (Gives (f a)) (next a) (liftM (f a))) :
    Follows limit now (Gives (e >>= f)) (step >>= next) (liftM (e >>= f)) := by
  have hlift : (liftM (e >>= f) : Drafting β) = liftM e >>= fun a => liftM (f a) := by
    cases e <;> rfl
  rw [hlift]
  refine h.bind (fun a _ ha => hnext a ha.1.symm) ?_ ?_
  · rintro a _ _ _ ⟨rfl, rfl⟩ ⟨rfl, rfl⟩
    exact ⟨rfl, rfl⟩
  · rintro fault _ ⟨rfl, rfl⟩
    exact ⟨rfl, rfl⟩

theorem gives_mapM {f : α → Running β} {g : α → Except Fault β} :
    ∀ {l : List α}, (∀ a ∈ l, Follows limit now (Gives (g a)) (f a) (liftM (g a))) →
      Follows limit now (Gives (l.mapM g)) (l.mapM f) (liftM (l.mapM g))
  | [], _ => .gives_ok _
  | a :: rest, h => by
      rw [List.mapM_cons, List.mapM_cons]
      refine (h a (List.mem_cons_self ..)).gives_bind fun b _ => ?_
      exact (gives_mapM fun a ha => h a (List.mem_cons_of_mem _ ha)).gives_bind fun bs _ =>
        .gives_ok _

end Follows

end Running

end Cascade
