import Cascade.Proofs.Outlines
import Cascade.Proofs.Reading

/-!
# Faults in the text at hand

Reading a file fails for something in its text, or for a file that it imports. The two do
not mix: whatever reads a prelude, a property or a call, and whatever the structure of a
source breaks for, fails with a syntax error (`Textual`), so a fault of another kind comes
from an import.
-/

namespace Cascade

/-! ## Statements -/

/-- If it fails, it is for something in the text that is at hand. -/
def Textual {α : Type} (e : Except Fault α) : Prop :=
  ∀ fault, e = .error fault → fault.cause.category = .syntactic

namespace Textual

variable {α β γ : Type}

theorem ok (a : α) : Textual (.ok a) := nofun

theorem error {fault : Fault} (h : fault.cause.category = .syntactic) :
    Textual (.error fault : Except Fault α) := by
  rintro _ ⟨⟩
  exact h

theorem map {e : Except Fault α} (h : Textual e) (f : α → β) : Textual (e.map f) := by
  cases e with
  | error fault => exact error (h fault rfl)
  | ok a => exact ok _

theorem foldlM {f : β → α → Except Fault β} (h : ∀ b a, Textual (f b a)) :
    ∀ (l : List α) (b : β), Textual (l.foldlM f b)
  | [], b => ok b
  | a :: rest, b => by
      rw [List.foldlM_cons]
      cases hfirst : f b a with
      | error fault => exact error (h b a fault hfirst)
      | ok b' => exact foldlM h rest b'

end Textual

theorem Property.read_textual (source : Nat) (whole : Slice) :
    Textual (Property.read source whole) := by
  unfold Property.read
  split
  · exact .error rfl
  · split
    · exact .error rfl
    · exact .ok _

theorem MixinCall.read_textual (source : Nat) (whole : Slice) :
    Textual (MixinCall.read source whole) := by
  unfold MixinCall.read
  simp only
  split
  · exact .error rfl
  · split
    · exact .error rfl
    · split
      · exact .ok _
      · exact .error rfl

theorem Signature.readParameter_textual (mixin : Text) (span : Span) (before : List Parameter)
    (piece : Text) : Textual (readParameter mixin span before piece) := by
  unfold readParameter
  split
  · exact .error rfl
  · simp only
    split
    · exact .error rfl
    · split
      · exact .error rfl
      · exact .ok _

theorem Signature.read?_textual (selector : Text) (span : Span) :
    Textual (Signature.read? selector span) := by
  obtain hnone | ⟨_, _, -, -, -, hread⟩ := Signature.read?_cases selector span
  · rw [hnone]
    exact .ok _
  · rw [hread]
    refine Textual.map (.foldlM (fun before piece => ?_) _ _) _
    exact (readParameter_textual _ _ before piece).map _

/-! ## Outlines -/

/-- What the structure of a source breaks for. -/
def Outline.causes : Outline → List Cause
  | closed => []
  | broken cause _ => [cause]
  | statement _ rest => rest.causes
  | block _ body rest => body.causes ++ rest.causes

namespace Statement

variable {nested : Bool} {s blamed : Slice} {cause : Cause}

theorem category_of_cut_broken (h : cut nested s = .broken cause blamed) :
    cause.category = .syntactic := by
  cases cutsTo_of_cut h <;> rfl

end Statement

theorem Outline.Scans.category {opened : Option Slice} {input rest : Slice} {outline : Outline}
    (h : Scans opened input outline rest) :
    ∀ cause ∈ outline.causes, cause.category = .syntactic := by
  induction h with
  | ended | close => nofun
  | unclosed | unmatched =>
      intro cause hcause
      rw [List.mem_singleton.mp hcause]
      rfl
  | broken _ _ hcut =>
      intro cause hcause
      rw [List.mem_singleton.mp hcause]
      exact Statement.category_of_cut_broken hcut
  | skip _ _ ih | statement _ _ _ _ ih => exact ih
  | block _ _ _ _ _ ihbody ih =>
      intro cause hcause
      exact (List.mem_append.mp hcause).elim (ihbody cause) (ih cause)

theorem Outline.category_ofText (text : Text) :
    ∀ cause ∈ (ofText text).causes, cause.category = .syntactic :=
  (scan_scans none (.ofText text)).category

/-! ## Readings -/

/-- A reading that fails for something in the text only. -/
def Reading.ReadsText {α : Type} (m : Reading α) : Prop := ∀ st, Textual (m.run.run st).1

namespace Reading.ReadsText

variable {α β : Type} {m : Reading α} {f : α → Reading β}

theorem bind (h : m.ReadsText) (hf : ∀ a, (f a).ReadsText) : (m >>= f).ReadsText := by
  intro st
  rcases hm : m.run.run st with ⟨result, st'⟩
  have hfirst := h st
  rw [hm] at hfirst
  cases result with
  | error fault =>
      rw [Reading.run_bind_error hm]
      exact .error (hfirst fault rfl)
  | ok a =>
      rw [Reading.run_bind_ok hm]
      exact hf a st'

theorem pure (a : α) : ReadsText (Pure.pure a) := fun _ => .ok a

theorem note (span : Span) (n : Note) : (Reading.note span n).ReadsText := fun _ => .ok _

theorem lift {e : Except Fault α} (h : Textual e) : ReadsText (liftM e) := by
  cases e with
  | error fault => exact fun _ => .error (h fault rfl)
  | ok a => exact .pure a

end Reading.ReadsText

open Reading (ReadsText)

theorem Desk.heading_readsText (d : Desk) (parents : List Text) (prelude : Slice) :
    (d.heading parents prelude).ReadsText := by
  unfold heading
  simp only
  rcases Condition.split prelude.collapsed (prelude.span d.source) with ⟨selector, condition⟩
  refine .bind (.lift (Signature.read?_textual selector _)) fun signature => ?_
  cases signature with
  | some signature => exact .bind (.note _ _) fun _ => .pure _
  | none =>
      simp only
      split <;> exact .bind (.note _ _) fun _ => .pure _

theorem Desk.addStatement_readsText (d : Desk) (block : Block) : ∀ s : Statement,
    (∀ whole, s ≠ .importing whole) → (d.addStatement block s).ReadsText
  | .importing whole, h => (h whole rfl).elim
  | .definition .., _ | .directive _, _ => .bind (.note _ _) fun _ => .pure _
  | .call _, _ =>
      .bind (.lift (MixinCall.read_textual _ _)) fun _ => .bind (.note _ _) fun _ => .pure _
  | .property _, _ => .bind (.lift (Property.read_textual _ _)) fun _ => .pure _

end Cascade
