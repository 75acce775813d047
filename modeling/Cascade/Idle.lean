/-!
# Work that is not in progress

Reading a file can ask for another file, and evaluating a variable for another
variable. Both keep a list of the keys that are idle, that is, not in progress.
Starting on a key takes it off the list; a key that is not there is in progress
already, so asking for it closes a cycle. The list gets shorter with every level
of nesting, which bounds the nesting.
-/

namespace Cascade.Idle

variable {α : Type} [DecidableEq α]

/-- The list without a key, if the key is idle. -/
def take? (key : α) (idle : List α) : Option { rest : List α // rest.length < idle.length } :=
  if h : key ∈ idle then
    some ⟨idle.filter (· ≠ key), List.length_filter_lt_length_iff_exists.mpr ⟨key, h, by simp⟩⟩
  else none

theorem take?_eq_none_iff {key : α} {idle : List α} : take? key idle = none ↔ key ∉ idle := by
  unfold take?
  split <;> simp_all

theorem val_of_take? {key : α} {idle : List α} {rest} (h : take? key idle = some rest) :
    key ∈ idle ∧ rest.val = idle.filter (· ≠ key) := by
  unfold take? at h
  split at h
  · cases h; exact ⟨by assumption, rfl⟩
  · cases h

end Cascade.Idle
