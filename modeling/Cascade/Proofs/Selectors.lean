import Cascade.Proofs.WellFormed

/-!
# Rules nested twice

A rule inside a rule inside a rule has its selectors combined with those around it from
the outside in. They could as well be combined from the inside out, since the combination
is associative as long as the innermost selectors do not name their parent: the `&` of a
selector stands for all that is around it, also when it is part of a longer selector by
then.

For a single selector the reason is that one without `&` is only ever put behind its
parent, as it is or after a space (`link`), and that what a selector without `&` has in
front of it does not change this.
-/

namespace Cascade.Selector

/-! ## One selector in another -/

/-- A selector with its parent put in for every `&`. -/
def withParent (parent selector : Text) : Text :=
  selector.flatMap fun c => if c = '&' then parent else [c]

/-- What a child without `&` puts behind its parent. -/
def link (child : Text) : Text :=
  match child with
  | ':' :: _ | '>' :: _ | '+' :: _ => child
  | _ => ' ' :: child

variable {parent child grandchild : Text}

theorem nest_of_mem (h : '&' ∈ child) : nest parent child = withParent parent child := if_pos h

theorem nest_of_not_mem (h : '&' ∉ child) : nest parent child = parent ++ link child := by
  unfold nest link
  rw [if_neg h]
  split <;> simp_all

theorem withParent_append (parent s t : Text) :
    withParent parent (s ++ t) = withParent parent s ++ withParent parent t :=
  List.flatMap_append

theorem withParent_of_not_mem {t : Text} (h : '&' ∉ t) : withParent parent t = t := by
  have hsame : ∀ c ∈ t, (if c = '&' then parent else [c]) = [c] :=
    fun c hc => if_neg fun heq : c = '&' => h (heq ▸ hc)
  rw [withParent, List.flatMap_congr hsame, List.flatMap_singleton']

theorem not_mem_link (h : '&' ∉ child) : '&' ∉ link child := by
  unfold link
  split <;> simp_all

/-- How a child is put behind its parent depends on its beginning. -/
theorem link_append (h : child ≠ []) (t : Text) : link (child ++ t) = link child ++ t := by
  obtain ⟨c, rest, rfl⟩ := List.exists_cons_of_ne_nil h
  unfold link
  split <;> simp_all

theorem nest_nest (hchild : child ≠ []) (h : '&' ∉ grandchild) :
    nest (nest parent child) grandchild = nest parent (nest child grandchild) := by
  rw [nest_of_not_mem h, nest_of_not_mem h]
  by_cases hmem : '&' ∈ child
  · rw [nest_of_mem hmem, nest_of_mem (List.mem_append_left _ hmem), withParent_append,
      withParent_of_not_mem (not_mem_link h)]
  · have hboth : '&' ∉ child ++ link grandchild :=
      fun hc => (List.mem_append.mp hc).elim hmem (not_mem_link h)
    rw [nest_of_not_mem hmem, nest_of_not_mem hboth, link_append hchild, List.append_assoc]

/-! ## Lists of selectors -/

variable {parents children grandchildren : List Text}

theorem compose_of_ne_nil (hparents : parents ≠ []) (hchildren : children ≠ []) :
    compose parents children = parents.flatMap fun parent => children.map (nest parent) := by
  rw [compose, if_neg (by simpa using hparents), if_neg (by simpa using hchildren)]

theorem compose_eq_nil_iff : compose parents children = [] ↔ parents = [] ∧ children = [] := by
  cases parents with
  | nil => simp
  | cons parent parents => cases children <;> simp [compose]

theorem compose_append {others : List Text} (hparents : parents ≠ []) (hothers : others ≠ [])
    (hchildren : children ≠ []) :
    compose (parents ++ others) children = compose parents children ++ compose others children := by
  have hboth : parents ++ others ≠ [] := List.append_ne_nil_of_left_ne_nil hparents _
  rw [compose_of_ne_nil hboth hchildren, compose_of_ne_nil hparents hchildren,
    compose_of_ne_nil hothers hchildren, List.flatMap_append]

theorem compose_compose (hchildren : ∀ child ∈ children, child ≠ [])
    (h : ∀ grandchild ∈ grandchildren, '&' ∉ grandchild) :
    compose (compose parents children) grandchildren =
      compose parents (compose children grandchildren) := by
  by_cases hparents : parents = []
  · simp [hparents]
  by_cases hnil : children = []
  · simp [hnil]
  by_cases hnil' : grandchildren = []
  · simp [hnil']
  have houter : compose parents children ≠ [] := fun hc => hparents (compose_eq_nil_iff.mp hc).1
  have hinner : compose children grandchildren ≠ [] := fun hc => hnil (compose_eq_nil_iff.mp hc).1
  rw [compose_of_ne_nil houter hnil', compose_of_ne_nil hparents hinner,
    compose_of_ne_nil hparents hnil, compose_of_ne_nil hnil hnil', List.flatMap_assoc]
  refine List.flatMap_congr fun parent _ => ?_
  rw [List.flatMap_map, List.map_flatMap]
  refine List.flatMap_congr fun child hchild => ?_
  rw [List.map_map]
  exact List.map_congr_left fun grandchild hgrandchild =>
    nest_nest (hchildren child hchild) (h grandchild hgrandchild)

/-- Selectors are combined in the same way from the outside in and from the inside out, and
those of two lists of parents one after the other. -/
theorem compose_isAssociative (parents others children grandchildren : List Text) :
    ((∀ child ∈ children, child ≠ []) → (∀ grandchild ∈ grandchildren, '&' ∉ grandchild) →
      compose (compose parents children) grandchildren =
        compose parents (compose children grandchildren)) ∧
    (parents ≠ [] → others ≠ [] → children ≠ [] →
      compose (parents ++ others) children =
        compose parents children ++ compose others children) :=
  ⟨compose_compose, compose_append⟩

/-- An `&` inside a selector, one inside the name of another, and a child that attaches. -/
theorem compose_isAssociative_parents :
    let parents : List Text := ["a".toList, "b c".toList]
    let children : List Text := ["d & &-e".toList, ":f".toList, "g".toList]
    let grandchildren : List Text := ["> h".toList, "i".toList]
    compose (compose parents children) grandchildren =
        compose parents (compose children grandchildren) ∧
      compose (parents ++ [":j".toList]) children =
        compose parents children ++ compose [":j".toList] children ∧
      "d b c b c-e> h".toList ∈ compose parents (compose children grandchildren) := by
  intro parents children grandchildren
  obtain ⟨hassoc, happend⟩ := compose_isAssociative parents [":j".toList] children grandchildren
  refine ⟨hassoc ?_ ?_, happend ?_ ?_ ?_, ?_⟩
  all_goals decide

end Cascade.Selector
