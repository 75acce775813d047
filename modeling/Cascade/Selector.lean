import Cascade.Text.Nesting

/-!
# Selectors

A rule is written with a list of selectors, and a nested rule is meant for every
combination of an enclosing selector with one of its own. `Selector.compose`
is that combination; it is associative as long as the innermost selectors do
not name their parent with `&`.
-/

namespace Cascade.Selector

/-- The selectors of a list written with commas. Commas inside parentheses
belong to a selector, blank pieces are dropped. -/
def ofList (t : Text) : List Text :=
  ((Text.splitTop ',' .top t).map Text.collapse).filter (!·.isEmpty)

/-- A child that names its parent with `&` has the parent put there; one that
begins with `:`, `>` or `+` is attached to it; any other is a descendant. -/
def nest (parent child : Text) : Text :=
  if '&' ∈ child then child.flatMap fun c => if c = '&' then parent else [c]
  else
    match child with
    | ':' :: _ | '>' :: _ | '+' :: _ => parent ++ child
    | _ => parent ++ ' ' :: child

/-- Every parent with every child, parents outermost. An empty side leaves the
other as it is. -/
def compose (parents children : List Text) : List Text :=
  if parents.isEmpty then children
  else if children.isEmpty then parents
  else parents.flatMap fun parent => children.map (nest parent)

@[simp] theorem compose_nil_left (children : List Text) : compose [] children = children := rfl

@[simp] theorem compose_nil_right (parents : List Text) : compose parents [] = parents := by
  cases parents <;> rfl

end Cascade.Selector
