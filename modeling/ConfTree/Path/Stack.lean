import ConfTree.Path

/-!
# What a path does to a place

Without looking at any file, a place is the list of names that leads to it, and a
path leads from one place to another: the root to the empty list, a name one
further, `..` one back. Two paths mean the same if they lead to the same place
from every place that is deep enough for all their `..`.
-/

namespace ConfTree

/-- The place that a component leads to from a place; the innermost name comes
first. At the root `..` leads nowhere. -/
def Component.act : Component → List Name → List Name
  | .root, _ => []
  | .here, place => place
  | .up, place => place.tail
  | .name n, place => n :: place

namespace Path

/-- The place that a path leads to from a place. -/
def act (p : Path) (place : List Name) : List Name :=
  p.components.foldl (fun place c => c.act place) place

/-- How many `..` a path has at most. -/
def ups (p : Path) : Nat := p.components.count .up

/-- The paths lead to the same place from wherever there is room for their
`..`. -/
def Agree (p q : Path) : Prop :=
  ∀ place : List Name, p.ups ≤ place.length → q.ups ≤ place.length → p.act place = q.act place

/-- The components are those of a path that has been cleaned: names behind the
root, or names behind `..`, or a single `.`. -/
inductive IsClean : List Component → Prop
  | here : IsClean [.here]
  | absolute (names : List Name) : IsClean (.root :: names.map .name)
  | relative (ups : Nat) (names : List Name) : 0 < ups + names.length →
      IsClean (List.replicate ups .up ++ names.map .name)

end Path

end ConfTree
