import ConfTree.Directive

/-!
# The height of lists of directives

The height of a list is that of its highest directive, so it does not depend on
the order of the list, nor on places.
-/

namespace ConfTree.Directive

theorem heightAll_append (as bs : List Directive) :
    heightAll (as ++ bs) = max (heightAll as) (heightAll bs) := by
  induction as with
  | nil => simp [heightAll]
  | cons a as ih => rw [List.cons_append, heightAll, heightAll, ih, Nat.max_assoc]

theorem heightAll_reverse (ds : List Directive) : heightAll ds.reverse = heightAll ds := by
  induction ds with
  | nil => rfl
  | cons d ds ih =>
    rw [List.reverse_cons, heightAll_append, ih, heightAll, heightAll, heightAll, Nat.max_comm,
      Nat.max_zero]

mutual

theorem height_unplaced (d : Directive) : height (unplaced d) = height d := by
  cases d with
  | simple head => rfl
  | block head body => rw [unplaced, height, height, heightAll_unplacedAll body]

theorem heightAll_unplacedAll (ds : List Directive) :
    heightAll (unplacedAll ds) = heightAll ds := by
  cases ds with
  | nil => rfl
  | cons d ds =>
    rw [unplacedAll, heightAll, heightAll, height_unplaced d, heightAll_unplacedAll ds]

end

end ConfTree.Directive
