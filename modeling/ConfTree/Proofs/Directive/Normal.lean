import ConfTree.Directive

/-!
# Normal form

A statement is in normal form if none of its words would be read as a mark or as
an include where it stands. Trees of such statements are those that can be read
from their own tokens.

1. `Everywhere`: what holds of all statements of a tree.
   `everywhereAll_iff_outline`: these are the statements that an outline lists.
2. `Statement.IsNormal`, `isReadableAll_iff`: normal form.
-/

namespace ConfTree

namespace Directive

/-! ## 1. All statements of a tree -/

mutual

/-- `P` holds of the statement of the directive and of all in its block. -/
def Everywhere (P : Statement → Prop) : Directive → Prop
  | simple head => P head
  | block head body => P head ∧ EverywhereAll P body

/-- `P` holds of all statements of the directives and in their blocks. -/
def EverywhereAll (P : Statement → Prop) : List Directive → Prop
  | [] => True
  | d :: ds => Everywhere P d ∧ EverywhereAll P ds

end

section Everywhere

variable {P : Statement → Prop}

theorem everywhereAll_iff_forall_mem {ds : List Directive} :
    EverywhereAll P ds ↔ ∀ d ∈ ds, Everywhere P d := by
  induction ds with
  | nil => simp [EverywhereAll]
  | cons d ds ih => rw [EverywhereAll, ih, List.forall_mem_cons]

theorem everywhereAll_reverse {ds : List Directive} :
    EverywhereAll P ds.reverse ↔ EverywhereAll P ds := by
  simp only [everywhereAll_iff_forall_mem, List.mem_reverse]

mutual

theorem forall_mem_outlineOnto (depth : Nat) (rest : List (Nat × Directive)) (d : Directive) :
    (∀ x ∈ outlineOnto depth rest d, P x.2.head) ↔
      Everywhere P d ∧ ∀ x ∈ rest, P x.2.head := by
  cases d with
  | simple head => rw [outlineOnto, List.forall_mem_cons, Everywhere, Directive.head]
  | block head body =>
    rw [outlineOnto, List.forall_mem_cons, forall_mem_outlineAllOnto (depth + 1) rest body,
      Everywhere, Directive.head, and_assoc]

theorem forall_mem_outlineAllOnto (depth : Nat) (rest : List (Nat × Directive))
    (ds : List Directive) :
    (∀ x ∈ outlineAllOnto depth rest ds, P x.2.head) ↔
      EverywhereAll P ds ∧ ∀ x ∈ rest, P x.2.head := by
  cases ds with
  | nil => simp [outlineAllOnto, EverywhereAll]
  | cons d ds =>
    rw [outlineAllOnto, forall_mem_outlineOnto depth _ d, forall_mem_outlineAllOnto depth rest ds,
      EverywhereAll, and_assoc]

end

/-- The statements of a tree are those that its outline lists. -/
theorem everywhereAll_iff_outline {ds : List Directive} :
    EverywhereAll P ds ↔ ∀ x ∈ outline ds, P x.2.head := by
  rw [outline, forall_mem_outlineAllOnto]
  simp

end Everywhere

end Directive

/-! ## 2. Normal form -/

/-- The statement has words, and each of them can be read as a word where it stands.

* `named`: there is a first word.
* `name_ne`: it is neither a mark nor an include.
* `args_ne`: no other word ends the statement or opens a block. -/
structure Statement.IsNormal (head : Statement) : Prop where
  named : head.params ≠ []
  name_ne : ∀ name, head.params.head? = some name →
    name ≠ ";" ∧ name ≠ "\x7b" ∧ name ≠ "\x7d" ∧ name ≠ "include"
  args_ne : ∀ arg ∈ head.params.tail, arg ≠ ";" ∧ arg ≠ "\x7b"

namespace Directive

/-- A statement can be read exactly if it is in normal form. -/
theorem isReadableHead_iff {head : Statement} :
    isReadableHead head = true ↔ head.IsNormal := by
  obtain ⟨params, file, line⟩ := head
  cases params with
  | nil => exact ⟨fun h => (nomatch h), fun h => absurd rfl h.named⟩
  | cons name args =>
    have hwords : isReadableHead ⟨name :: args, file, line⟩ = true ↔
        (name ≠ ";" ∧ name ≠ "\x7b" ∧ name ≠ "\x7d" ∧ name ≠ "include") ∧
          ∀ arg ∈ args, arg ≠ ";" ∧ arg ≠ "\x7b" := by
      simp [isReadableHead, token, Token.isMark, Token.isInclude, Token.endsStatement,
        Token.opensBlock, Token.closesBlock, and_assoc]
    rw [hwords]
    refine ⟨fun h => ⟨List.cons_ne_nil _ _, fun _ hname => ?_, h.2⟩,
      fun h => ⟨h.name_ne name rfl, h.args_ne⟩⟩
    cases hname
    exact h.1

mutual

theorem isReadable_iff (d : Directive) : isReadable d = true ↔ Everywhere Statement.IsNormal d := by
  cases d with
  | simple head => rw [isReadable, isReadableHead_iff, Everywhere]
  | block head body =>
    rw [isReadable, Bool.and_eq_true, isReadableHead_iff, isReadableAll_iff body, Everywhere]

/-- A tree can be read from its tokens exactly if all its statements are in normal
form. -/
theorem isReadableAll_iff (ds : List Directive) :
    isReadableAll ds = true ↔ EverywhereAll Statement.IsNormal ds := by
  cases ds with
  | nil => simp [isReadableAll, EverywhereAll]
  | cons d ds =>
    rw [isReadableAll, Bool.and_eq_true, isReadable_iff d, isReadableAll_iff ds, EverywhereAll]

end

end Directive

end ConfTree
