import ConfTree.Proofs.FileTree.Follow

/-!
# File trees without links

Where there are no links, a path leads to the place that its text says, if it leads
anywhere. So files are told apart by what their paths do to a place.

1. `Path.act_eq_foldl_steps`: what is looked up of a path is what it says.
2. `FileTree.LinkFree`, `LinkFree.reach_eq`: where a path leads to without links.
3. `LinkFree.locate_of_isFile`: where the path of a file leads to.
-/

namespace ConfTree

/-! ## 1. Paths as steps -/

/-- The steps of a path do what its moves do: the others stay where they are. -/
theorem Path.act_eq_foldl_steps (p : Path) (place : List Name) :
    p.act place = p.steps.foldl (fun place c => c.act place)
      (if p.isAbsolute then [] else place) := by
  have hsame (pieces : List (List Char)) (place : List Name) :
      (pieces.filterMap Component.ofPiece?).foldl (fun place c => c.act place) place =
        (pieces.map Component.ofPiece).foldl (fun place c => c.act place) place := by
    induction pieces generalizing place with
    | nil => rfl
    | cons piece pieces ih =>
      rw [List.map_cons, List.foldl_cons, Component.ofPiece, ← ih]
      cases hpiece : Component.ofPiece? piece with
      | none => rw [List.filterMap_cons_none hpiece]; rfl
      | some c => rw [List.filterMap_cons_some hpiece]; rfl
  rw [act_eq]
  exact hsame p.pieces _

namespace FileTree

variable {t : FileTree} {links : Nat} {loc last : Location} {steps : List Component}
  {jump : Location → List Component → Except SystemError Location} {p : Path}

/-! ## 2. Where paths lead to -/

/-- No node is a link. -/
def LinkFree (t : FileTree) : Prop :=
  ∀ entry ∈ t.nodes, ∀ target, entry.2 ≠ .link target

theorem LinkFree.node?_ne (h : t.LinkFree) (loc : Location) (target : Path) :
    t.node? loc ≠ some (.link target) := by
  intro hnode
  unfold node? at hnode
  split at hnode
  · cases hnode
  · obtain ⟨front, behind, hnodes, -⟩ := List.lookup_eq_some_iff.mp hnode
    exact h (loc, .link target) (by simp [hnodes]) target rfl

/-- Without links every step does what it says. -/
theorem LinkFree.walk_eq (h : t.LinkFree) (hwalk : t.walk anyEntry jump loc steps = .ok last) :
    last = steps.foldl (fun place c => c.act place) loc := by
  induction steps generalizing loc with
  | nil =>
    rw [walk_nil] at hwalk
    cases hwalk
    rfl
  | cons step steps ih =>
    rw [walk_cons] at hwalk
    split at hwalk
    · cases step with
      | root => exact ih hwalk
      | here => exact ih hwalk
      | up => exact ih hwalk
      | name n =>
        dsimp only at hwalk
        split at hwalk
        · cases hwalk
        · cases hnode : t.node? (n :: loc) with
          | none => simp [hnode] at hwalk
          | some node =>
            cases node with
            | link target => exact absurd hnode (h.node?_ne _ _)
            | directory => exact ih (by simpa [hnode] using hwalk)
            | file content executable => exact ih (by simpa [hnode] using hwalk)
    · cases hwalk

/-- Without links a path leads to the place that it says. -/
theorem LinkFree.reach_eq (h : t.LinkFree) (hreach : t.reach p = .ok loc) :
    loc = p.act t.workingDir := by
  obtain ⟨jump, hjump⟩ := t.exists_follow_eq anyEntry maxLinks
  rw [reach, hjump] at hreach
  rw [h.walk_eq hreach, p.act_eq_foldl_steps, start]

/-! ## 3. Files -/

/-- The location of a file is what its path says. -/
theorem LinkFree.locate_of_isFile (h : t.LinkFree) (hfile : t.isFile p = true) :
    t.locate p = .ok (p.act t.workingDir) := by
  obtain ⟨loc, _, hlocate, -⟩ := isFile_iff.mp hfile
  rw [hlocate, ← h.reach_eq (locate_eq_ok_iff.mp hlocate).2]

theorem LinkFree.locate_of_isDirectory (h : t.LinkFree) (hdir : t.isDirectory p = true) :
    t.locate p = .ok (p.act t.workingDir) ∧ t.isDirectoryAt (p.act t.workingDir) = true := by
  obtain ⟨loc, hlocate, hdir⟩ := isDirectory_iff.mp hdir
  rw [hlocate, ← h.reach_eq (locate_eq_ok_iff.mp hlocate).2]
  exact ⟨rfl, hdir⟩

end FileTree

end ConfTree
