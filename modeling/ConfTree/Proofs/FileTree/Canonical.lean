import ConfTree.Proofs.FileTree.LinkFree

/-!
# Canonical paths

The canonical path of a place is found name by name, and every entry on the way is
looked up by the path that has been found so far. So a place that lies too deep has
none. Who comes there through links comes by a path that is short enough to be opened,
and the place goes by as many names as there are such paths.

1. `bytesTo`, `utf8ByteSize_ofLocation`: how long the path to a place is.
2. `canonical?_eq_none_of_deep`: places that lie too deep.
   `IsShallow`, `IsShallow.canonical?_of_locate`: trees without such places.
3. `LinkFree.canonical?_of_isFile`: the canonical path of a file in a tree without links.
-/

namespace ConfTree

/-! ## 1. Lengths -/

/-- How many bytes the pieces of a path have, each with the separator in front. -/
def Path.bytesOf : List (List Char) → Nat
  | [] => 0
  | piece :: ps => (String.ofList piece).utf8ByteSize + 1 + bytesOf ps

theorem Path.utf8ByteSize_fromRoot {ps : List (List Char)} (hne : ps ≠ []) :
    (fromRoot ps).text.utf8ByteSize = bytesOf ps := by
  induction ps with
  | nil => exact absurd rfl hne
  | cons piece ps ih =>
    have hslash : (String.ofList ['/']).utf8ByteSize = 1 := by decide
    cases ps with
    | nil =>
      have htext : (fromRoot [piece]).text = String.ofList ['/'] ++ String.ofList piece := by
        rw [fromRoot, ← String.ofList_append]
        simp
      rw [htext, String.utf8ByteSize_append, hslash, bytesOf, bytesOf]
      omega
    | cons next ps =>
      have htext : (fromRoot (piece :: next :: ps)).text =
          String.ofList ['/'] ++ String.ofList piece ++ (fromRoot (next :: ps)).text := by
        rw [fromRoot, fromRoot, ← String.ofList_append, ← String.ofList_append,
          List.intercalate_cons_cons]
        simp
      rw [htext, String.utf8ByteSize_append, String.utf8ByteSize_append, hslash,
        ih (List.cons_ne_nil _ _)]
      simp only [bytesOf]
      omega

theorem Path.bytesOf_concat (ps : List (List Char)) (piece : List Char) :
    bytesOf (ps ++ [piece]) = bytesOf ps + ((String.ofList piece).utf8ByteSize + 1) := by
  induction ps with
  | nil => simp [bytesOf]
  | cons first ps ih =>
    rw [List.cons_append, bytesOf, bytesOf, ih]
    omega

namespace FileTree

variable {t : FileTree} {p : Path} {loc last : Location} {n : Name} {steps rest : List Component}
  {links : Nat} {jump jump' : Location → List Component → Except SystemError Location}

/-- How many bytes the names on the way to a place have, each with the separator in
front. -/
def bytesTo : Location → Nat
  | [] => 0
  | n :: loc => bytesTo loc + (n.text.utf8ByteSize + 1)

theorem bytesTo_tail_le (loc : Location) : bytesTo loc.tail ≤ bytesTo loc := by
  cases loc with
  | nil => exact Nat.le_refl _
  | cons n loc => exact Nat.le_add_right _ _

theorem bytesOf_piecesTo (loc : Location) : Path.bytesOf (Path.piecesTo loc) = bytesTo loc := by
  induction loc with
  | nil => rfl
  | cons n loc ih =>
    have hpieces : Path.piecesTo (n :: loc) = Path.piecesTo loc ++ [n.text.toList] := by
      simp [Path.piecesTo]
    rw [hpieces, Path.bytesOf_concat, ih, String.ofList_toList, bytesTo]

theorem utf8ByteSize_ofLocation (n : Name) (loc : Location) :
    (Path.ofLocation (n :: loc)).text.utf8ByteSize = bytesTo (n :: loc) := by
  rw [Path.ofLocation_eq, Path.utf8ByteSize_fromRoot (by simp [Path.piecesTo]), bytesOf_piecesTo]

theorem isNameable_iff :
    isNameable (n :: loc) rest = true ↔
      bytesTo (n :: loc) + (asksDirectory rest).toNat < maxPathBytes := by
  rw [isNameable, utf8ByteSize_ofLocation, decide_eq_true_iff]

/-! ## 2. Places that lie too deep -/

/-- Who finds a place name by name has not come too deep. -/
theorem bytesTo_lt_of_walk
    (hjump : ∀ loc steps, bytesTo loc < maxPathBytes → jump loc steps = .ok last →
      bytesTo last < maxPathBytes)
    (hloc : bytesTo loc < maxPathBytes) (h : t.walk isNameable jump loc steps = .ok last) :
    bytesTo last < maxPathBytes := by
  induction steps generalizing loc with
  | nil =>
    cases h
    exact hloc
  | cons step rest ih =>
    obtain ⟨-, h⟩ := walk_cons_eq_ok_iff.mp h
    cases step with
    | root => exact ih (by decide) h
    | here => exact ih hloc h
    | up => exact ih (Nat.lt_of_le_of_lt (bytesTo_tail_le loc) hloc) h
    | name n =>
      obtain ⟨-, node, -, h⟩ := h
      cases node with
      | link target =>
        refine hjump _ _ ?_ h.2
        split
        · decide
        · exact hloc
      | directory | file content executable =>
        have hname := isNameable_iff.mp h.1
        exact ih (by omega) h.2

theorem bytesTo_lt_of_follow (hloc : bytesTo loc < maxPathBytes)
    (h : t.follow isNameable links loc steps = .ok last) : bytesTo last < maxPathBytes := by
  induction links generalizing loc steps with
  | zero => exact bytesTo_lt_of_walk (fun _ _ _ hlink => by cases hlink) hloc h
  | succ links ih => exact bytesTo_lt_of_walk (fun _ _ hloc hlink => ih hloc hlink) hloc h

/-- A place that lies too deep has no canonical path, whatever path leads there. -/
theorem canonical?_eq_none_of_deep (hdir : bytesTo t.workingDir < maxPathBytes)
    (h : t.locate p = .ok loc) (hdeep : maxPathBytes ≤ bytesTo loc) : t.canonical? p = none := by
  obtain ⟨⟨hrefusal, -⟩, hreach⟩ := locate_eq_ok_iff.mp h
  simp only [canonical?, hrefusal]
  cases hfollow : t.follow isNameable maxLinks (t.start p) p.steps with
  | error e => rfl
  | ok last =>
    have hlast : t.reach p = .ok last := follow_of_admits (fun _ _ _ _ => rfl) hfollow
    rw [hreach] at hlast
    cases hlast
    have hstart : bytesTo (t.start p) < maxPathBytes := by
      unfold start
      split
      · decide
      · exact hdir
    exact absurd (bytesTo_lt_of_follow hstart hfollow) (Nat.not_lt.mpr hdeep)

/-- Every entry can be looked up by the path to it, with a separator behind. -/
def IsShallow (t : FileTree) : Prop := ∀ entry ∈ t.nodes, bytesTo entry.1 + 1 < maxPathBytes

instance (t : FileTree) : Decidable t.IsShallow := inferInstanceAs (Decidable (∀ _ ∈ _, _))

theorem IsShallow.isNameable (h : t.IsShallow) (hnode : (t.node? loc).isSome = true)
    (rest : List Component) : isNameable loc rest = true := by
  have hbit : (asksDirectory rest).toNat ≤ 1 := Bool.toNat_le _
  cases loc with
  | nil =>
    have hroot : (Path.ofLocation []).text.utf8ByteSize = 1 := by decide
    rw [FileTree.isNameable, hroot, decide_eq_true_iff, maxPathBytes]
    omega
  | cons n loc =>
    rw [node?, if_neg (List.cons_ne_nil _ _), List.lookup_isSome_iff] at hnode
    obtain ⟨entry, hmem, hloc⟩ := hnode
    have hentry := h entry hmem
    rw [← eq_of_beq hloc] at hentry
    exact isNameable_iff.mpr (by omega)

/-- Where no place lies too deep, every path that leads to one has a canonical path. -/
theorem IsShallow.canonical?_of_locate (ht : t.IsShallow) (h : t.locate p = .ok loc) :
    t.canonical? p = some (.ofLocation loc) := by
  obtain ⟨⟨hrefusal, -⟩, hreach⟩ := locate_eq_ok_iff.mp h
  have hfollow : t.follow FileTree.isNameable maxLinks (t.start p) p.steps = .ok loc :=
    follow_of_admits (fun _ rest hnode _ => ht.isNameable hnode rest) hreach
  rw [canonical?, hrefusal, hfollow]
  rfl

/-! ## 3. Trees without links -/

/-- How many bytes some steps add to a path at most. -/
def bytesBy : List Component → Nat
  | [] => 0
  | .name n :: rest => n.text.utf8ByteSize + 1 + bytesBy rest
  | _ :: rest => 1 + bytesBy rest

theorem bytesBy_ofPiece_le (piece : List Char) (rest : List Component) :
    bytesBy (.ofPiece piece :: rest) ≤ (String.ofList piece).utf8ByteSize + 1 + bytesBy rest := by
  unfold Component.ofPiece Component.ofPiece?
  split
  · simp only [Option.getD_some, bytesBy]
    omega
  · cases hname : Name.ofString? (String.ofList piece) with
    | none =>
      simp only [Option.map_none, Option.getD_none, bytesBy]
      omega
    | some n =>
      simp only [Option.map_some, Option.getD_some, bytesBy, Name.text_of_ofString? hname]
      omega

theorem bytesBy_map_ofPiece_le (ps : List (List Char)) :
    bytesBy (ps.map Component.ofPiece) ≤ Path.bytesOf ps := by
  induction ps with
  | nil => exact Nat.le_refl _
  | cons piece ps ih =>
    rw [List.map_cons, Path.bytesOf]
    exact Nat.le_trans (bytesBy_ofPiece_le piece _) (Nat.add_le_add_left ih _)

/-- Where there is room for all steps, there is for an entry in front of them. -/
theorem isNameable_of_room (hroom : bytesTo (n :: loc) + bytesBy rest < maxPathBytes) :
    isNameable (n :: loc) rest = true := by
  refine isNameable_iff.mpr ?_
  cases rest with
  | nil => exact hroom
  | cons next rest =>
    have hbit := Bool.toNat_le (asksDirectory (next :: rest))
    have hnext : 1 ≤ bytesBy (next :: rest) := by
      cases next <;> simp only [bytesBy] <;> omega
    omega

/-- Without links, who has room for all steps has room for every entry on the way. -/
theorem LinkFree.walk_isNameable (ht : t.LinkFree)
    (hroom : bytesTo loc + bytesBy steps < maxPathBytes) :
    t.walk FileTree.isNameable jump loc steps = t.walk anyEntry jump' loc steps := by
  induction steps generalizing loc with
  | nil => rfl
  | cons step rest ih =>
    rw [walk_cons, walk_cons_admits]
    split
    · cases step with
      | root =>
        simp only [bytesBy] at hroom
        exact ih (show 0 + bytesBy rest < maxPathBytes by omega)
      | here =>
        simp only [bytesBy] at hroom
        exact ih (show bytesTo loc + bytesBy rest < maxPathBytes by omega)
      | up =>
        simp only [bytesBy] at hroom
        have htail := bytesTo_tail_le loc
        exact ih (show bytesTo loc.tail + bytesBy rest < maxPathBytes by omega)
      | name n =>
        have hnext : bytesTo (n :: loc) + bytesBy rest < maxPathBytes := by
          simp only [bytesBy] at hroom
          rw [bytesTo]
          omega
        dsimp only
        split
        · rfl
        · cases hnode : t.node? (n :: loc) with
          | none => rfl
          | some node =>
            cases node with
            | link target => exact absurd hnode (ht.node?_ne _ _)
            | directory | file content executable =>
              exact (if_pos (isNameable_of_room hnext)).trans (ih hnext)
    · rfl

/-- Without links, a path from the root that may be looked up leads name by name to where
it leads. -/
theorem LinkFree.follow_isNameable (ht : t.LinkFree) {ps : List (List Char)} (hne : ps ≠ [])
    (hsize : (Path.fromRoot ps).text.utf8ByteSize < maxPathBytes) :
    t.follow FileTree.isNameable links [] (ps.map Component.ofPiece) =
      t.follow anyEntry links [] (ps.map Component.ofPiece) := by
  rw [Path.utf8ByteSize_fromRoot hne] at hsize
  have hsum := bytesBy_map_ofPiece_le ps
  obtain ⟨jump, hjump⟩ := t.exists_follow_eq FileTree.isNameable links
  obtain ⟨jump', hjump'⟩ := t.exists_follow_eq anyEntry links
  rw [hjump, hjump']
  exact ht.walk_isNameable (show 0 + _ < maxPathBytes by omega)

/-- The canonical path of a file that an absolute path leads to is what this path says. -/
theorem LinkFree.canonical?_of_isFile (ht : t.LinkFree) (habs : p.isAbsolute = true)
    (hfile : t.isFile p = true) : t.canonical? p = some (.ofLocation (p.act t.workingDir)) := by
  obtain ⟨⟨hrefusal, hsize⟩, hreach⟩ := locate_eq_ok_iff.mp (ht.locate_of_isFile hfile)
  obtain ⟨piece, rest, hpieces⟩ := Path.isAbsolute_iff.mp habs
  have hp : p = .fromRoot (piece :: rest) := Path.eq_fromRoot hpieces (List.cons_ne_nil _ _)
  have hslash : ∀ x ∈ piece :: rest, '/' ∉ x := fun x hx =>
    Path.slash_not_mem_of_mem_pieces (hpieces ▸ List.mem_cons_of_mem _ hx)
  have hsteps : p.steps = .here :: (piece :: rest).map Component.ofPiece := by
    rw [hp, Path.steps_fromRoot (List.cons_ne_nil _ _) hslash]
  have hfollow : t.follow FileTree.isNameable maxLinks (t.start p) p.steps =
      .ok (p.act t.workingDir) := by
    rw [hp] at hsize
    rw [← hreach, start, if_pos habs, hsteps, follow_here isDirectoryAt_nil,
      ht.follow_isNameable (List.cons_ne_nil _ _) hsize, hp, reach_fromRoot hslash]
  rw [canonical?, hrefusal, hfollow]
  rfl

end FileTree

end ConfTree
