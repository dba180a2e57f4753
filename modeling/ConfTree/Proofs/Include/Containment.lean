import Mathlib
import ConfTree.Proofs.Include.Searches

/-!
# Includes that stay below the root

A relative argument that does not start with `..` is looked up from the root downwards. But
a piece that leaves a choice may stand for `..` where a dot is written in front of it, and
then leads upwards. As long as such pieces are outnumbered by the others, the lookup stays
in the root.

1. `staysBelow`, `foldl_act_below`: steps that do not lead out of a place.
2. `leadsBelow_of_mem_find`: what is found from a place in the root.
3. `resolve_below_root`: what an argument stands for in a tree without links.
-/

namespace ConfTree

/-- The path leads to a file below the place. -/
def FileTree.LeadsBelow (t : FileTree) (top : Location) (p : Path) : Prop :=
  ∃ below node, below ≠ [] ∧ t.locate p = .ok (below ++ top) ∧
    t.node? (below ++ top) = some node ∧ node.isFile = true

namespace Include

open Glob

variable {t : FileTree} {l : Layout} {base rel p : Path} {files : List Path}
  {pieces : List (List Char)} {patterns : List Pattern} {cs : List Component}

/-! ## 1. Steps -/

/-- Up to each of the pieces but the last, no more of them climb than do not. The last is
left out since the step to a file is to an entry. -/
def staysBelow (pieces : List (List Char)) : Bool :=
  pieces.dropLast.inits.all fun front => decide (2 * front.countP climbs ≤ front.length)

theorem staysBelow_iff :
    staysBelow pieces = true ↔
      ∀ front, front <+: pieces.dropLast → 2 * front.countP climbs ≤ front.length := by
  simp [staysBelow]

/-- `Follows pieces cs`: the steps are to entries, but for pieces that climb. -/
def Follows (pieces : List (List Char)) (cs : List Component) : Prop :=
  List.Forall₂ (fun piece c =>
    (∃ n, c = .name n) ∨ climbs piece = true ∧ (c = .here ∨ c = .up)) pieces cs

/-- Steps that are never led upwards more often than down stay below a place, and lead
below where they started from as far as they may lead up. -/
theorem foldl_act_below (h : Follows pieces cs) (hlast : ∃ n, cs.getLast? = some (.name n))
    (names top : List Name)
    (hclimb : ∀ front, front <+: pieces.dropLast →
      2 * front.countP climbs ≤ front.length + names.length) :
    ∃ below, below ≠ [] ∧
      cs.foldl (fun place c => c.act place) (names ++ top) = below ++ top := by
  unfold Follows at h
  induction h generalizing names with
  | nil =>
    obtain ⟨n, hn⟩ := hlast
    cases hn
  | @cons piece c pieces cs hc hcs ih =>
    cases hcs with
    | nil =>
      obtain ⟨n, hn⟩ := hlast
      cases hn
      exact ⟨n :: names, by simp, rfl⟩
    | @cons next c' pieces cs hc' hcs =>
      have hbehind : ∃ n, (c' :: cs).getLast? = some (.name n) := by
        simpa only [List.getLast?_cons_cons] using hlast
      -- What is known of the front of the pieces, and of the pieces behind the first.
      have hmore (front : List (List Char)) (hfront : front <+: (next :: pieces).dropLast) :
          2 * (piece :: front).countP climbs ≤ (piece :: front).length + names.length :=
        hclimb _ (List.prefix_cons_inj piece |>.mpr hfront)
      have hrest (hpiece : climbs piece = true) {after : List Name}
          (hafter : names.length ≤ after.length + 1) (front : List (List Char))
          (hfront : front <+: (next :: pieces).dropLast) :
          2 * front.countP climbs ≤ front.length + after.length := by
        have h := hmore front hfront
        rw [List.countP_cons_of_pos hpiece, List.length_cons] at h
        omega
      rcases hc with ⟨n, rfl⟩ | ⟨hpiece, rfl | rfl⟩
      · refine ih hbehind (n :: names) fun front hfront => ?_
        have h := hmore front hfront
        have hle := (List.sublist_cons_self piece front).countP_le (p := climbs)
        rw [List.length_cons] at h ⊢
        omega
      · exact ih hbehind names fun front hfront => hrest hpiece (Nat.le_succ _) front hfront
      · obtain ⟨n, names, rfl⟩ : ∃ n after, names = n :: after := by
          refine List.exists_cons_of_ne_nil fun hnil => ?_
          have h := hmore [] (List.nil_prefix)
          rw [List.countP_cons_of_pos hpiece, hnil] at h
          simp at h
        exact ih hbehind names fun front hfront => hrest hpiece (Nat.le_refl _) front hfront

/-! ## 2. Searches -/

/-- Pieces that are written like names are followed so. -/
theorem follows_of_leads {names : List Name}
    (hreads : ReadsAll (names.map fun n => n.text.toList) patterns)
    (hcs : List.Forall₂ Leads patterns cs) : Follows (names.map fun n => n.text.toList) cs := by
  induction names generalizing patterns cs with
  | nil =>
    cases hreads
    cases hcs
    exact .nil
  | cons n names ih =>
    rw [List.map_cons] at hreads
    cases hreads with
    | cons hread hreads =>
      cases hcs with
      | cons hc hcs =>
        refine .cons ?_ (ih hreads hcs)
        by_cases hclimbs : climbs n.text.toList = true
        · rcases hc.cases with h | h | h
          · exact .inr ⟨hclimbs, .inl h⟩
          · exact .inr ⟨hclimbs, .inr h⟩
          · exact .inl h
        · exact .inl (exists_name_of_leads hread (Bool.not_eq_true _ ▸ hclimbs) hc)

/-- A cleaned relative path that does not start with `..` is a dot or made of names. -/
theorem pieces_clean_of_relative {q : Path} (hrel : q.isAbsolute = false)
    (hup : q.clean.pieces.head? ≠ some ['.', '.']) :
    q.clean.pieces = [['.']] ∨
      ∃ names : List Name, q.clean.pieces = names.map fun n => n.text.toList := by
  obtain ⟨-, -, hclean⟩ := q.stripRoot_clean_cases
  rw [hrel, if_neg Bool.false_ne_true] at hclean
  have hcases := q.pieces_stripRoot_clean
  rw [← hclean] at hcases
  rcases hcases with h | h | ⟨names, h⟩
  · exact absurd (Path.eq_of_pieces h) q.clean_ne_empty
  · exact .inl h
  · refine .inr ⟨names, ?_⟩
    cases hups : q.clean.ups with
    | zero => simpa [hups] using h
    | succ ups => simp [h, hups, List.replicate_succ] at hup

/-- From a place in the root, an argument that stays below finds files below the root. -/
theorem leadsBelow_of_mem_find (ht : t.LinkFree) (habs : base.isAbsolute = true)
    (hrel : rel.isAbsolute = false) {above : List Name} {top : Location}
    (hbase : base.act t.workingDir = above ++ top)
    (hpieces : rel.pieces = [['.']] ∨
      ∃ names : List Name, rel.pieces = names.map fun n => n.text.toList)
    (hclimb : staysBelow rel.pieces = true)
    (h : find t ((escapedPath base).join rel).text = .ok files) (hp : p ∈ files) :
    t.LeadsBelow top p := by
  obtain ⟨hfile, -, patterns, cs, hreads, hcs, hlast, hact⟩ := of_mem_find habs hrel h hp
  have hfollows : Follows rel.pieces cs := by
    rcases hpieces with hdot | ⟨names, hnames⟩
    · obtain ⟨n, hn⟩ := hlast
      rw [hdot] at hreads
      exact absurd hn (not_leads_idle (.inr rfl) hreads hcs n)
    · rw [hnames] at hreads ⊢
      exact follows_of_leads hreads hcs
  obtain ⟨below, hne, hbelow⟩ := foldl_act_below hfollows hlast above top
    fun front hfront => Nat.le_add_right_of_le (staysBelow_iff.mp hclimb front hfront)
  obtain ⟨loc, node, hlocate, hnode, hisFile⟩ := FileTree.isFile_iff.mp hfile
  have hloc := ht.locate_of_isFile hfile
  rw [hact, hbase, hbelow] at hloc
  rw [hlocate] at hloc
  cases hloc
  exact ⟨below, node, hne, hlocate, hnode, hisFile⟩

/-! ## 3. Arguments -/

/-- Names and dots behind a directory do not lead out of it. -/
theorem act_suffix_of_pieces
    (hpieces : rel.pieces = [['.']] ∨
      ∃ names : List Name, rel.pieces = names.map fun n => n.text.toList)
    (hrel : rel.isAbsolute = false) (place : List Name) : place <:+ rel.act place := by
  rw [rel.act_eq, hrel, if_neg Bool.false_ne_true, Path.moves]
  rcases hpieces with hdot | ⟨names, hnames⟩
  · rw [hdot]
    exact List.suffix_refl place
  · have hmoves : ∀ c ∈ names.map Component.name, c.IsMove := fun _ => Component.isMove_of_mem_names
    have hread : (names.map fun n => n.text.toList).filterMap Component.ofPiece? =
        Path.route 0 names := by
      simpa [Function.comp_def, Component.text, Path.route] using Path.filterMap_ofPiece? hmoves
    rw [hnames, hread, Path.foldl_act_route]
    exact List.suffix_append _ _

/-- A relative include stays in the root.

In a tree without links, whose root is a directory at an absolute path, and with names for
subdirectories, let the argument be relative and not start with `..` once it is cleaned, and
let no more of its pieces climb than not, up to each of them but the last. Then every path
that it stands for leads to a file below the root. Only the path of a standard file is
taken without looking: it leads below the root if anywhere, or is the root itself. -/
theorem resolve_below_root {argument : String} (ht : t.LinkFree)
    (hroot : l.root.isAbsolute = true) (hdir : t.isDirectory l.root = true)
    (hsub : ∀ dir ∈ l.subdirs, isName dir = true)
    (hrel : (Path.mk argument).isAbsolute = false)
    (hup : (Path.clean ⟨argument⟩).pieces.head? ≠ some ['.', '.'])
    (hclimb : staysBelow (Path.clean ⟨argument⟩).pieces = true)
    (h : resolve t l argument = .ok files) :
    ∃ top, t.locate l.root = .ok top ∧
      (l.isStandard (Path.clean ⟨argument⟩).text = false → ∀ p ∈ files, t.LeadsBelow top p) ∧
      (l.isStandard (Path.clean ⟨argument⟩).text = true →
        files = [l.root.join (Path.clean ⟨argument⟩)] ∧
        ∀ loc, t.reach (l.root.join (Path.clean ⟨argument⟩)) = .ok loc → top <:+ loc) := by
  have hcleanRel : (Path.clean ⟨argument⟩).isAbsolute = false :=
    (Path.isAbsolute_clean _).trans hrel
  have hpieces := pieces_clean_of_relative hrel hup
  obtain ⟨-, -, hstrip⟩ := Path.stripRoot_clean_cases ⟨argument⟩
  rw [hrel, if_neg Bool.false_ne_true] at hstrip
  rcases of_resolve h with ⟨habs, -⟩ | hbelow
  · simp [hcleanRel] at habs
  rw [← hstrip] at hbelow
  refine ⟨_, (ht.locate_of_isDirectory hdir).1, fun hstandard p hp => ?_, fun hstandard => ?_⟩
  · rcases of_findBelow hsub hbelow with ⟨hother, -⟩ | ⟨-, found, hfound, rfl⟩
    · simp [hstandard] at hother
    obtain ⟨dir, hdirs, hp⟩ := List.mem_flatMap.mp hp
    obtain ⟨habs, above, habove⟩ := exists_above_of_mem_dirs hroot hsub hdirs t.workingDir
    exact leadsBelow_of_mem_find ht habs hcleanRel habove hpieces hclimb (hfound dir hdirs) hp
  · rcases of_findBelow hsub hbelow with ⟨-, hfiles⟩ | ⟨hother, -⟩
    · refine ⟨hfiles, fun loc hreach => ?_⟩
      rw [ht.reach_eq hreach, Path.act_join hcleanRel]
      exact act_suffix_of_pieces hpieces hcleanRel _
    · simp [hstandard] at hother

/-- A file beside the root and one in it, with two directories: `/x`, `/r/x`, `/r/s` and
`/r/t`. -/
def besideTree : FileTree where
  nodes :=
    [([⟨"x", by decide⟩], .file (.ofBytes []) false), ([⟨"r", by decide⟩], .directory),
      ([⟨"x", by decide⟩, ⟨"r", by decide⟩], .file (.ofBytes []) false),
      ([⟨"s", by decide⟩, ⟨"r", by decide⟩], .directory),
      ([⟨"t", by decide⟩, ⟨"r", by decide⟩], .directory)]
  nodup := by decide
  workingDir := []

def besideLayout : Layout := { root := ⟨"/r"⟩, subdirs := ["s"], standardFiles := ["m"] }

theorem linkFree_besideTree : besideTree.LinkFree := by
  intro entry hentry target
  simp only [besideTree, List.mem_cons, List.not_mem_nil, or_false] at hentry
  rcases hentry with rfl | rfl | rfl | rfl | rfl <;> simp

section Beside

/-- The steps from the root to the subdirectory. -/
theorem pieceStep_besideTree :
    pieceStep besideTree ⟨"/"⟩ [.char 'r'] = [⟨"/r"⟩] ∧
      pieceStep besideTree ⟨"/r"⟩ [.char 's'] = [⟨"/r/s"⟩] ∧
      pieceStep besideTree ⟨"/r/s"⟩ [.char 's'] = [] := by
  decide +kernel

/-- From the subdirectory a piece that climbs leads to the root, and to the file there. -/
theorem climb_besideTree :
    pieceStep besideTree ⟨"/r/s"⟩ [.char '.', .any] = [⟨"/r/s/.."⟩] ∧
      pieceStep besideTree ⟨"/r/s/.."⟩ [.char 'x'] = [⟨"/r/s/../x"⟩] ∧
      besideTree.isFile ⟨"/r/s/../x"⟩ = true :=
  ⟨by cbv, by decide +kernel, by decide +kernel⟩

theorem find_besideTree_named :
    find besideTree "/r/s/.?/x" = .ok [⟨"/r/s/../x"⟩] := by
  have hquery : Query.ofText "/r/s/.?/x" =
      .ok ⟨⟨"/"⟩, [[.char 'r'], [.char 's'], [.char '.', .any], [.char 'x']], false⟩ := by cbv
  obtain ⟨hroot, hsub, -⟩ := pieceStep_besideTree
  obtain ⟨hclimb, hname, hfile⟩ := climb_besideTree
  rw [find_of_ofText hquery]
  simp [Query.run, search, hroot, hsub, hclimb, hname, hfile]

theorem resolve_besideTree_named :
    resolve besideTree besideLayout "s/.?/x" = .ok [⟨"/r/s/../x"⟩] := by
  have hquery : Query.ofText "/r/s/s/.?/x" =
      .ok ⟨⟨"/"⟩, [[.char 'r'], [.char 's'], [.char 's'], [.char '.', .any], [.char 'x']],
        false⟩ := by cbv
  have hbelow : find besideTree "/r/s/s/.?/x" = .ok [] := by
    obtain ⟨hroot, hsub, hnone⟩ := pieceStep_besideTree
    rw [find_of_ofText hquery]
    simp [Query.run, search, hroot, hsub, hnone]
  exact resolve_of_findAll (by decide) (by decide +kernel) (by decide)
    (findAll_cons find_besideTree_named (findAll_cons hbelow rfl)) (by simp)

/-- Behind a subdirectory that is named, a piece that climbs does not lead out of the root. -/
theorem resolve_below_root_besideTree :
    besideTree.LinkFree ∧ staysBelow (Path.clean ⟨"s/.?/x"⟩).pieces = true ∧
      resolve besideTree besideLayout "s/.?/x" = .ok [⟨"/r/s/../x"⟩] ∧
      ∃ top, besideTree.locate ⟨"/r"⟩ = .ok top ∧ besideTree.LeadsBelow top ⟨"/r/s/../x"⟩ := by
  have hpieces : (Path.clean ⟨"s/.?/x"⟩).pieces = [['s'], ['.', '?'], ['x']] := by decide
  have hclimb : staysBelow (Path.clean ⟨"s/.?/x"⟩).pieces = true := by
    have hname : climbs ['s'] = false := by cbv
    have hup : climbs ['.', '?'] = true := by cbv
    simp [hpieces, staysBelow, hname, hup]
  obtain ⟨top, hlocate, hfiles, -⟩ := resolve_below_root linkFree_besideTree (by decide)
    (by cbv) (by decide) (by decide) (by decide) hclimb resolve_besideTree_named
  exact ⟨linkFree_besideTree, hclimb, resolve_besideTree_named, top, hlocate,
    hfiles (by decide) _ (by simp)⟩

/-- Without such a piece in front, one that climbs leads out of the root. And the path of a
standard file is taken without a file. -/
theorem resolve_climbs_out :
    besideTree.LinkFree ∧ besideLayout.root.isAbsolute = true ∧
      besideTree.isDirectory besideLayout.root = true ∧
      (∀ dir ∈ besideLayout.subdirs, isName dir = true) ∧
      (Path.mk ".?/x").isAbsolute = false ∧
      (Path.clean ⟨".?/x"⟩).pieces.head? ≠ some ['.', '.'] ∧
      resolve besideTree besideLayout ".?/x" = .ok [⟨"/r/../x"⟩, ⟨"/r/s/../x"⟩] ∧
      besideTree.locate besideLayout.root = .ok [⟨"r", by decide⟩] ∧
      ¬ besideTree.LeadsBelow [⟨"r", by decide⟩] ⟨"/r/../x"⟩ ∧
      resolve besideTree besideLayout "m" = .ok [⟨"/r/m"⟩] ∧
      ¬ besideTree.LeadsBelow [⟨"r", by decide⟩] ⟨"/r/m"⟩ := by
  have hquery : Query.ofText "/r/.?/x" =
      .ok ⟨⟨"/"⟩, [[.char 'r'], [.char '.', .any], [.char 'x']], false⟩ := by cbv
  have hbeside : find besideTree "/r/.?/x" = .ok [⟨"/r/../x"⟩] := by
    have hclimb : pieceStep besideTree ⟨"/r"⟩ [.char '.', .any] = [⟨"/r/.."⟩] := by cbv
    have hname : pieceStep besideTree ⟨"/r/.."⟩ [.char 'x'] = [⟨"/r/../x"⟩] := by decide +kernel
    have hfile : besideTree.isFile ⟨"/r/../x"⟩ = true := by decide +kernel
    rw [find_of_ofText hquery]
    simp [Query.run, search, pieceStep_besideTree.1, hclimb, hname, hfile]
  have hlocate : besideTree.locate ⟨"/r/../x"⟩ = .ok [⟨"x", by decide⟩] := by decide +kernel
  have hnone : besideTree.locate ⟨"/r/m"⟩ = .error .notFound := by decide +kernel
  refine ⟨linkFree_besideTree, by decide, by cbv, by decide, by decide, by decide,
    resolve_of_findAll (by decide) (by decide +kernel) (by decide)
      (findAll_cons hbeside (findAll_cons find_besideTree_named rfl)) (by simp),
    by decide +kernel, ?_, by cbv, ?_⟩
  · rintro ⟨below, node, -, hbelow, -⟩
    rw [hlocate] at hbelow
    have hbelow := Except.ok.inj hbelow
    cases below with
    | nil => exact absurd hbelow (by decide)
    | cons n below => simp at hbelow
  · rintro ⟨below, node, -, hbelow, -⟩
    rw [hnone] at hbelow
    cases hbelow

end Beside

end Include

end ConfTree
