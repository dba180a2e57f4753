import ConfTree.Proofs.Glob.Trace
import ConfTree.Proofs.Include.Lookup

/-!
# Where the lookup of an include goes

Whatever its text, the directory that an include is looked up in is spelled out in the
pattern. So the search goes there first, and on from there by steps that the pieces of the
argument lead on by.

1. `exists_front`, `search_of_find`: the search behind one pattern.
   `of_mem_find`: the files that it finds.
2. `of_resolve`, `of_findBelow`: what the lookup of an argument comes to, and
   `exists_above_of_mem_dirs`: where it takes place.
3. `find_of_ofText`, `resolve_of_findAll`: one argument, step by step.
-/

namespace ConfTree.Include

open Glob

variable {t : FileTree} {l : Layout} {base rel p : Path} {files : List Path}

/-! ## 1. One pattern -/

/-- The directory is spelled out by pieces, and these lead to it. -/
theorem exists_front (habs : base.isAbsolute = true) (hrel : rel.isAbsolute = false) :
    ∃ front : List (List Char), (∀ piece ∈ front, '/' ∉ piece) ∧
      (∀ place, (front.map Component.ofPiece).foldl (fun place c => c.act place) [] =
        base.act place) ∧
      (escapedPath base).join rel =
        .fromRoot ((front.map fun piece => piece.flatMap escaped) ++ rel.pieces) := by
  obtain ⟨first, rest, hpieces⟩ := Path.isAbsolute_iff.mp habs
  have hslash : ∀ piece ∈ first :: rest, '/' ∉ piece := fun piece hpiece =>
    Path.slash_not_mem_of_mem_pieces (hpieces ▸ List.mem_cons_of_mem _ hpiece)
  have hact (place : List Name) : base.act place =
      ((first :: rest).map Component.ofPiece).foldl (fun place c => c.act place) [] := by
    rw [base.act_eq_foldl_steps, habs, if_pos rfl, Path.steps, hpieces]
    rfl
  have hescaped := pieces_escapedPath base
  rw [hpieces, List.map_cons] at hescaped
  obtain ⟨front, hfront, hjoin⟩ := Path.exists_pieces_join (escapedPath base) hrel
  rcases hfront with hfront | hfront
  · refine ⟨first :: rest, hslash, fun place => (hact place).symm, Path.eq_fromRoot ?_ ?_⟩
    · rw [hjoin, ← hfront, hescaped]
      rfl
    · simp
  · -- The directory ends in a separator, so that its last piece is empty.
    obtain ⟨init, last, hinit⟩ :=
      (List.eq_nil_or_concat (first :: rest)).resolve_left (List.cons_ne_nil _ _)
    rw [List.concat_eq_append] at hinit
    rw [hfront, hinit, List.map_append, ← List.cons_append] at hescaped
    obtain ⟨rfl, hlast⟩ := List.append_inj' hescaped rfl
    have hnil : last = [] := escaped_eq_nil_iff.mp (List.cons.inj hlast).1.symm
    refine ⟨init, fun piece hpiece => hslash piece (by simp [hinit, hpiece]), fun place => ?_,
      Path.eq_fromRoot hjoin ?_⟩
    · rw [hact, hinit, hnil, List.map_append, List.foldl_append]
      rfl
    · simp [rel.pieces_ne_nil]

/-- The patterns of escaped pieces. -/
def escapedAll (front : List (List Char)) : List Pattern :=
  front.map fun piece => piece.map escapedItem

theorem readsAll_escapedAll (front : List (List Char)) :
    ReadsAll (front.map fun piece => piece.flatMap escaped) (escapedAll front) := by
  induction front with
  | nil => exact .nil
  | cons piece front ih => exact .cons (.ofEscaped piece) ih

/-- Of the text of a pattern, a separator at the end is an empty piece. -/
theorem getLast?_of_fromRoot {texts : List (List Char)} (h : texts.getLast? = some []) :
    (Path.fromRoot texts).text.toList.getLast? = some '/' := by
  obtain ⟨front, rfl⟩ := List.getLast?_eq_some_iff.mp h
  rw [Path.toList_fromRoot]
  by_cases hne : front = []
  · subst hne
    rfl
  · rw [Path.intercalate_concat hne, List.append_nil, ← List.cons_append, List.getLast?_concat]

theorem findFiles_of_find {text : String} (h : find t text = .ok files) :
    findFiles t text = .ok files := by
  unfold find at h
  split at h
  · next hfiles => rw [hfiles, Except.ok.inj h]
  · cases h

/-- The search for a pattern goes to the directory, and on by the pieces of the argument. -/
theorem search_of_find (habs : base.isAbsolute = true) (hrel : rel.isAbsolute = false)
    (h : find t ((escapedPath base).join rel).text = .ok files) :
    files = [] ∨ ∃ front patterns, (∀ piece ∈ front, '/' ∉ piece) ∧
      (∀ place, (front.map Component.ofPiece).foldl (fun place c => c.act place) [] =
        base.act place) ∧
      ReadsAll rel.pieces patterns ∧
      files = (search t (escapedAll front ++ patterns) (.fromRoot [])).filter t.isFile := by
  obtain ⟨front, hslash, hact, htext⟩ := exists_front habs hrel
  have hfiles := findFiles_of_find h
  rw [htext] at hfiles
  by_cases hend : rel.pieces.getLast? = some []
  · have hlast : ((front.map fun piece => piece.flatMap escaped) ++ rel.pieces).getLast? =
        some [] := by
      rw [List.getLast?_append, hend]
      rfl
    exact .inl (files_eq_nil_of_findFiles (getLast?_of_fromRoot hlast) hfiles)
  · have hall : ∀ x ∈ (front.map fun piece => piece.flatMap escaped) ++ rel.pieces, '/' ∉ x := by
      refine List.forall_mem_append.mpr ⟨?_, fun x => Path.slash_not_mem_of_mem_pieces⟩
      intro x hx
      obtain ⟨piece, hpiece, rfl⟩ := List.mem_map.mp hx
      exact slash_not_mem_escaped (hslash piece hpiece)
    have hlast : ((front.map fun piece => piece.flatMap escaped) ++ rel.pieces).getLast? ≠
        some [] := by
      rw [List.getLast?_append]
      cases hrelLast : rel.pieces.getLast? with
      | none => exact absurd (List.getLast?_eq_none_iff.mp hrelLast) rel.pieces_ne_nil
      | some last => rwa [hrelLast] at hend
    obtain ⟨all, hreads, hsearch⟩ :=
      exists_readsAll_of_findFiles hall (by simp [rel.pieces_ne_nil]) hlast hfiles
    obtain ⟨escapedFront, patterns, rfl, hfront, hpatterns⟩ := hreads.exists_append
    rw [hfront.unique (readsAll_escapedAll front)] at hsearch
    exact .inr ⟨front, patterns, hslash, hact, hpatterns, hsearch⟩

/-- A search from the root goes to the directory before anything else. -/
theorem of_mem_search_escapedAll {front : List (List Char)} {mid : Path}
    (hslash : ∀ piece ∈ front, '/' ∉ piece)
    (h : mid ∈ search t (escapedAll front) (.fromRoot [])) :
    mid.isAbsolute = true ∧
      ∀ place, mid.act place =
        (front.map Component.ofPiece).foldl (fun place c => c.act place) [] := by
  have hliteral := (readsAll_escapedAll front).slash_not_mem_literal fun x hx => by
    obtain ⟨piece, hpiece, rfl⟩ := List.mem_map.mp hx
    exact slash_not_mem_escaped (hslash piece hpiece)
  obtain ⟨habs, cs, hcs, -, hact⟩ := of_mem_search (Path.isAbsolute_fromRoot []) hliteral h
  have hsteps : cs = front.map Component.ofPiece := by
    clear h hliteral hact
    induction front generalizing cs with
    | nil =>
      cases hcs
      rfl
    | cons piece front ih =>
      obtain ⟨hfirst, hrest⟩ := List.forall_mem_cons.mp hslash
      cases hcs with
      | cons hc hcs =>
        rw [List.map_cons, (standsFor_escapedItems hfirst).eq_of_leads hc, ih hrest _ hcs]
  refine ⟨habs, fun place => ?_⟩
  rw [hact, hsteps]
  rfl

/-- Every file that is found lies where the directory and the pieces of the argument
lead to, and the last of these is a name. -/
theorem of_mem_find (habs : base.isAbsolute = true) (hrel : rel.isAbsolute = false)
    (h : find t ((escapedPath base).join rel).text = .ok files) (hp : p ∈ files) :
    t.isFile p = true ∧ p.isAbsolute = true ∧ ∃ patterns cs, ReadsAll rel.pieces patterns ∧
      List.Forall₂ Leads patterns cs ∧ (∃ n, cs.getLast? = some (.name n)) ∧
      ∀ place, p.act place = cs.foldl (fun place c => c.act place) (base.act place) := by
  rcases search_of_find habs hrel h with rfl | ⟨front, patterns, hslash, hfront, hreads, rfl⟩
  · cases hp
  · obtain ⟨hp, hfile⟩ := List.mem_filter.mp hp
    rw [search_append, List.mem_flatMap] at hp
    obtain ⟨mid, hmid, hp⟩ := hp
    obtain ⟨hmidAbs, hmidAct⟩ := of_mem_search_escapedAll hslash hmid
    have hliteral := hreads.slash_not_mem_literal fun x => Path.slash_not_mem_of_mem_pieces
    obtain ⟨hpAbs, cs, hcs, hlast, hact⟩ := of_mem_search hmidAbs hliteral hp
    have hne : patterns ≠ [] := by
      rintro rfl
      exact rel.pieces_ne_nil (List.eq_nil_of_length_eq_zero hreads.length_eq)
    refine ⟨hfile, hpAbs, patterns, cs, hreads, hcs, exists_getLast?_name hpAbs hfile hcs hne hlast,
      fun place => ?_⟩
    rw [hact, hmidAct, hfront]

/-- No file is found for a single piece that moves nowhere. -/
theorem not_leads_idle {piece : List Char} (hpiece : piece = [] ∨ piece = ['.'])
    {patterns : List Pattern} {cs : List Component} (hreads : ReadsAll [piece] patterns)
    (hcs : List.Forall₂ Leads patterns cs) (n : Name) : cs.getLast? ≠ some (.name n) := by
  have hwild : ∀ c ∈ piece, isWildcard c = false := by
    rcases hpiece with rfl | rfl <;> simp [isWildcard]
  have hhere : Component.ofPiece piece = .here := by
    rcases hpiece with rfl | rfl <;> decide
  rw [hreads.unique (.cons (.ofPlain hwild) .nil)] at hcs
  obtain ⟨c, cs, hc, hnil, rfl⟩ := List.forall₂_cons_left_iff.mp hcs
  rw [List.forall₂_nil_left_iff.mp hnil,
    (StandsFor.literal (literal?_map_char piece)).eq_of_leads hc, hhere]
  simp

/-! ## 2. One argument -/

theorem exists_found_of_findAll {dirs : List Path} {text : Path → String}
    (h : findAll t (dirs.map text) = .ok files) :
    ∃ found : Path → List Path, (∀ dir ∈ dirs, find t (text dir) = .ok (found dir)) ∧
      files = dirs.flatMap found := by
  let found (dir : Path) : List Path := ((find t (text dir)).toOption).getD []
  suffices hall : ∀ dir ∈ dirs, find t (text dir) = .ok (found dir) from
    ⟨found, hall, Except.ok.inj (h.symm.trans (findAll_map hall))⟩
  induction dirs generalizing files with
  | nil => exact fun _ hdir => absurd hdir List.not_mem_nil
  | cons dir dirs ih =>
    obtain ⟨these, hthese, h⟩ := bind_eq_ok_iff.mp h
    obtain ⟨those, hthose, -⟩ := bind_eq_ok_iff.mp h
    refine List.forall_mem_cons.mpr ⟨?_, ih hthose⟩
    simp only [found, hthese]
    rfl

/-- What is found below the root: the path of a standard file, or the files that are found
in each directory. -/
theorem of_findBelow (hsub : ∀ dir ∈ l.subdirs, isName dir = true)
    (h : findBelow t l rel = .ok files) :
    (l.isStandard rel.text = true ∧ files = [l.root.join rel]) ∨
      (l.isStandard rel.text = false ∧ ∃ found : Path → List Path,
        (∀ dir ∈ l.dirs, find t ((escapedPath dir).join rel).text = .ok (found dir)) ∧
        files = l.dirs.flatMap found) := by
  unfold findBelow at h
  split at h
  · next hstandard =>
    cases h
    exact .inl ⟨hstandard, rfl⟩
  · next hstandard =>
    rw [searchPatterns_eq hsub] at h
    exact .inr ⟨by simpa using hstandard, exists_found_of_findAll h⟩

/-- An absolute argument may be found where it is. Any other is looked up below the root,
and so is an absolute one that is not found. -/
theorem of_resolve {argument : String} (h : resolve t l argument = .ok files) :
    ((Path.clean ⟨argument⟩).isAbsolute = true ∧
        find t ((escapedPath (.fromRoot [])).join (Path.clean ⟨argument⟩).stripRoot).text =
          .ok files) ∨
      findBelow t l (Path.clean ⟨argument⟩).stripRoot = .ok files := by
  obtain ⟨-, -, h⟩ := bind_eq_ok_iff.mp h
  obtain ⟨found, hfound, h⟩ := bind_eq_ok_iff.mp h
  have hfiles : files = found := by
    split at h
    · cases h
    · cases h
      rfl
  subst hfiles
  unfold findCleaned at hfound
  split at hfound
  · next habs =>
    obtain ⟨direct, hdirect, hrest⟩ := bind_eq_ok_iff.mp hfound
    dsimp only at hrest
    split at hrest
    · exact .inr hrest
    · cases hrest
      obtain ⟨-, -, heq⟩ := Path.stripRoot_clean_cases ⟨argument⟩
      have hescaped : escapedPath (.fromRoot []) = .fromRoot [] := by decide
      rw [if_pos ((Path.isAbsolute_clean _).symm.trans habs)] at heq
      rw [hescaped, ← heq]
      exact .inl ⟨habs, hdirect⟩
  · exact .inr hfound

/-- The directories of a layout are the root and places right below it. -/
theorem exists_above_of_mem_dirs (hroot : l.root.isAbsolute = true)
    (hsub : ∀ dir ∈ l.subdirs, isName dir = true) {dir : Path} (hdir : dir ∈ l.dirs)
    (place : List Name) :
    dir.isAbsolute = true ∧ ∃ above : List Name, dir.act place = above ++ l.root.act place := by
  rcases List.mem_cons.mp hdir with rfl | hdir
  · exact ⟨hroot, [], rfl⟩
  · obtain ⟨text, htext, rfl⟩ := List.mem_map.mp hdir
    let n : Name := ⟨text, hsub text htext⟩
    exact ⟨(Path.isAbsolute_join (Path.isAbsolute_name n)).trans hroot, [n],
      Path.act_join_name l.root n place⟩

/-! ## 3. Step by step -/

theorem find_of_ofText {text : String} {q : Query} (h : Query.ofText text = .ok q) :
    find t text = .ok ((q.run t).filter t.isFile) := by
  rw [find, findFiles, h]
  rfl

theorem findAll_cons {pattern : String} {patterns : List String} {these those : List Path}
    (hthese : find t pattern = .ok these) (hthose : findAll t patterns = .ok those) :
    findAll t (pattern :: patterns) = .ok (these ++ those) := by
  rw [findAll, hthese, hthose]
  rfl

theorem resolve_of_findAll {argument : String} (hrel : (Path.clean ⟨argument⟩).isAbsolute = false)
    (hscreen : screen (Path.clean ⟨argument⟩).text = .ok ())
    (hstandard : l.isStandard (Path.clean ⟨argument⟩).stripRoot.text = false)
    (hfind : findAll t (searchPatterns l (Path.clean ⟨argument⟩).stripRoot) = .ok files)
    (hne : files ≠ []) : resolve t l argument = .ok files := by
  have hfound : findCleaned t l (Path.clean ⟨argument⟩) = .ok files := by
    rw [findCleaned, hrel, findBelow, hstandard, hfind]
    rfl
  have hsome : files.isEmpty = false := by simpa using hne
  rw [resolve, hscreen, hfound]
  simp [bind, Except.bind, hsome, pure, Except.pure]

end ConfTree.Include
