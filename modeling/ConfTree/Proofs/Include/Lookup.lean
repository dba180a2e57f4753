import ConfTree.Include.Resolve
import ConfTree.Proofs.Glob.Search
import ConfTree.Proofs.Path.Clean
import ConfTree.Proofs.Text.Utf8

/-!
# Looking up what an include stands for

The patterns that an include is looked up by are glued together from the root, a
subdirectory and the argument, and then taken apart again by the search. In a plain
layout this comes to the same as looking the argument up in each directory, whatever
characters the names of the directories have.

1. `Layout.IsPlain`, `Layout.dirs`: the directories that are searched.
   `searchPatterns_eq`: the patterns, one for each of them.
2. `find_plain`, `find_single`: what one pattern stands for.
3. `find_clean`, `findCleaned_plain`, `findCleaned_single`: the two kinds of arguments.
   `resolve_lookup`: what an argument stands for.
-/

namespace ConfTree

/-! ## 1. Plain layouts -/

namespace Layout

/-- The root is an absolute path of names alone, and every subdirectory is one name.
The names may have any characters. -/
structure IsPlain (l : Layout) : Prop where
  root : ∃ loc, l.root = Path.ofLocation loc
  subdirs : ∀ dir ∈ l.subdirs, isName dir = true

/-- The directories that are searched, in order. -/
def dirs (l : Layout) : List Path := l.root :: l.subdirs.map fun dir => l.root.join ⟨dir⟩

/-- The directories of a plain layout are locations. -/
theorem IsPlain.exists_location {l : Layout} (h : l.IsPlain) :
    ∀ dir ∈ l.dirs, ∃ loc, dir = Path.ofLocation loc := by
  obtain ⟨loc, hroot⟩ := h.root
  intro dir hdir
  rcases List.mem_cons.mp hdir with rfl | hdir
  · exact ⟨loc, hroot⟩
  · obtain ⟨name, hname, rfl⟩ := List.mem_map.mp hdir
    rw [hroot]
    exact ⟨_, Path.join_ofLocation loc ⟨name, h.subdirs name hname⟩⟩

end Layout

namespace Include

open Glob

variable {t : FileTree} {l : Layout} {loc : Location} {rel : Path} {pattern : Pattern}

/-- The path as a pattern that stands for it alone. -/
def escapedPath (p : Path) : Path := ⟨Glob.escape p.text⟩

theorem flatMap_intercalate {f : Char → List Char} (hf : f '/' = ['/'])
    (ps : List (List Char)) :
    (['/'].intercalate ps).flatMap f = ['/'].intercalate (ps.map fun piece => piece.flatMap f) := by
  induction ps with
  | nil => rfl
  | cons piece ps ih =>
    cases ps with
    | nil => simp
    | cons next ps =>
      rw [List.map_cons] at ih ⊢
      rw [List.map_cons, List.intercalate_cons_cons, List.intercalate_cons_cons]
      simp [ih, hf]

theorem escaped_eq_nil_iff {piece : List Char} : piece.flatMap escaped = [] ↔ piece = [] := by
  rw [List.flatMap_eq_nil_iff, List.eq_nil_iff_forall_not_mem]
  refine forall_congr' fun c => imp_congr_right fun _ => ?_
  unfold escaped
  split <;> simp

/-- A path is escaped piece by piece. -/
theorem escapedPath_fromRoot (ps : List (List Char)) :
    escapedPath (.fromRoot ps) = .fromRoot (ps.map fun piece => piece.flatMap escaped) := by
  apply Path.eq_of_toList
  rw [escapedPath, toList_escape, Path.toList_fromRoot, Path.toList_fromRoot, List.flatMap_cons,
    flatMap_intercalate rfl]
  rfl

theorem slash_not_mem_escaped {piece : List Char} (h : '/' ∉ piece) :
    '/' ∉ piece.flatMap escaped := by
  intro hmem
  obtain ⟨c, hc, hmem⟩ := List.mem_flatMap.mp hmem
  unfold escaped at hmem
  split at hmem
  · have heq : '/' = c := by simpa using hmem
    exact h (heq ▸ hc)
  · exact h (List.mem_singleton.mp hmem ▸ hc)

theorem pieces_escapedPath (p : Path) :
    (escapedPath p).pieces = p.pieces.map fun piece => piece.flatMap escaped := by
  have hslash : ∀ piece ∈ p.pieces, '/' ∉ piece := fun piece hpiece =>
    Path.slash_not_mem_of_mem_pieces hpiece
  have htext : escapedPath p = .ofPieces (p.pieces.map fun piece => piece.flatMap escaped) := by
    apply Path.eq_of_toList
    rw [escapedPath, toList_escape, Path.ofPieces, String.toList_ofList,
      ← flatMap_intercalate rfl, Path.pieces, List.intercalate_splitOn]
  rw [htext, Path.pieces_ofPieces (by simpa using p.pieces_ne_nil)]
  intro x hx
  obtain ⟨piece, hpiece, rfl⟩ := List.mem_map.mp hx
  exact slash_not_mem_escaped (hslash piece hpiece)

theorem isAbsolute_escapedPath (p : Path) : (escapedPath p).isAbsolute = p.isAbsolute := by
  rw [Path.isAbsolute, Path.isAbsolute, escapedPath, toList_escape]
  cases p.text.toList with
  | nil => rfl
  | cons c cs =>
    rw [List.flatMap_cons, escaped]
    split
    · next hmeta =>
      have hc : c ≠ '/' := by
        rintro rfl
        cases hmeta
      simp [hc]
    · rfl

/-- Two paths are escaped one by one, or both at once. -/
theorem join_escapedPath (base : Path) {child : Path} (h : child.isAbsolute = false) :
    (escapedPath base).join (escapedPath child) = escapedPath (base.join child) := by
  have hchild : (escapedPath child).isAbsolute = false := (isAbsolute_escapedPath child).trans h
  have htext (p : Path) : (escapedPath p).text.toList = p.text.toList.flatMap escaped :=
    toList_escape p.text
  rcases base.join_cases with rfl | ⟨text, hbase⟩ | hopen
  · exact (Path.join_empty _).trans (congrArg escapedPath (Path.join_empty child).symm)
  · have hslash : (escapedPath base).text.toList = text.flatMap escaped ++ ['/'] := by
      rw [htext, hbase, List.flatMap_append]
      rfl
    apply Path.eq_of_toList
    rw [Path.join_of_slash hslash hchild, htext, htext, Path.join_of_slash hbase h,
      List.flatMap_append]
    rfl
  · have hopen' : (escapedPath base).IsOpen := by
      rw [Path.IsOpen, pieces_escapedPath, List.getLast?_map, Ne, Option.map_eq_some_iff]
      rintro ⟨piece, hpiece, hnil⟩
      exact hopen (escaped_eq_nil_iff.mp hnil ▸ hpiece)
    apply Path.eq_of_toList
    rw [Path.join_of_isOpen hopen' hchild, htext, htext, htext, Path.join_of_isOpen hopen h,
      List.flatMap_append]
    rfl

/-- A layout is searched by one pattern for each of its directories. -/
theorem searchPatterns_eq (h : ∀ dir ∈ l.subdirs, isName dir = true) (rel : Path) :
    searchPatterns l rel = l.dirs.map fun dir => ((escapedPath dir).join rel).text := by
  rw [searchPatterns, Layout.dirs, List.map_cons, List.map_map]
  refine congrArg _ (List.map_congr_left fun dir hdir => ?_)
  rw [Function.comp_apply, ← join_escapedPath l.root (Path.isAbsolute_name ⟨dir, h dir hdir⟩)]
  rfl

theorem isPiece_escaped {piece : List Char} (h : Path.IsPiece piece) :
    Path.IsPiece (piece.flatMap escaped) :=
  ⟨mt escaped_eq_nil_iff.mp h.ne_nil, slash_not_mem_escaped h.slash_not_mem⟩

theorem isPiece_of_mem_escaped (loc : Location) :
    ∀ x ∈ (Path.piecesTo loc).map fun piece => piece.flatMap escaped, Path.IsPiece x := by
  intro x hx
  obtain ⟨piece, hpiece, rfl⟩ := List.mem_map.mp hx
  exact isPiece_escaped (Path.isPiece_of_mem_piecesTo piece hpiece)

/-! ## 2. What one pattern stands for -/

/-- The patterns of the escaped names on the way to a location. -/
def escapedPatterns (loc : Location) : List Pattern :=
  (Path.piecesTo loc).map fun piece => piece.map escapedItem

theorem readsAll_escapedPatterns (loc : Location) :
    ReadsAll ((Path.piecesTo loc).map fun piece => piece.flatMap escaped) (escapedPatterns loc) := by
  rw [escapedPatterns]
  induction Path.piecesTo loc with
  | nil => exact .nil
  | cons piece ps ih => exact .cons (.ofEscaped piece) ih

/-- The names on the way to a location are spelled out by their escaped texts. -/
theorem spelled_escapedPatterns (loc : Location) :
    Spelled (escapedPatterns loc) (Path.piecesTo loc) := by
  rw [escapedPatterns, Path.piecesTo]
  induction loc.reverse with
  | nil => exact .nil
  | cons n names ih =>
    refine .cons ?_ (Path.isPiece_name n) ih
    rcases literal?_escapedItems n.text.toList with h | h
    · exact .literal h
    · exact .name n h fun _ => matches_escapedItems

/-- Pieces without wildcards are patterns that spell them out. -/
theorem plain_patterns {xs : List (List Char)} (hxs : ∀ x ∈ xs, Path.IsPiece x)
    (hplain : ∀ x ∈ xs, ∀ c ∈ x, isWildcard c = false) :
    ReadsAll xs (xs.map fun x => x.map .char) ∧ Spelled (xs.map fun x => x.map .char) xs := by
  induction xs with
  | nil => exact ⟨.nil, .nil⟩
  | cons x xs ih =>
    obtain ⟨hx, hxs⟩ := List.forall_mem_cons.mp hxs
    obtain ⟨hwild, hplain⟩ := List.forall_mem_cons.mp hplain
    obtain ⟨hreads, hspelled⟩ := ih hxs hplain
    exact ⟨.cons (.ofPlain hwild) hreads, .cons (.literal (literal?_map_char x)) hx hspelled⟩

theorem find_of_findFiles {text : String} {files : List Path}
    (h : findFiles t text = .ok files) : find t text = .ok files := by
  rw [find, h]

/-- The text of a pattern for a path below a location. -/
theorem join_escapedPath_eq (hrel : rel.isAbsolute = false) (loc : Location) :
    (escapedPath (.ofLocation loc)).join rel =
      .fromRoot (((Path.piecesTo loc).map fun piece => piece.flatMap escaped) ++ rel.pieces) := by
  rw [Path.ofLocation_eq, escapedPath_fromRoot, Path.join_fromRoot (isPiece_of_mem_escaped loc) hrel]

theorem join_ofLocation_eq (hrel : rel.isAbsolute = false) (loc : Location) :
    (Path.ofLocation loc).join rel = .fromRoot (Path.piecesTo loc ++ rel.pieces) := by
  rw [Path.ofLocation_eq, Path.join_fromRoot Path.isPiece_of_mem_piecesTo hrel]

/-- A path without wildcards stands for the file there, below whatever directory. -/
theorem find_plain (hrel : rel.isAbsolute = false) (hpieces : ∀ x ∈ rel.pieces, Path.IsPiece x)
    (hplain : ∀ x ∈ rel.pieces, ∀ c ∈ x, isWildcard c = false) (loc : Location) :
    find t ((escapedPath (.ofLocation loc)).join rel).text =
      .ok ([(Path.ofLocation loc).join rel].filter t.isFile) := by
  obtain ⟨hreads, hspelled⟩ := plain_patterns hpieces hplain
  have hne : ((Path.piecesTo loc).map fun piece => piece.flatMap escaped) ++ rel.pieces ≠ [] := by
    simp [rel.pieces_ne_nil]
  have hall := List.forall_mem_append.mpr ⟨isPiece_of_mem_escaped loc, hpieces⟩
  apply find_of_findFiles
  rw [join_escapedPath_eq hrel, join_ofLocation_eq hrel,
    findFiles_fromRoot ((readsAll_escapedPatterns loc).append hreads)
      (Path.forall_slash_not_mem hall) hne (Path.getLast?_ne_of_isPiece hall),
    ((spelled_escapedPatterns loc).append hspelled).files_eq]

/-- The empty path stands for no file, below whatever directory. -/
theorem find_empty (loc : Location) :
    find t ((escapedPath (.ofLocation loc)).join ⟨""⟩).text =
      .ok ([(Path.ofLocation loc).join ⟨""⟩].filter t.isFile) := by
  have hpieces : (Path.mk "").pieces = [[]] := by decide
  have hall : ∀ x ∈ Path.piecesTo loc ++ [[]], '/' ∉ x :=
    List.forall_mem_append.mpr ⟨Path.forall_slash_not_mem Path.isPiece_of_mem_piecesTo, by simp⟩
  have hnone : t.isFile (.fromRoot (Path.piecesTo loc ++ [[]])) = false :=
    FileTree.isFile_eq_false hall (.inl (by decide))
  apply find_of_findFiles
  rw [join_escapedPath_eq (by decide), join_ofLocation_eq (by decide), hpieces,
    findFiles_of_slash (readsAll_escapedPatterns loc) (isPiece_of_mem_escaped loc),
    List.filter_cons_of_neg (by simp [hnone]), List.filter_nil]

/-- A single piece with wildcards stands for the files of the directory that it
matches, below whatever directory. -/
theorem find_single {n : Name} (hread : Reads n.text.toList pattern)
    (hnone : pattern.literal? = none) (loc : Location) :
    find t ((escapedPath (.ofLocation loc)).join ⟨n.text⟩).text =
      .ok ((filesNamed t (.ofLocation loc) pattern).map fun n =>
        (Path.ofLocation loc).join ⟨n.text⟩) := by
  have hall := Path.forall_isPiece_concat (isPiece_of_mem_escaped loc) (Path.isPiece_name n)
  apply find_of_findFiles
  rw [join_escapedPath_eq (Path.isAbsolute_name n), Path.pieces_name,
    findFiles_fromRoot ((readsAll_escapedPatterns loc).append (.cons hread .nil))
      (Path.forall_slash_not_mem hall) (by simp) (Path.getLast?_ne_of_isPiece hall),
    (spelled_escapedPatterns loc).files_listed hnone, Path.ofLocation_eq]

/-! ## 3. Arguments -/

theorem hasWildcards_eq (text : String) : hasWildcards text = text.toList.any isWildcard := rfl

/-- What is looked up of an argument without wildcards has none either. -/
theorem plain_stripRoot {p : Path} (h : hasWildcards p.clean.text = false) :
    ∀ x ∈ p.clean.stripRoot.pieces, ∀ c ∈ x, isWildcard c = false := by
  intro x hx c hc
  have hmem : c ∈ p.clean.stripRoot.text.toList := by
    have hall := Path.mem_intercalate (s := '/') hc hx
    rwa [Path.pieces, List.intercalate_splitOn] at hall
  have hclean : c ∈ p.clean.text.toList := by
    obtain ⟨hrel, -, heq⟩ := p.stripRoot_clean_cases
    rw [heq]
    split
    · have hslash : (Path.fromRoot []).text.toList = [] ++ ['/'] := by decide
      rw [Path.join_of_slash hslash hrel]
      exact List.mem_cons_of_mem _ hmem
    · exact hmem
  rw [hasWildcards_eq, List.any_eq_false] at h
  simpa using h c hclean

/-- A text without wildcards is not refused. -/
theorem screen_of_plain {text : String} (h : hasWildcards text = false) : screen text = .ok () := by
  have hno : ∀ c, isWildcard c = true → c ∉ text.toList := by
    intro c hc hmem
    rw [hasWildcards_eq, List.any_eq_false] at h
    exact h c hmem hc
  have hstars : text.toList.count '*' = 0 := List.count_eq_zero.mpr (hno _ (by decide))
  have hmarks : text.toList.count '?' = 0 := List.count_eq_zero.mpr (hno _ (by decide))
  have hrefusal : refusal? text = none := by
    simp [refusal?, hstars, hmarks]
  rw [screen, hrefusal]

theorem findAll_map {dirs : List Path} {text : Path → String} {files : Path → List Path}
    (h : ∀ dir ∈ dirs, find t (text dir) = .ok (files dir)) :
    findAll t (dirs.map text) = .ok (dirs.flatMap files) := by
  induction dirs with
  | nil => rfl
  | cons dir dirs ih =>
    obtain ⟨hdir, hrest⟩ := List.forall_mem_cons.mp h
    rw [List.map_cons, findAll, hdir, ih hrest]
    rfl

/-- A cleaned argument without wildcards stands for the file there, below whatever
directory. -/
theorem find_stripRoot {p : Path} (h : hasWildcards p.clean.text = false) (loc : Location) :
    find t ((escapedPath (.ofLocation loc)).join p.clean.stripRoot).text =
      .ok ([(Path.ofLocation loc).join p.clean.stripRoot].filter t.isFile) := by
  obtain ⟨hrel, hempty | hpieces, -⟩ := p.stripRoot_clean_cases
  · rw [hempty]
    exact find_empty loc
  · exact find_plain hrel hpieces (plain_stripRoot h) loc

/-- An absolute argument without wildcards is looked up from the root. -/
theorem find_clean {p : Path} (h : hasWildcards p.clean.text = false)
    (habs : p.clean.isAbsolute = true) :
    find t p.clean.text = .ok ([p.clean].filter t.isFile) := by
  obtain ⟨-, -, heq⟩ := p.stripRoot_clean_cases
  rw [if_pos ((Path.isAbsolute_clean p).symm.trans habs)] at heq
  have hroot : Path.ofLocation [] = .fromRoot [] := by decide
  have hescaped : escapedPath (.fromRoot []) = .fromRoot [] := by decide
  have hfind := find_stripRoot (t := t) h []
  rwa [hroot, hescaped, ← heq] at hfind

/-- Behind the direct lookup, an argument without wildcards is looked up in each
directory. -/
theorem findBelow_plain (hl : l.IsPlain) {p : Path} (h : hasWildcards p.clean.text = false)
    (hstandard : l.isStandard p.clean.stripRoot.text = false) :
    findBelow t l p.clean.stripRoot =
      .ok ((l.dirs.map fun dir => dir.join p.clean.stripRoot).filter t.isFile) := by
  have hfind : ∀ dir ∈ l.dirs, find t ((escapedPath dir).join p.clean.stripRoot).text =
      .ok ([dir.join p.clean.stripRoot].filter t.isFile) := by
    intro dir hdir
    obtain ⟨loc, rfl⟩ := hl.exists_location dir hdir
    exact find_stripRoot h loc
  rw [findBelow, if_neg (by simp [hstandard]), searchPatterns_eq hl.subdirs, findAll_map hfind,
    ← List.filter_flatMap, List.map_eq_flatMap]

/-- An absolute argument without wildcards stands for the file there, if there is one;
any other is looked up in each directory. -/
theorem findCleaned_plain (hl : l.IsPlain) {p : Path} (h : hasWildcards p.clean.text = false)
    (hstandard : l.isStandard p.clean.stripRoot.text = false) :
    findCleaned t l p.clean =
      if p.clean.isAbsolute && t.isFile p.clean then .ok [p.clean]
      else .ok ((l.dirs.map fun dir => dir.join p.clean.stripRoot).filter t.isFile) := by
  rw [findCleaned, findBelow_plain hl h hstandard]
  cases habs : p.clean.isAbsolute with
  | false => rfl
  | true =>
    rw [if_pos rfl, find_clean h habs]
    cases hfile : t.isFile p.clean <;> simp [hfile, bind, Except.bind, pure, Except.pure]

/-- A single name with wildcards is looked up in each directory. -/
theorem findCleaned_single (hl : l.IsPlain) {n : Name} {pattern : Pattern}
    (hwild : hasWildcards n.text = true) (hread : Reads n.text.toList pattern)
    (hstandard : l.isStandard n.text = false) :
    findCleaned t l ⟨n.text⟩ =
      .ok (l.dirs.flatMap fun dir => (filesNamed t dir pattern).map fun m => dir.join ⟨m.text⟩) := by
  have hnone : pattern.literal? = none := hread.literal?_eq_none hwild
  have hfind : ∀ dir ∈ l.dirs, find t ((escapedPath dir).join ⟨n.text⟩).text =
      .ok ((filesNamed t dir pattern).map fun m => dir.join ⟨m.text⟩) := by
    intro dir hdir
    obtain ⟨loc, rfl⟩ := hl.exists_location dir hdir
    exact find_single hread hnone loc
  rw [findCleaned, Path.isAbsolute_name, Path.stripRoot_name]
  simp only [findBelow, hstandard, searchPatterns_eq hl.subdirs, findAll_map hfind]
  rfl

/-- What an argument stands for in a plain layout.

* Without wildcards, and unless it is a standard file: the file itself if the
  argument is absolute and there is one, and otherwise the files of that path below
  each directory.
* If it is a single name with wildcards: the files in each directory whose names it
  matches, in the order of their bytes. -/
theorem resolve_lookup (t : FileTree) (hl : l.IsPlain) (argument : String) :
    (∀ cleaned, cleaned = Path.clean ⟨argument⟩ → hasWildcards cleaned.text = false →
      l.isStandard cleaned.stripRoot.text = false →
      resolve t l argument =
        if cleaned.isAbsolute && t.isFile cleaned then .ok [cleaned]
        else match (l.dirs.map fun dir => dir.join cleaned.stripRoot).filter t.isFile with
          | [] => .error { cause := .noMatch argument l.root }
          | files => .ok files) ∧
    ∀ (n : Name) pattern, Path.clean ⟨argument⟩ = ⟨n.text⟩ → hasWildcards n.text = true →
      refusal? n.text = none → compile n.text.toList = .ok pattern →
      l.isStandard n.text = false →
      resolve t l argument =
        .ok (l.dirs.flatMap fun dir =>
          (filesNamed t dir pattern).map fun m => dir.join ⟨m.text⟩) ∧
      ∀ dir ∈ l.dirs,
        ((filesNamed t dir pattern).Pairwise fun a b =>
          Utf8.encode a.text.toList < Utf8.encode b.text.toList) ∧
        ∀ m : Name, m ∈ filesNamed t dir pattern ↔
          pattern.matches m.text.toList = true ∧ t.isFile (dir.join ⟨m.text⟩) = true := by
  refine ⟨fun cleaned hcleaned h hstandard => ?_,
    fun n pattern hcleaned hwild hrefusal hcompile hstandard => ⟨?_, fun dir hdir => ⟨?_, ?_⟩⟩⟩
  · subst hcleaned
    simp only [resolve, screen_of_plain h, findCleaned_plain hl h hstandard, h]
    generalize (l.dirs.map fun dir => dir.join (Path.mk argument).clean.stripRoot).filter t.isFile =
      found
    split
    · rfl
    · cases found <;> rfl
  · have hscreen : screen n.text = .ok () := by
      rw [screen, hrefusal]
    have hread := compile_eq_ok_iff.mp hcompile
    simp only [resolve, hcleaned, hscreen, findCleaned_single hl hwild hread hstandard, hwild]
    simp [bind, Except.bind, pure, Except.pure]
  · exact (filesNamed_sorted t dir pattern).imp fun hab => Utf8.encode_lt_encode (String.lt_iff.mp hab)
  · obtain ⟨loc, rfl⟩ := hl.exists_location dir hdir
    intro m
    rw [Path.ofLocation_eq]
    exact mem_filesNamed_iff Path.isPiece_of_mem_piecesTo

/-- Directories whose names look like patterns, with others beside them that these
would match. -/
def starTree : FileTree where
  nodes :=
    [([⟨"n*", by decide⟩], .directory), ([⟨"nx", by decide⟩], .directory),
      ([⟨"a1", by decide⟩, ⟨"n*", by decide⟩], .file (.ofBytes []) false),
      ([⟨"a1", by decide⟩, ⟨"nx", by decide⟩], .file (.ofBytes []) false),
      ([⟨"[s]", by decide⟩, ⟨"n*", by decide⟩], .directory),
      ([⟨"a2", by decide⟩, ⟨"[s]", by decide⟩, ⟨"n*", by decide⟩], .link ⟨"../a1"⟩),
      ([⟨"a1", by decide⟩, ⟨"[s]", by decide⟩, ⟨"n*", by decide⟩], .link ⟨"../a1"⟩),
      ([⟨"a3", by decide⟩, ⟨"[s]", by decide⟩, ⟨"n*", by decide⟩], .link ⟨"../a3"⟩)]
  nodup := by decide
  workingDir := []

/-- The layout that they make up. -/
def starLayout : Layout := { root := ⟨"/n*"⟩, subdirs := ["[s]"], standardFiles := [] }

/-- Only the argument is a pattern, and a link that leads nowhere is no file. -/
theorem resolve_lookup_starTree :
    starLayout.IsPlain ∧
      resolve starTree starLayout "./a1" = .ok [⟨"/n*/a1"⟩, ⟨"/n*/[s]/a1"⟩] ∧
      resolve starTree starLayout "a?" =
        .ok ([⟨"/n*"⟩, ⟨"/n*/[s]"⟩].flatMap fun dir : Path =>
          (filesNamed starTree dir [.char 'a', .any]).map fun n => dir.join ⟨n.text⟩) ∧
      ⟨"a2", by decide⟩ ∈ filesNamed starTree ⟨"/n*/[s]"⟩ [.char 'a', .any] ∧
      ⟨"a3", by decide⟩ ∉ filesNamed starTree ⟨"/n*/[s]"⟩ [.char 'a', .any] := by
  have hplain : starLayout.IsPlain := ⟨⟨[⟨"n*", by decide⟩], by decide⟩, by decide⟩
  have hdirs : starLayout.dirs = [⟨"/n*"⟩, ⟨"/n*/[s]"⟩] := by decide
  have hliteral := (resolve_lookup starTree hplain "./a1").1 ⟨"a1"⟩ (by decide) (by decide)
    (by decide)
  have hfiles : (starLayout.dirs.map fun dir => dir.join (Path.stripRoot ⟨"a1"⟩)).filter
      starTree.isFile = [⟨"/n*/a1"⟩, ⟨"/n*/[s]/a1"⟩] := by
    decide +kernel
  have hread : Reads "a?".toList [.char 'a', .any] := .char (by decide) (.any .nil)
  obtain ⟨hsingle, hnames⟩ := (resolve_lookup starTree hplain "a?").2 ⟨"a?", by decide⟩ _
    (by decide) (by decide) (by decide) (compile_eq_ok_iff.mpr hread) (by decide)
  rw [hdirs] at hsingle hnames
  have hmem := fun m => (hnames ⟨"/n*/[s]"⟩ (by simp)).2 m
  refine ⟨hplain, ?_, hsingle, (hmem _).mpr ⟨by decide, by decide +kernel⟩, fun h => ?_⟩
  · rw [hliteral, hfiles]
    rfl
  · exact absurd ((hmem _).mp h).2 (by decide +kernel)

end Include

end ConfTree
