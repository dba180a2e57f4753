import ConfTree.Glob.Search
import ConfTree.Proofs.FileTree.Follow
import ConfTree.Proofs.Glob.Compile

/-!
# Searching for what is spelled out

A piece that stands for one text leads to the entry of that name or nowhere, whether
it is looked up or picked from a list. So a search for such pieces finds one path or
none, and it finds all files that lie there.

1. `StandsFor`: the pieces that stand for one text.
   `pieceStep_cases`, `pieceStep_of_isFile`: where one of them leads.
2. `search_cases`, `search_of_isFile`: where several of them lead.
3. `Spelled.files_eq`: the files that they stand for.
   `filesNamed`, `Spelled.files_listed`: the files that they and a piece that leaves a
   choice stand for.
4. `findFiles_fromRoot`, `findFiles_of_slash`: the text of an absolute pattern.
-/

namespace ConfTree.Glob

variable {t : FileTree} {pattern : Pattern} {piece : List Char} {ps xs ys : List (List Char)}

/-! ## 1. One piece -/

/-- `StandsFor pattern text`: the text is all that the pattern stands for.

* `literal`: the pattern leaves no choice.
* `name`: the pattern is compared with names, and only this one will do. -/
inductive StandsFor : Pattern → List Char → Prop
  | literal {pattern : Pattern} {text : List Char} : pattern.literal? = some text →
      StandsFor pattern text
  | name {pattern : Pattern} (n : Name) : pattern.literal? = none →
      (∀ other, pattern.matches other = true ↔ other = n.text.toList) →
      StandsFor pattern n.text.toList

/-- Only the working directory is left out in front of a name. -/
theorem child_of_isAbsolute {reached : Path} (h : reached.isAbsolute = true) (name : String) :
    child reached name = reached.join ⟨name⟩ := by
  have hother : reached.same ⟨"."⟩ = false := by
    have hdot : (Path.mk ".").components = [.here] := by decide
    rw [Path.same, Path.components_of_isAbsolute h, hdot]
    rfl
  rw [child, hother, if_neg Bool.false_ne_true]

theorem child_fromRoot (ps : List (List Char)) (name : String) :
    child (.fromRoot ps) name = (Path.fromRoot ps).join ⟨name⟩ :=
  child_of_isAbsolute (Path.isAbsolute_fromRoot ps) name

/-- Neither of the special entries has the name that is looked for. -/
theorem specialEntries_eq_nil {n : Name}
    (h : ∀ other, pattern.matches other = true ↔ other = n.text.toList) :
    specialEntries pattern = [] := by
  have hno : ∀ text, text ≠ n.text → pattern.matches text.toList = false := by
    intro text hne
    rw [Bool.eq_false_iff, Ne, h]
    exact fun heq => hne (String.toList_inj.mp heq)
  have hup := hno ".." n.text_ne_up.symm
  have hhere := hno "." n.text_ne_here.symm
  rw [specialEntries]
  split
  · simp only [List.filter_cons, hup, hhere, List.filter_nil, Bool.false_eq_true, ↓reduceIte]
  · rfl

/-- A pattern that only one name will do for picks this name from a list. -/
theorem listingStep_of_matches {n : Name} (reached : Path)
    (h : ∀ other, pattern.matches other = true ↔ other = n.text.toList) :
    listingStep t reached pattern =
      if t.isDirectory reached = true ∧ n ∈ t.entries reached then [child reached n.text]
      else [] := by
  have htest : ∀ m : Name, pattern.matches m.text.toList = (m == n) := by
    intro m
    rw [Bool.eq_iff_iff, h, beq_iff_eq]
    exact ⟨fun hmn => Name.eq_of_text (String.toList_inj.mp hmn), fun hmn => by rw [hmn]⟩
  rw [listingStep, specialEntries_eq_nil h, List.map_nil, List.nil_append]
  simp only [htest]
  rw [List.filter_beq, (t.entries_nodup _).count]
  by_cases hdir : t.isDirectory reached = true
  · by_cases hmem : n ∈ t.entries reached
    · simp [hdir, hmem]
    · simp [hdir, hmem]
  · simp [hdir]

theorem listingStep_of_name {n : Name} (hps : ∀ x ∈ ps, Path.IsPiece x)
    (h : ∀ other, pattern.matches other = true ↔ other = n.text.toList) :
    listingStep t (.fromRoot ps) pattern =
      if t.isDirectory (.fromRoot ps) = true ∧ n ∈ t.entries (.fromRoot ps) then
        [.fromRoot (ps ++ [n.text.toList])]
      else [] := by
  rw [listingStep_of_matches _ h, child_fromRoot, Path.join_name hps]

theorem literalStep_cases (t : FileTree) (reached : Path) (name : String) :
    literalStep t reached name = [] ∨ literalStep t reached name = [child reached name] := by
  unfold literalStep
  dsimp only
  cases (if name == "." || name == ".." then t.isDirectory reached
    else t.present (child reached name)) with
  | true => exact .inr rfl
  | false => exact .inl rfl

/-- A piece that stands for one text leads to the entry of that name, if anywhere. -/
theorem pieceStep_cases (h : StandsFor pattern piece) (hps : ∀ x ∈ ps, Path.IsPiece x)
    (hpiece : Path.IsPiece piece) :
    pieceStep t (.fromRoot ps) pattern = [] ∨
      pieceStep t (.fromRoot ps) pattern = [.fromRoot (ps ++ [piece])] := by
  cases h with
  | literal hliteral =>
    simp only [pieceStep, hliteral]
    have hcases := literalStep_cases t (.fromRoot ps) (String.ofList piece)
    rwa [child_fromRoot, Path.join_piece hps hpiece] at hcases
  | name n hnone hmatches =>
    simp only [pieceStep, hnone]
    rw [listingStep_of_name hps hmatches]
    split
    · exact .inr rfl
    · exact .inl rfl

/-- On the way to a file every piece leads on. -/
theorem pieceStep_of_isFile (h : StandsFor pattern piece) (hps : ∀ x ∈ ps, Path.IsPiece x)
    (hpiece : Path.IsPiece piece) (hys : ∀ x ∈ ys, '/' ∉ x)
    (hfile : t.isFile (.fromRoot (ps ++ piece :: ys)) = true) :
    pieceStep t (.fromRoot ps) pattern = [.fromRoot (ps ++ [piece])] := by
  have hall : ∀ x ∈ ps ++ piece :: ys, '/' ∉ x :=
    List.forall_mem_append.mpr
      ⟨Path.forall_slash_not_mem hps, List.forall_mem_cons.mpr ⟨hpiece.slash_not_mem, hys⟩⟩
  have hdir : t.isDirectory (.fromRoot ps) = true := FileTree.isDirectory_of_isFile hall hfile
  cases h with
  | name n hnone hmatches =>
    simp only [pieceStep, hnone]
    rw [listingStep_of_name hps hmatches,
      if_pos ⟨hdir, FileTree.mem_entries_of_isFile hall hfile (Component.ofPiece_name n)⟩]
  | literal hliteral =>
    simp only [pieceStep, hliteral]
    rw [literalStep, child_fromRoot, Path.join_piece hps hpiece]
    rcases Path.ofPiece_cases hpiece with rfl | rfl | ⟨n, rfl, hname⟩
    · simp [hdir]
    · simp [hdir]
    · have hpresent : t.present (.fromRoot (ps ++ [n.text.toList])) = true :=
        FileTree.present_of_isFile hall hfile hname
      simp [n.text_ne_here, n.text_ne_up, hpresent]

/-! ## 2. Several pieces -/

theorem search_append (t : FileTree) (front behind : List Pattern) (reached : Path) :
    search t (front ++ behind) reached = (search t front reached).flatMap (search t behind) := by
  induction front generalizing reached with
  | nil => simp [search]
  | cons pattern front ih =>
    rw [List.cons_append, search, search, List.flatMap_assoc]
    exact congrArg (List.flatMap · _) (funext ih)

/-- `Spelled patterns xs`: every pattern stands for the piece in its place. -/
inductive Spelled : List Pattern → List (List Char) → Prop
  | nil : Spelled [] []
  | cons {pattern : Pattern} {patterns : List Pattern} {piece : List Char}
      {xs : List (List Char)} : StandsFor pattern piece → Path.IsPiece piece →
      Spelled patterns xs → Spelled (pattern :: patterns) (piece :: xs)

namespace Spelled

variable {patterns more : List Pattern}

theorem isPiece (h : Spelled patterns xs) : ∀ x ∈ xs, Path.IsPiece x := by
  induction h with
  | nil => exact fun _ hx => absurd hx List.not_mem_nil
  | cons _ hpiece _ ih => exact List.forall_mem_cons.mpr ⟨hpiece, ih⟩

theorem append (h : Spelled patterns xs) (h' : Spelled more ys) :
    Spelled (patterns ++ more) (xs ++ ys) := by
  induction h with
  | nil => exact h'
  | cons hstands hpiece _ ih => exact .cons hstands hpiece ih

/-- Pieces that are spelled out lead to one path, or nowhere. -/
theorem search_cases (h : Spelled patterns xs) (hps : ∀ x ∈ ps, Path.IsPiece x) :
    search t patterns (.fromRoot ps) = [] ∨
      search t patterns (.fromRoot ps) = [.fromRoot (ps ++ xs)] := by
  induction h generalizing ps with
  | nil => exact .inr (by simp [search])
  | cons hstands hpiece _ ih =>
    rcases pieceStep_cases (t := t) hstands hps hpiece with hstep | hstep
    · exact .inl (by simp [search, hstep])
    · simpa [search, hstep] using ih (Path.forall_isPiece_concat hps hpiece)

/-- On the way to a file they lead to this path. -/
theorem search_of_isFile (h : Spelled patterns xs) (hps : ∀ x ∈ ps, Path.IsPiece x)
    (hys : ∀ x ∈ ys, '/' ∉ x) (hfile : t.isFile (.fromRoot (ps ++ xs ++ ys)) = true) :
    search t patterns (.fromRoot ps) = [.fromRoot (ps ++ xs)] := by
  induction h generalizing ps with
  | nil => simp [search]
  | @cons _ _ piece xs hstands hpiece hspelled ih =>
    have hrest : ∀ x ∈ xs ++ ys, '/' ∉ x :=
      List.forall_mem_append.mpr ⟨Path.forall_slash_not_mem hspelled.isPiece, hys⟩
    have hstep := pieceStep_of_isFile (t := t) hstands hps hpiece hrest (by simpa using hfile)
    have hnext := ih (Path.forall_isPiece_concat hps hpiece) (by simpa using hfile)
    simpa [search, hstep] using hnext

/-! From the root, the path is made of these pieces alone. -/

theorem search_root_cases (t : FileTree) (h : Spelled patterns xs) :
    search t patterns (.fromRoot []) = [] ∨
      search t patterns (.fromRoot []) = [.fromRoot xs] :=
  h.search_cases (by simp)

theorem search_root_of_isFile (h : Spelled patterns xs) (hys : ∀ x ∈ ys, '/' ∉ x)
    (hfile : t.isFile (.fromRoot (xs ++ ys)) = true) :
    search t patterns (.fromRoot []) = [.fromRoot xs] :=
  h.search_of_isFile (by simp) hys hfile

/-! ## 3. The files that pieces stand for -/

/-- Pieces that are spelled out stand for the file of that path, if there is one. -/
theorem files_eq (h : Spelled patterns xs) :
    (search t patterns (.fromRoot [])).filter t.isFile =
      [Path.fromRoot xs].filter t.isFile := by
  by_cases hfile : t.isFile (.fromRoot xs) = true
  · have hend : t.isFile (.fromRoot (xs ++ [])) = true := by
      rwa [List.append_nil]
    rw [h.search_root_of_isFile (by simp) hend]
  · rcases h.search_root_cases t with hsearch | hsearch
    · simp [hsearch, hfile]
    · rw [hsearch]

end Spelled

/-- The names in a directory that the pattern stands for and that lead to files. -/
def filesNamed (t : FileTree) (dir : Path) (pattern : Pattern) : List Name :=
  (t.entries dir).filter fun n => pattern.matches n.text.toList && t.isFile (dir.join ⟨n.text⟩)

/-- The names come in ascending order. -/
theorem filesNamed_sorted (t : FileTree) (dir : Path) (pattern : Pattern) :
    (filesNamed t dir pattern).Pairwise fun a b => a.text < b.text :=
  (t.entries_sorted dir).sublist List.filter_sublist

/-- The names are all those of files in the directory that the pattern stands for. -/
theorem mem_filesNamed_iff (hxs : ∀ x ∈ xs, Path.IsPiece x) {n : Name} :
    n ∈ filesNamed t (.fromRoot xs) pattern ↔
      pattern.matches n.text.toList = true ∧ t.isFile ((Path.fromRoot xs).join ⟨n.text⟩) = true := by
  rw [filesNamed, List.mem_filter, Bool.and_eq_true]
  refine and_iff_right_of_imp fun ⟨_, hfile⟩ => ?_
  rw [Path.join_name hxs] at hfile
  have hall : ∀ x ∈ xs ++ [n.text.toList], '/' ∉ x :=
    Path.forall_slash_not_mem (Path.forall_isPiece_concat hxs (Path.isPiece_name n))
  exact FileTree.mem_entries_of_isFile hall hfile (Component.ofPiece_name n)

/-- Where a name leads to a file, a directory lies above. -/
theorem isDirectory_of_mem_filesNamed (hxs : ∀ x ∈ xs, Path.IsPiece x) {n : Name}
    (h : n ∈ filesNamed t (.fromRoot xs) pattern) : t.isDirectory (.fromRoot xs) = true := by
  obtain ⟨_, hfile⟩ := (mem_filesNamed_iff hxs).mp h
  rw [Path.join_name hxs] at hfile
  have hall : ∀ x ∈ xs ++ [n.text.toList], '/' ∉ x :=
    Path.forall_slash_not_mem (Path.forall_isPiece_concat hxs (Path.isPiece_name n))
  exact FileTree.isDirectory_of_isFile hall hfile

/-- The special entries lead to no files. -/
theorem isFile_special (hxs : ∀ x ∈ xs, Path.IsPiece x) {name : String}
    (h : name ∈ specialEntries pattern) :
    t.isFile ((Path.fromRoot xs).join ⟨name⟩) = false := by
  have hname : name = ".." ∨ name = "." := by
    unfold specialEntries at h
    split at h
    · simpa using (List.mem_filter.mp h).1
    · cases h
  have hdots : ∀ dots : List Char, Path.IsPiece dots →
      Component.ofPiece dots = .here ∨ Component.ofPiece dots = .up →
      t.isFile ((Path.fromRoot xs).join ⟨String.ofList dots⟩) = false := by
    intro dots hpiece hstep
    rw [Path.join_piece hxs hpiece]
    exact FileTree.isFile_eq_false
      (Path.forall_slash_not_mem (Path.forall_isPiece_concat hxs hpiece)) hstep
  rcases hname with rfl | rfl
  · exact hdots ['.', '.'] ⟨by simp, by decide⟩ (.inr (by decide))
  · exact hdots ['.'] ⟨by simp, by decide⟩ (.inl (by decide))

/-- A piece that leaves a choice stands for these files, and for no special entry. -/
theorem files_listingStep (hxs : ∀ x ∈ xs, Path.IsPiece x) (pattern : Pattern) :
    (listingStep t (.fromRoot xs) pattern).filter t.isFile =
      (filesNamed t (.fromRoot xs) pattern).map fun n => (Path.fromRoot xs).join ⟨n.text⟩ := by
  by_cases hdir : t.isDirectory (.fromRoot xs) = true
  · have hspecial : ((specialEntries pattern).map fun name =>
        (Path.fromRoot xs).join ⟨name⟩).filter t.isFile = [] := by
      rw [List.filter_eq_nil_iff]
      intro p hp
      obtain ⟨name, hname, rfl⟩ := List.mem_map.mp hp
      rw [isFile_special hxs hname]
      exact Bool.false_ne_true
    rw [listingStep, if_pos hdir, List.filter_append, hspecial, List.nil_append, List.filter_map,
      List.filter_filter, filesNamed]
    simp only [child_fromRoot, Function.comp_def, Bool.and_comm]
  · have hnone : filesNamed t (.fromRoot xs) pattern = [] := by
      rw [List.eq_nil_iff_forall_not_mem]
      exact fun n hn => hdir (isDirectory_of_mem_filesNamed hxs hn)
    rw [listingStep, if_neg hdir, hnone]
    rfl

/-- Behind pieces that are spelled out, a piece that leaves a choice stands for the
files of the directory that they lead to. -/
theorem Spelled.files_listed {patterns : List Pattern} (h : Spelled patterns xs)
    (hnone : pattern.literal? = none) :
    (search t (patterns ++ [pattern]) (.fromRoot [])).filter t.isFile =
      (filesNamed t (.fromRoot xs) pattern).map fun n => (Path.fromRoot xs).join ⟨n.text⟩ := by
  have hlast : ∀ reached, search t [pattern] reached = listingStep t reached pattern := by
    intro reached
    simp [search, pieceStep, hnone]
  rw [search_append]
  rcases h.search_root_cases t with hsearch | hsearch
  · -- Nothing is found, so no name leads to a file.
    have hempty : filesNamed t (.fromRoot xs) pattern = [] := by
      rw [List.eq_nil_iff_forall_not_mem]
      intro n hn
      obtain ⟨_, hfile⟩ := (mem_filesNamed_iff h.isPiece).mp hn
      rw [Path.join_name h.isPiece] at hfile
      have hfound := h.search_root_of_isFile (by simpa using n.slash_not_mem) hfile
      simp [hfound] at hsearch
    rw [hsearch, hempty]
    rfl
  · rw [hsearch, List.flatMap_singleton, hlast]
    exact files_listingStep h.isPiece pattern

/-! ## 4. The text of a pattern -/

section Texts

variable {texts : List (List Char)} {patterns : List Pattern}

/-- A text of pieces ends in a character of the last. -/
theorem exists_intercalate_eq (hslash : ∀ x ∈ texts, '/' ∉ x) (hne : texts ≠ [])
    (hend : texts.getLast? ≠ some []) :
    ∃ init c, ['/'].intercalate texts = init ++ [c] ∧ c ≠ '/' := by
  obtain ⟨front, last, rfl⟩ := (List.eq_nil_or_concat texts).resolve_left hne
  have hlast : last ≠ [] := fun hnil => hend (by simp [hnil])
  obtain ⟨init, c, rfl⟩ := (List.eq_nil_or_concat last).resolve_left hlast
  have hc : c ≠ '/' := fun heq => hslash (init.concat c) (by simp) (by simp [heq])
  by_cases hfront : front = []
  · exact ⟨init, c, by simp [hfront], hc⟩
  · refine ⟨['/'].intercalate front ++ ['/'] ++ init, c, ?_, hc⟩
    rw [List.concat_eq_append, Path.intercalate_concat hfront]
    simp

theorem splitPieces_intercalate (hslash : ∀ x ∈ texts, '/' ∉ x) (hne : texts ≠ [])
    (hend : texts.getLast? ≠ some []) : splitPieces (['/'].intercalate texts) = texts := by
  obtain ⟨init, c, htext, _⟩ := exists_intercalate_eq hslash hne hend
  have hsplit : (['/'].intercalate texts).splitOn '/' = texts :=
    List.splitOn_intercalate '/' hslash hne
  have hempty : (['/'].intercalate texts).isEmpty = false := by
    simp [htext]
  simp only [splitPieces, hsplit, hempty, Bool.false_eq_true, ↓reduceIte, if_neg hend]

/-- The pieces of an absolute pattern are read one by one and searched from the root. -/
theorem findFiles_fromRoot (h : ReadsAll texts patterns) (hslash : ∀ x ∈ texts, '/' ∉ x)
    (hne : texts ≠ []) (hend : texts.getLast? ≠ some []) :
    findFiles t (Path.fromRoot texts).text =
      .ok ((search t patterns (.fromRoot [])).filter t.isFile) := by
  have hchars := Path.toList_fromRoot texts
  obtain ⟨whole, hwhole⟩ := Reads.exists_intercalate (c := '/') (by decide) h.exists_reads
  have hcompile : compile ('/' :: ['/'].intercalate texts) = .ok (.char '/' :: whole) :=
    compile_eq_ok_iff.mpr (.char (by decide) hwhole)
  have hlast : (('/' :: ['/'].intercalate texts).getLast? == some '/') = false := by
    obtain ⟨init, c, htext, hc⟩ := exists_intercalate_eq hslash hne hend
    rw [htext, ← List.cons_append, List.getLast?_concat]
    simpa using hc
  have hquery : Query.ofText (Path.fromRoot texts).text =
      .ok { scope := .fromRoot [], pieces := patterns, wantsDirectory := false } := by
    simp only [Query.ofText, hchars, hcompile, hlast, List.head?_cons, beq_self_eq_true,
      ↓reduceIte, List.drop_one, List.tail_cons, splitPieces_intercalate hslash hne hend,
      h.mapM_compile]
    rfl
  rw [findFiles, hquery]
  simp [bind, Except.bind, pure, Except.pure, Query.run]

/-- A search from the root that is made at all is one for the pieces of the text. -/
theorem exists_readsAll_of_findFiles {files : List Path} (hslash : ∀ x ∈ texts, '/' ∉ x)
    (hne : texts ≠ []) (hend : texts.getLast? ≠ some [])
    (h : findFiles t (Path.fromRoot texts).text = .ok files) :
    ∃ patterns, ReadsAll texts patterns ∧
      files = (search t patterns (.fromRoot [])).filter t.isFile := by
  have hchars := Path.toList_fromRoot texts
  obtain ⟨q, hq, -⟩ := bind_eq_ok_iff.mp h
  obtain ⟨whole, -, hq⟩ := bind_eq_ok_iff.mp hq
  obtain ⟨patterns, hpatterns, -⟩ := bind_eq_ok_iff.mp hq
  have hreads : ReadsAll texts patterns := by
    simp only [hchars, List.head?_cons, beq_self_eq_true, ↓reduceIte, List.drop_one,
      List.tail_cons, splitPieces_intercalate hslash hne hend] at hpatterns
    exact .of_mapM_compile hpatterns
  rw [findFiles_fromRoot hreads hslash hne hend] at h
  cases h
  exact ⟨patterns, hreads, rfl⟩

/-- Nothing is both a file and a directory. -/
theorem isFile_eq_false_of_isDirectory {p : Path} (h : t.isDirectory p = true) :
    t.isFile p = false := by
  rw [Bool.eq_false_iff]
  intro hfile
  obtain ⟨loc, hloc, hdir⟩ := FileTree.isDirectory_iff.mp h
  obtain ⟨loc', node, hloc', hnode, hnodeFile⟩ := FileTree.isFile_iff.mp hfile
  rw [hloc] at hloc'
  cases hloc'
  rw [FileTree.isDirectoryAt, hnode] at hdir
  cases node <;> simp [Node.isFile, Node.isDirectory] at hnodeFile hdir

/-- Where directories are wanted, no files are found. -/
theorem files_of_wantsDirectory {q : Query} (h : q.wantsDirectory = true) :
    (q.run t).filter t.isFile = [] := by
  rw [Query.run, h, List.filter_filter, List.filter_eq_nil_iff]
  intro p _ hboth
  rw [Bool.and_eq_true] at hboth
  rw [isFile_eq_false_of_isDirectory (by simpa using hboth.2)] at hboth
  exact Bool.false_ne_true hboth.1

theorem splitPieces_slash (htexts : ∀ x ∈ texts, Path.IsPiece x) :
    splitPieces (['/'].intercalate (texts ++ [[]])) = if texts = [] then [[]] else texts := by
  have hall : ∀ x ∈ texts ++ [[]], '/' ∉ x :=
    List.forall_mem_append.mpr ⟨Path.forall_slash_not_mem htexts, by simp⟩
  have hsplit : (['/'].intercalate (texts ++ [[]])).splitOn '/' = texts ++ [[]] :=
    List.splitOn_intercalate '/' hall (by simp)
  by_cases hne : texts = []
  · subst hne
    rfl
  · have hempty : (['/'].intercalate (texts ++ [[]])).isEmpty = false := by
      rw [Path.intercalate_concat hne]
      simp
    simp only [splitPieces, hsplit, hempty, Bool.false_eq_true, ↓reduceIte, List.getLast?_concat,
      List.dropLast_concat, if_neg hne]

/-- A pattern that ends in a separator stands for directories, and so for no files. -/
theorem findFiles_of_slash (h : ReadsAll texts patterns) (htexts : ∀ x ∈ texts, Path.IsPiece x) :
    findFiles t (Path.fromRoot (texts ++ [[]])).text = .ok [] := by
  have hchars := Path.toList_fromRoot (texts ++ [[]])
  have hall : ReadsAll (texts ++ [[]]) (patterns ++ [[]]) := h.append (.cons .nil .nil)
  obtain ⟨whole, hwhole⟩ := Reads.exists_intercalate (c := '/') (by decide) hall.exists_reads
  have hcompile : compile ('/' :: ['/'].intercalate (texts ++ [[]])) = .ok (.char '/' :: whole) :=
    compile_eq_ok_iff.mpr (.char (by decide) hwhole)
  obtain ⟨pieces, hpieces⟩ : ∃ pieces, (if texts = [] then [[]] else texts).mapM compile = .ok pieces := by
    split
    · exact ⟨_, ReadsAll.mapM_compile (.cons .nil .nil)⟩
    · exact ⟨_, h.mapM_compile⟩
  have hlast : (('/' :: ['/'].intercalate (texts ++ [[]])).getLast? == some '/') = true := by
    by_cases hne : texts = []
    · subst hne
      rfl
    · rw [Path.intercalate_concat hne, List.append_nil, ← List.cons_append, List.getLast?_concat]
      rfl
  have hquery : Query.ofText (Path.fromRoot (texts ++ [[]])).text =
      .ok { scope := .fromRoot [], pieces, wantsDirectory := true } := by
    simp only [Query.ofText, hchars, hcompile, hlast, List.head?_cons, beq_self_eq_true,
      ↓reduceIte, List.drop_one, List.tail_cons, splitPieces_slash htexts, hpieces]
    rfl
  rw [findFiles, hquery]
  exact congrArg Except.ok (files_of_wantsDirectory rfl)

/-- A search that is made at all for a pattern that ends in a separator finds no file. -/
theorem files_eq_nil_of_findFiles {text : String} {files : List Path}
    (hlast : text.toList.getLast? = some '/') (h : findFiles t text = .ok files) : files = [] := by
  obtain ⟨q, hq, h⟩ := bind_eq_ok_iff.mp h
  obtain ⟨whole, -, hq⟩ := bind_eq_ok_iff.mp hq
  obtain ⟨patterns, -, hq⟩ := bind_eq_ok_iff.mp hq
  cases hq
  cases h
  exact files_of_wantsDirectory (by simp [hlast])

end Texts

end ConfTree.Glob
