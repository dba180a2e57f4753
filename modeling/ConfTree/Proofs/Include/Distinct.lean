import ConfTree.Proofs.FileTree.Canonical
import ConfTree.Proofs.Include.Containment
import ConfTree.Proofs.Include.Readings

/-!
# No file is found twice

Where no piece climbs, a search only goes down by names once it has gone up by the `..` that
the argument starts with. So two paths that it finds in one directory differ in a name, and
those that it finds in two directories lie below different places, unless these directories
have become one on the way up.

1. `search_apart`: one search finds no file twice.
2. `exists_names_of_mem_search`: where a search for names leads.
3. `find_apart`: one pattern of a lookup.
4. `resolve_distinct`: what an argument stands for in a tree without links.
-/

namespace ConfTree

namespace Glob

variable {t : FileTree} {pattern : Pattern} {patterns front : List Pattern}
  {reached p q : Path} {place : List Name}

/-! ## 1. One search -/

/-- All pieces but the last lead to entries only. -/
def Descends (patterns : List Pattern) : Prop :=
  ∀ pattern ∈ patterns.dropLast, ∀ c, Leads pattern c → ∃ n, c = .name n

/-- No piece leads on by more than a piece. -/
def NoSlash (patterns : List Pattern) : Prop :=
  ∀ pattern ∈ patterns, ∀ text, pattern.literal? = some text → '/' ∉ text

/-- Files are found apart if their paths say so. -/
def Apart (t : FileTree) (place : List Name) (p q : Path) : Prop :=
  t.isFile p = true → t.isFile q = true → p.act place ≠ q.act place

theorem Descends.tail (h : Descends (pattern :: patterns)) : Descends patterns := by
  cases patterns with
  | nil => exact fun _ hmem => absurd hmem List.not_mem_nil
  | cons next patterns => exact fun other hother => h other (List.mem_cons_of_mem _ hother)

/-- Behind a place, pieces that lead to entries lead to a file by one name for each. -/
theorem exists_names_of_mem_search (habs : reached.isAbsolute = true) (hslash : NoSlash patterns)
    (hdesc : Descends patterns) (h : p ∈ search t patterns reached) (hfile : t.isFile p = true) :
    ∃ names : List Name, names.length = patterns.length ∧
      ∀ place, p.act place = names ++ reached.act place := by
  obtain ⟨hpAbs, cs, hcs, hlast, hact⟩ := of_mem_search habs hslash h
  have hnames : ∃ names : List Name, cs = names.map .name := by
    have hend (hne : patterns ≠ []) := exists_getLast?_name hpAbs hfile hcs hne hlast
    clear hlast hact h hslash
    induction hcs with
    | nil => exact ⟨[], rfl⟩
    | @cons pattern c patterns cs hc hcs ih =>
      cases hcs with
      | nil =>
        obtain ⟨n, hn⟩ := hend (List.cons_ne_nil _ _)
        cases hn
        exact ⟨[n], rfl⟩
      | @cons next c' patterns cs hc' hcs =>
        obtain ⟨n, rfl⟩ := hdesc pattern (by simp) c hc
        obtain ⟨names, hnames⟩ := ih hdesc.tail fun _ => by
          simpa only [List.getLast?_cons_cons] using hend (List.cons_ne_nil _ _)
        exact ⟨n :: names, by rw [hnames]; rfl⟩
  obtain ⟨names, rfl⟩ := hnames
  refine ⟨names.reverse, by simpa using hcs.length_eq.symm, fun place => ?_⟩
  rw [hact]
  exact Path.foldl_act_route 0 names _

/-- No file is found by way of a special entry. -/
theorem isFile_of_mem_search_special (habs : reached.isAbsolute = true)
    (hdesc : Descends (pattern :: patterns)) (hnone : pattern.literal? = none) {name : String}
    (hname : name ∈ specialEntries pattern) (h : p ∈ search t patterns (reached.join ⟨name⟩)) :
    t.isFile p = false := by
  have hslash : '/' ∉ name.toList := by
    rcases (mem_specialEntries hname).1 with rfl | rfl <;> decide
  have hstep : Component.ofPiece name.toList = .here ∨ Component.ofPiece name.toList = .up := by
    rcases (mem_specialEntries hname).1 with rfl | rfl
    · exact .inr (by decide)
    · exact .inl (by decide)
  cases patterns with
  | nil =>
    obtain ⟨hnext, hlast, -⟩ := join_piece_of_isAbsolute habs hslash
    rw [String.ofList_toList] at hnext hlast
    rw [search, List.mem_singleton] at h
    exact h ▸ FileTree.isFile_eq_false_of_steps hnext hlast hstep
  | cons next patterns =>
    obtain ⟨n, hn⟩ := hdesc pattern (by simp) _ (.special hnone hname)
    rcases hstep with hstep | hstep <;> rw [hstep] at hn <;> cases hn

/-- Files that are found by way of two entries are found apart. -/
theorem apart_of_mem_search_entries (habs : reached.isAbsolute = true) (hslash : NoSlash patterns)
    (hdesc : Descends patterns) {m n : Name} (hne : m ≠ n)
    (hp : p ∈ search t patterns (child reached m.text))
    (hq : q ∈ search t patterns (child reached n.text)) : Apart t place p q := by
  intro hpFile hqFile hact
  have hchild (n : Name) : (child reached n.text).isAbsolute = true ∧
      (child reached n.text).act place = n :: reached.act place := by
    rw [child_of_isAbsolute habs]
    exact ⟨(Path.isAbsolute_join (Path.isAbsolute_name n)).trans habs,
      Path.act_join_name reached n place⟩
  obtain ⟨front, hfront, hpAct⟩ :=
    exists_names_of_mem_search (hchild m).1 hslash hdesc hp hpFile
  obtain ⟨front', hfront', hqAct⟩ :=
    exists_names_of_mem_search (hchild n).1 hslash hdesc hq hqFile
  rw [hpAct, hqAct, (hchild m).2, (hchild n).2] at hact
  exact hne (List.cons.inj (List.append_inj hact (hfront.trans hfront'.symm)).2).1

theorem pairwise_of_length_le {α : Type} {R : α → α → Prop} {xs : List α} (h : xs.length ≤ 1) :
    xs.Pairwise R := by
  match xs, h with
  | [], _ => exact .nil
  | [x], _ => exact List.pairwise_singleton R x

/-- A search that leads to entries only finds no file twice. -/
theorem search_apart (habs : reached.isAbsolute = true) (hslash : NoSlash patterns)
    (hdesc : Descends patterns) : (search t patterns reached).Pairwise (Apart t place) := by
  induction patterns generalizing reached with
  | nil => exact List.pairwise_singleton _ _
  | cons pattern patterns ih =>
    obtain ⟨hfirst, hrest⟩ := List.forall_mem_cons.mp hslash
    rw [search, List.pairwise_flatMap]
    refine ⟨fun next h => ih (of_mem_pieceStep habs hfirst h).1 hrest hdesc.tail, ?_⟩
    unfold pieceStep
    cases hliteral : pattern.literal? with
    | some text =>
      refine pairwise_of_length_le ?_
      rcases literalStep_cases t reached (String.ofList text) with h | h <;> simp [h]
    | none =>
      dsimp only
      unfold listingStep
      split
      · rw [List.pairwise_append]
        -- Of the special entries nothing is found that is a file.
        have hspecial {next : Path}
            (hnext : next ∈ (specialEntries pattern).map fun name => reached.join ⟨name⟩)
            (p : Path) (hp : p ∈ search t patterns next) : t.isFile p = false := by
          obtain ⟨name, hname, rfl⟩ := List.mem_map.mp hnext
          exact isFile_of_mem_search_special habs hdesc hliteral hname hp
        refine ⟨?_, ?_, fun next hnext _ _ p hp q _ hpFile => ?_⟩
        · refine List.Pairwise.imp_of_mem (R := fun _ _ => True)
            (fun hnext _ _ p hp q _ hpFile => ?_) (List.pairwise_of_forall fun _ _ => trivial)
          exact absurd hpFile (by simp [hspecial hnext p hp])
        · rw [List.pairwise_map]
          refine ((t.entries_nodup reached).filter _).imp fun hne p hp q hq => ?_
          exact apart_of_mem_search_entries habs hrest hdesc.tail hne hp hq
        · exact absurd hpFile (by simp [hspecial hnext p hp])
      · exact .nil

/-- Behind pieces that lead on in one way, too. -/
theorem search_apart_append (habs : reached.isAbsolute = true) (hfront : NoSlash front)
    (hone : ∀ pattern ∈ front, ∀ reached, (pieceStep t reached pattern).length ≤ 1)
    (hslash : NoSlash patterns) (hdesc : Descends patterns) :
    (search t (front ++ patterns) reached).Pairwise (Apart t place) := by
  induction front generalizing reached with
  | nil => exact search_apart habs hslash hdesc
  | cons pattern front ih =>
    obtain ⟨hfirst, hrest⟩ := List.forall_mem_cons.mp hfront
    obtain ⟨hfirstOne, hrestOne⟩ := List.forall_mem_cons.mp hone
    rw [List.cons_append, search, List.pairwise_flatMap]
    exact ⟨fun next h => ih (of_mem_pieceStep habs hfirst h).1 hrest hrestOne,
      pairwise_of_length_le (hfirstOne reached)⟩

/-! ## 2. Steps up -/

/-- The patterns of some `..`. -/
def upPatterns (ups : Nat) : List Pattern := List.replicate ups [.char '.', .char '.']

theorem readsAll_upPatterns (ups : Nat) :
    ReadsAll (List.replicate ups ['.', '.']) (upPatterns ups) := by
  induction ups with
  | zero => exact .nil
  | succ ups ih => exact .cons (.ofPlain (by simp [isWildcard])) ih

/-- A search for `..` goes up from a directory. -/
theorem of_mem_search_ups {ups : Nat} (habs : reached.isAbsolute = true)
    (h : p ∈ search t (upPatterns ups) reached) :
    p.isAbsolute = true ∧ (∀ place, p.act place = (reached.act place).drop ups) ∧
      (0 < ups → t.isDirectory reached = true) := by
  induction ups generalizing reached with
  | zero =>
    rw [upPatterns, List.replicate_zero, search, List.mem_singleton] at h
    subst h
    exact ⟨habs, fun _ => rfl, fun hpos => absurd hpos (Nat.lt_irrefl 0)⟩
  | succ ups ih =>
    have hslash : '/' ∉ ['.', '.'] := by decide
    obtain ⟨hnext, -, hact⟩ := join_piece_of_isAbsolute habs hslash
    rw [upPatterns, List.replicate_succ, search, List.mem_flatMap] at h
    obtain ⟨next, hstep, hp⟩ := h
    have hdir : t.isDirectory reached = true ∧ next = reached.join ⟨".."⟩ := by
      change next ∈ literalStep t reached ".." at hstep
      have hdots : (".." == "." || ".." == "..") = true := by decide
      rw [literalStep, child_of_isAbsolute habs, if_pos hdots] at hstep
      split at hstep
      · next hdir => exact ⟨hdir, List.mem_singleton.mp hstep⟩
      · cases hstep
    obtain ⟨hdir, rfl⟩ := hdir
    obtain ⟨hpAbs, hpAct, -⟩ := ih hnext hp
    refine ⟨hpAbs, fun place => ?_, fun _ => hdir⟩
    have hup : (reached.join ⟨".."⟩).act place = (reached.act place).tail := hact place
    rw [hpAct, hup, List.drop_tail]

/-- Names that do not climb lead to entries. -/
theorem descends_of_readsAll {names : List Name}
    (hreads : ReadsAll (names.map fun n => n.text.toList) patterns)
    (hclimb : ∀ piece ∈ (names.map fun n => n.text.toList).dropLast, climbs piece = false) :
    Descends patterns := by
  induction names generalizing patterns with
  | nil =>
    cases hreads
    exact fun _ hmem => absurd hmem List.not_mem_nil
  | cons n names ih =>
    rw [List.map_cons] at hreads
    cases hreads with
    | cons hread hreads =>
      cases names with
      | nil =>
        cases hreads
        exact fun _ hmem => absurd hmem List.not_mem_nil
      | cons next names =>
        rw [List.map_cons, List.map_cons, List.dropLast_cons_cons] at hclimb
        obtain ⟨hfirst, hrest⟩ := List.forall_mem_cons.mp hclimb
        have hbehind := ih hreads hrest
        cases hreads with
        | cons hread' hreads =>
          unfold Descends
          rw [List.dropLast_cons_cons]
          exact List.forall_mem_cons.mpr
            ⟨fun c hc => exists_name_of_leads hread hfirst hc, hbehind⟩

end Glob

namespace Include

open Glob

variable {t : FileTree} {base argument p : Path} {files : List Path}

/-! ## 3. One pattern -/

/-- The patterns in front of the names of an argument: those of the directory, and of the
`..` that the argument starts with. -/
def frontPatterns (front : List (List Char)) (ups : Nat) : List Pattern :=
  escapedAll front ++ upPatterns ups

section Front

variable {front : List (List Char)} {ups : Nat}

/-- They are all spelled out. -/
theorem exists_standsFor (hslash : ∀ piece ∈ front, '/' ∉ piece) (ups : Nat) :
    ∀ pattern ∈ frontPatterns front ups, ∃ piece, '/' ∉ piece ∧ StandsFor pattern piece := by
  intro pattern hpattern
  rcases List.mem_append.mp hpattern with hmem | hmem
  · obtain ⟨piece, hpiece, rfl⟩ := List.mem_map.mp hmem
    exact ⟨piece, hslash piece hpiece, standsFor_escapedItems (hslash piece hpiece)⟩
  · rw [List.eq_of_mem_replicate hmem]
    exact ⟨['.', '.'], by decide, .literal rfl⟩

/-- They lead to the directory, and up from it if it is one. -/
theorem of_mem_search_front (ht : t.LinkFree) (hslash : ∀ piece ∈ front, '/' ∉ piece)
    (hfront : ∀ place, (front.map Component.ofPiece).foldl (fun place c => c.act place) [] =
      base.act place)
    (h : p ∈ search t (frontPatterns front ups) (.fromRoot [])) :
    p.isAbsolute = true ∧ (∀ place, p.act place = (base.act place).drop ups) ∧
      (0 < ups → t.isDirectoryAt (base.act t.workingDir) = true) := by
  rw [frontPatterns, search_append, List.mem_flatMap] at h
  obtain ⟨dir, hdir, h⟩ := h
  obtain ⟨hdirAbs, hdirAct⟩ := of_mem_search_escapedAll hslash hdir
  obtain ⟨habs, hact, hisDir⟩ := of_mem_search_ups hdirAbs h
  have hbase (place : List Name) : dir.act place = base.act place :=
    (hdirAct place).trans (hfront place)
  refine ⟨habs, fun place => by rw [hact, hbase], fun hpos => ?_⟩
  rw [← hbase]
  exact (ht.locate_of_isDirectory (hisDir hpos)).2

end Front

/-- What one pattern finds, by absolute paths: no file twice, all as far below the directory as
the argument has names, and nothing above a directory that is none. -/
structure FindsApart (t : FileTree) (base argument : Path) (files : List Path) : Prop where
  apart : files.Pairwise fun p q => p.act t.workingDir ≠ q.act t.workingDir
  isFile : ∀ p ∈ files, t.isFile p = true
  isAbsolute : ∀ p ∈ files, p.isAbsolute = true
  below : ∀ p ∈ files, ∃ names : List Name,
    argument.clean.ups + names.length = argument.clean.stripRoot.pieces.length ∧
      p.act t.workingDir = names ++ (base.act t.workingDir).drop argument.clean.ups
  directory : 0 < argument.clean.ups → files ≠ [] →
    t.isDirectoryAt (base.act t.workingDir) = true

theorem findsApart_nil : FindsApart t base argument [] :=
  ⟨.nil, by simp, by simp, by simp, by simp⟩

/-- A search for names, behind a directory and steps up from it. -/
theorem findsApart_search (ht : t.LinkFree) {front : List (List Char)}
    {patterns : List Pattern} {names : List Name} (hslash : ∀ piece ∈ front, '/' ∉ piece)
    (hfront : ∀ place, (front.map Component.ofPiece).foldl (fun place c => c.act place) [] =
      base.act place)
    (hpieces : argument.clean.stripRoot.pieces =
      List.replicate argument.clean.ups ['.', '.'] ++ names.map fun n => n.text.toList)
    (hreads : ReadsAll (names.map fun n => n.text.toList) patterns) (hdesc : Descends patterns) :
    FindsApart t base argument
      ((search t (frontPatterns front argument.clean.ups ++ patterns) (.fromRoot [])).filter
        t.isFile) := by
  have hnameSlash : NoSlash patterns := hreads.slash_not_mem_literal fun x hx => by
    obtain ⟨n, -, rfl⟩ := List.mem_map.mp hx
    exact n.slash_not_mem
  have hfound {p : Path}
      (hp : p ∈ search t (frontPatterns front argument.clean.ups ++ patterns) (.fromRoot [])) :
      ∃ mid ∈ search t (frontPatterns front argument.clean.ups) (.fromRoot []),
        p ∈ search t patterns mid := by
    rwa [search_append, List.mem_flatMap] at hp
  refine ⟨?_, fun p hp => (List.mem_filter.mp hp).2, fun p hp => ?_, fun p hp => ?_,
    fun hpos hne => ?_⟩
  · have hspelled := exists_standsFor hslash argument.clean.ups
    have hapart : (search t (frontPatterns front argument.clean.ups ++ patterns)
        (.fromRoot [])).Pairwise (Apart t t.workingDir) := by
      refine search_apart_append (Path.isAbsolute_fromRoot [])
        (fun pattern hpattern text htext => ?_) (fun pattern hpattern reached => ?_) hnameSlash hdesc
      · obtain ⟨piece, hpiece, hstands⟩ := hspelled pattern hpattern
        rwa [hstands.literal?_eq htext]
      · obtain ⟨piece, -, hstands⟩ := hspelled pattern hpattern
        exact hstands.length_pieceStep_le t reached
    exact (hapart.filter _).imp_of_mem fun hp hq h =>
      h (List.mem_filter.mp hp).2 (List.mem_filter.mp hq).2
  · obtain ⟨mid, hmem, hp⟩ := hfound (List.mem_filter.mp hp).1
    obtain ⟨hmidAbs, -⟩ := of_mem_search_front ht hslash hfront hmem
    exact (of_mem_search hmidAbs hnameSlash hp).1
  · obtain ⟨hp, hfile⟩ := List.mem_filter.mp hp
    obtain ⟨mid, hmem, hp⟩ := hfound hp
    obtain ⟨hmidAbs, hmidAct, -⟩ := of_mem_search_front ht hslash hfront hmem
    obtain ⟨below, hbelow, hact⟩ := exists_names_of_mem_search hmidAbs hnameSlash hdesc hp hfile
    refine ⟨below, ?_, by rw [hact, hmidAct]⟩
    rw [hpieces, hbelow, ← hreads.length_eq, List.length_append, List.length_replicate]
  · obtain ⟨p, hp⟩ := List.exists_mem_of_ne_nil _ hne
    obtain ⟨mid, hmem, -⟩ := hfound (List.mem_filter.mp hp).1
    exact (of_mem_search_front ht hslash hfront hmem).2.2 hpos

theorem findsApart_of_find (ht : t.LinkFree) (habs : base.isAbsolute = true)
    (hclimb : ∀ piece ∈ argument.clean.stripRoot.pieces.dropLast, climbs piece = false)
    (h : find t ((escapedPath base).join argument.clean.stripRoot).text = .ok files) :
    FindsApart t base argument files := by
  obtain ⟨hrel, -, -⟩ := argument.stripRoot_clean_cases
  have hidle {piece : List Char} (hpiece : piece = [] ∨ piece = ['.'])
      (hpieces : argument.clean.stripRoot.pieces = [piece]) : files = [] := by
    refine List.eq_nil_iff_forall_not_mem.mpr fun p hp => ?_
    obtain ⟨-, -, patterns, cs, hreads, hcs, ⟨n, hn⟩, -⟩ := of_mem_find habs hrel h hp
    rw [hpieces] at hreads
    exact not_leads_idle hpiece hreads hcs n hn
  rcases argument.pieces_stripRoot_clean with hpieces | hpieces | ⟨names, hpieces⟩
  · exact hidle (.inl rfl) hpieces ▸ findsApart_nil
  · exact hidle (.inr rfl) hpieces ▸ findsApart_nil
  rcases search_of_find habs hrel h with rfl | ⟨front, all, hslash, hfront, hreads, rfl⟩
  · exact findsApart_nil
  rw [hpieces] at hreads
  obtain ⟨ups, patterns, rfl, hups, hnames⟩ := hreads.exists_append
  have hdesc : Descends patterns := by
    refine descends_of_readsAll hnames fun piece hpiece => hclimb piece ?_
    have hne : (names.map fun n => n.text.toList) ≠ [] := by
      intro hnil
      simp [hnil] at hpiece
    rw [hpieces, List.dropLast_append_of_ne_nil hne]
    exact List.mem_append_right _ hpiece
  rw [hups.unique (readsAll_upPatterns _), ← List.append_assoc]
  exact findsApart_search ht hslash hfront hpieces hnames hdesc

/-! ## 4. Arguments -/

/-- The directories of the layout that exist lead to different places, some steps up. -/
def PartAbove (t : FileTree) (l : Layout) (ups : Nat) : Prop :=
  (((l.dirs.map fun dir => dir.act t.workingDir).filter t.isDirectoryAt).map
    fun loc => loc.drop ups).Nodup

theorem partAbove_iff {l : Layout} {ups : Nat} :
    PartAbove t l ups ↔ l.dirs.Pairwise fun dir dir' =>
      t.isDirectoryAt (dir.act t.workingDir) = true →
      t.isDirectoryAt (dir'.act t.workingDir) = true →
      (dir.act t.workingDir).drop ups ≠ (dir'.act t.workingDir).drop ups := by
  unfold PartAbove List.Nodup
  rw [List.pairwise_map, List.pairwise_filter, List.pairwise_map]

/-- The directories themselves are different places. -/
theorem dirs_apart {l : Layout} (hsub : ∀ dir ∈ l.subdirs, isName dir = true)
    (hnodup : l.subdirs.Nodup) (place : List Name) :
    l.dirs.Pairwise fun dir dir' => dir.act place ≠ dir'.act place := by
  have hact (dir : String) (hdir : dir ∈ l.subdirs) :
      (l.root.join ⟨dir⟩).act place = ⟨dir, hsub dir hdir⟩ :: l.root.act place :=
    Path.act_join_name l.root ⟨dir, hsub dir hdir⟩ place
  rw [Layout.dirs, List.pairwise_cons, List.pairwise_map]
  refine ⟨fun dir hdir heq => ?_, hnodup.imp_of_mem fun {dir dir'} hdir hdir' hne heq => ?_⟩
  · obtain ⟨name, hname, rfl⟩ := List.mem_map.mp hdir
    have hlength := congrArg List.length heq
    rw [hact name hname, List.length_cons] at hlength
    omega
  · rw [hact dir hdir, hact dir' hdir'] at heq
    exact hne (Name.mk.inj (List.cons.inj heq).1)

/-- Files that are found in two directories are different ones, if the directories part. -/
theorem FindsApart.across {dir dir' : Path} {found found' : List Path}
    (h : FindsApart t dir argument found) (h' : FindsApart t dir' argument found')
    (hplaces : dir.act t.workingDir ≠ dir'.act t.workingDir)
    (habove : 0 < argument.clean.ups → t.isDirectoryAt (dir.act t.workingDir) = true →
      t.isDirectoryAt (dir'.act t.workingDir) = true →
      (dir.act t.workingDir).drop argument.clean.ups ≠
        (dir'.act t.workingDir).drop argument.clean.ups) {q : Path}
    (hp : p ∈ found) (hq : q ∈ found') : p.act t.workingDir ≠ q.act t.workingDir := by
  intro hact
  obtain ⟨names, hnames, hpAct⟩ := h.below p hp
  obtain ⟨names', hnames', hqAct⟩ := h'.below q hq
  rw [hpAct, hqAct] at hact
  have hdrop := (List.append_inj hact (by omega)).2
  rcases Nat.eq_zero_or_pos argument.clean.ups with hzero | hpos
  · rw [hzero, List.drop_zero, List.drop_zero] at hdrop
    exact hplaces hdrop
  · exact habove hpos (h.directory hpos (List.ne_nil_of_mem hp))
      (h'.directory hpos (List.ne_nil_of_mem hq)) hdrop

/-- Different files have different canonical paths. -/
theorem FindsApart.canonical?_ne {dir dir' : Path} {found found' : List Path} (ht : t.LinkFree)
    (h : FindsApart t dir argument found) (h' : FindsApart t dir' argument found') {q : Path}
    (hp : p ∈ found) (hq : q ∈ found') (hact : p.act t.workingDir ≠ q.act t.workingDir) :
    t.canonical? p ≠ t.canonical? q := by
  rw [ht.canonical?_of_isFile (h.isAbsolute p hp) (h.isFile p hp),
    ht.canonical?_of_isFile (h'.isAbsolute q hq) (h'.isFile q hq)]
  exact fun heq => hact (Path.ofLocation_inj (Option.some.inj heq))

/-- An include finds no file twice.

In a tree without links, with an absolute root and different names for subdirectories, let
no piece of the cleaned argument but the last climb. If it starts with `..`, let the
directories that are searched and exist lead, as many steps up, to different places. Then no
two paths that the argument stands for lead to one file. And what is imported are the tokens
of one reading of each of them, in order. -/
theorem resolve_distinct {s : Settings} {text : String} (ht : t.LinkFree)
    (hroot : s.layout.root.isAbsolute = true)
    (hsub : ∀ dir ∈ s.layout.subdirs, isName dir = true) (hnodup : s.layout.subdirs.Nodup)
    (hclimb : ∀ piece ∈ (Path.clean ⟨text⟩).stripRoot.pieces.dropLast, climbs piece = false)
    (habove : 0 < (Path.clean ⟨text⟩).ups → PartAbove t s.layout (Path.clean ⟨text⟩).ups)
    (h : resolve t s.layout text = .ok files) :
    (files.Pairwise fun p q => t.canonical? p ≠ t.canonical? q) ∧
      ∀ c imported, importTokens t s text c = .ok imported →
        ∃ readings, files.mapM (Reading.ofFile? t) = some readings ∧
          imported.map Tracked.token = readings.flatMap Reading.tokens := by
  refine ⟨?_, fun c imported himported =>
    readings_of_importFiles (importFiles_of_importTokens h himported)⟩
  have hone {base : Path} {files : List Path} (h : FindsApart t base ⟨text⟩ files) :
      files.Pairwise fun p q => t.canonical? p ≠ t.canonical? q :=
    h.apart.imp_of_mem fun hp hq => h.canonical?_ne ht h hp hq
  rcases of_resolve h with ⟨-, hdirect⟩ | hbelow
  · exact hone (findsApart_of_find ht (Path.isAbsolute_fromRoot []) hclimb hdirect)
  rcases of_findBelow hsub hbelow with ⟨-, rfl⟩ | ⟨-, found, hfound, rfl⟩
  · exact List.pairwise_singleton _ _
  have hdirs {dir : Path} (hdir : dir ∈ s.layout.dirs) : FindsApart t dir ⟨text⟩ (found dir) :=
    findsApart_of_find ht (exists_above_of_mem_dirs hroot hsub hdir []).1 hclimb (hfound dir hdir)
  rw [List.pairwise_flatMap]
  refine ⟨fun dir hdir => hone (hdirs hdir), ?_⟩
  have hplaces := dirs_apart hsub hnodup t.workingDir
  rcases Nat.eq_zero_or_pos (Path.clean ⟨text⟩).ups with hzero | hpos
  · refine hplaces.imp_of_mem fun hdir hdir' hne p hp q hq => ?_
    exact (hdirs hdir).canonical?_ne ht (hdirs hdir') hp hq
      ((hdirs hdir).across (hdirs hdir') hne (by omega) hp hq)
  · refine (hplaces.and (partAbove_iff.mp (habove hpos))).imp_of_mem
      fun hdir hdir' hne p hp q hq => ?_
    exact (hdirs hdir).canonical?_ne ht (hdirs hdir') hp hq
      ((hdirs hdir).across (hdirs hdir') hne.1 (fun _ => hne.2) hp hq)

section Beside

/-- Includes are looked for in `/r` and `/r/s`. -/
def besideSettings : Settings := { layout := besideLayout }

/-- What lies above the root and above each of its directories. -/
theorem find_besideTree_above :
    find besideTree "/r/../x" = .ok [⟨"/r/../x"⟩] ∧
      find besideTree "/r/s/../x" = .ok [⟨"/r/s/../x"⟩] ∧
      find besideTree "/r/t/../x" = .ok [⟨"/r/t/../x"⟩] := by
  have hroot : Query.ofText "/r/../x" =
      .ok ⟨⟨"/"⟩, [[.char 'r'], [.char '.', .char '.'], [.char 'x']], false⟩ := by cbv
  have hs : Query.ofText "/r/s/../x" =
      .ok ⟨⟨"/"⟩, [[.char 'r'], [.char 's'], [.char '.', .char '.'], [.char 'x']], false⟩ := by cbv
  have ht : Query.ofText "/r/t/../x" =
      .ok ⟨⟨"/"⟩, [[.char 'r'], [.char 't'], [.char '.', .char '.'], [.char 'x']], false⟩ := by cbv
  rw [find_of_ofText hroot, find_of_ofText hs, find_of_ofText ht]
  decide +kernel

theorem resolve_besideTree_above :
    resolve besideTree besideLayout "../x" = .ok [⟨"/r/../x"⟩, ⟨"/r/s/../x"⟩] := by
  obtain ⟨hroot, hdir, -⟩ := find_besideTree_above
  exact resolve_of_findAll (by decide) (by decide +kernel) (by decide)
    (findAll_cons hroot (findAll_cons hdir rfl)) (by simp)

/-- A piece that stands for `.` and for `..`, in the root and below it. -/
theorem find_besideTree_dots :
    find besideTree "/r/.*/x" = .ok [⟨"/r/../x"⟩, ⟨"/r/./x"⟩] ∧
      find besideTree "/r/s/.*/x" = .ok [⟨"/r/s/../x"⟩] := by
  have hroot : Query.ofText "/r/.*/x" =
      .ok ⟨⟨"/"⟩, [[.char 'r'], [.char '.', .many], [.char 'x']], false⟩ := by cbv
  have hdir : Query.ofText "/r/s/.*/x" =
      .ok ⟨⟨"/"⟩, [[.char 'r'], [.char 's'], [.char '.', .many], [.char 'x']], false⟩ := by cbv
  have hdots : pieceStep besideTree ⟨"/r"⟩ [.char '.', .many] = [⟨"/r/.."⟩, ⟨"/r/."⟩] := by cbv
  have hdots' : pieceStep besideTree ⟨"/r/s"⟩ [.char '.', .many] =
      [⟨"/r/s/.."⟩, ⟨"/r/s/."⟩] := by cbv
  have hnames : pieceStep besideTree ⟨"/r/.."⟩ [.char 'x'] = [⟨"/r/../x"⟩] ∧
      pieceStep besideTree ⟨"/r/."⟩ [.char 'x'] = [⟨"/r/./x"⟩] ∧
      pieceStep besideTree ⟨"/r/s/.."⟩ [.char 'x'] = [⟨"/r/s/../x"⟩] ∧
      pieceStep besideTree ⟨"/r/s/."⟩ [.char 'x'] = [] := by decide +kernel
  have hfiles : besideTree.isFile ⟨"/r/../x"⟩ = true ∧ besideTree.isFile ⟨"/r/./x"⟩ = true ∧
      besideTree.isFile ⟨"/r/s/../x"⟩ = true := by decide +kernel
  obtain ⟨hc, hs, -⟩ := pieceStep_besideTree
  rw [find_of_ofText hroot, find_of_ofText hdir]
  simp [Query.run, search, hc, hs, hdots, hdots', hnames, hfiles]

/-- From the root and from the directory below it, `../x` leads to two files. -/
theorem resolve_distinct_besideTree :
    (Path.clean ⟨"../x"⟩).ups = 1 ∧ PartAbove besideTree besideLayout 1 ∧
      resolve besideTree besideLayout "../x" = .ok [⟨"/r/../x"⟩, ⟨"/r/s/../x"⟩] ∧
      besideTree.canonical? ⟨"/r/../x"⟩ ≠ besideTree.canonical? ⟨"/r/s/../x"⟩ := by
  have hups : (Path.clean ⟨"../x"⟩).ups = 1 := by decide
  have habove : PartAbove besideTree besideLayout 1 := by
    unfold PartAbove
    decide +kernel
  have hclimb : ∀ piece ∈ (Path.clean ⟨"../x"⟩).stripRoot.pieces.dropLast,
      climbs piece = false := by
    have hpieces : (Path.clean ⟨"../x"⟩).stripRoot.pieces.dropLast = [['.', '.']] := by decide
    have hup : climbs ['.', '.'] = false := by cbv
    simpa [hpieces] using hup
  obtain ⟨hpairwise, -⟩ := resolve_distinct (s := besideSettings) linkFree_besideTree (by decide)
    (by decide) (by decide) hclimb (fun _ => hups ▸ habove) resolve_besideTree_above
  exact ⟨hups, habove, resolve_besideTree_above, List.rel_of_pairwise_cons hpairwise (by simp)⟩

/-- From two directories of the root it leads to one file. And so does an argument from the
root and from one of them, where a piece stands for `.` and for `..`. -/
theorem resolve_finds_twice :
    besideTree.LinkFree ∧ besideLayout.root.isAbsolute = true ∧
      (∀ dir ∈ ["s", "t"], isName dir = true) ∧ ["s", "t"].Nodup ∧
      resolve besideTree { besideLayout with subdirs := ["s", "t"] } "../x" =
        .ok [⟨"/r/../x"⟩, ⟨"/r/s/../x"⟩, ⟨"/r/t/../x"⟩] ∧
      besideTree.canonical? ⟨"/r/s/../x"⟩ = some ⟨"/r/x"⟩ ∧
      besideTree.canonical? ⟨"/r/t/../x"⟩ = some ⟨"/r/x"⟩ ∧
      resolve besideTree { besideLayout with subdirs := ["s"] } ".*/x" =
        .ok [⟨"/r/../x"⟩, ⟨"/r/./x"⟩, ⟨"/r/s/../x"⟩] ∧
      besideTree.canonical? ⟨"/r/./x"⟩ = some ⟨"/r/x"⟩ := by
  obtain ⟨hroot, hdir, hother⟩ := find_besideTree_above
  obtain ⟨hdots, hdots'⟩ := find_besideTree_dots
  refine ⟨linkFree_besideTree, by decide, by decide, by decide, ?_, by decide +kernel,
    by decide +kernel, ?_, by decide +kernel⟩
  · exact resolve_of_findAll (by decide) (by decide +kernel) (by decide)
      (findAll_cons hroot (findAll_cons hdir (findAll_cons hother rfl))) (by simp)
  · exact resolve_of_findAll (by decide) (by decide +kernel) (by decide)
      (findAll_cons hdots (findAll_cons hdots' rfl)) (by simp)

end Beside

end Include

end ConfTree
