import ConfTree.Proofs.Include.Cycles
import ConfTree.Proofs.Include.Lookup
import ConfTree.Proofs.Include.Modularity
import ConfTree.Proofs.Parser.EntryPoints

/-!
# Files that lie too deep

A file that lies too deep to have a canonical path is known by every path that leads
there. So if the file ends in an include without its argument, the include takes the
next word of the text around it, and may lead to the same file by another path: once for
each of these paths, however few files there are.

1. `Parser.reaches_of_deep`: a text that leads to such a file by one path after the
   other.
2. `deepTree`: a tree with one file and four links to it.
   `reaches_deepText`: a text that enters the file by all of them.
-/

namespace ConfTree

namespace Parser

variable {t : FileTree} {s : Settings} {loc : Location}

/-! ## 1. One path after the other -/

/-- The argument stands for the one path, which leads to `loc`, where there is nothing but
the word `include`. -/
structure LeadsTo (t : FileTree) (s : Settings) (loc : Location) (argument : Tracked)
    (path : Path) : Prop where
  isWord : argument.token.isMark = false
  resolve_eq : Include.resolve t s.layout argument.token.text = .ok [path]
  locate_eq : t.locate path = .ok loc
  load_eq : load t s.limits path = .ok [⟨path.text, 1, "include"⟩]

/-- The tokens of a file that lies too deep, by a path that is new on the trail. -/
theorem LeadsTo.importTokens_eq {argument : Tracked} {path : Path} {c : Trail}
    (h : LeadsTo t s loc argument path)
    (hdir : FileTree.bytesTo t.workingDir < FileTree.maxPathBytes)
    (hdeep : FileTree.maxPathBytes ≤ FileTree.bytesTo loc) (hnew : c.mentions path = false)
    (hdepth : c.depth < s.limits.includeDepth) (hfiles : 1 ≤ s.limits.includeFiles) :
    Include.importTokens t s argument.token.text c =
      .ok [⟨⟨path.text, 1, "include"⟩, c.extend path⟩] := by
  have henter := Trail.enter_of_deep hdir h.locate_eq hdeep hnew hdepth
  rw [Include.importTokens, h.resolve_eq]
  simp [bind, Except.bind, Include.importFiles, Include.importFile, henter, h.load_eq, pure,
    Except.pure, Nat.not_lt.mpr hfiles]

/-- A text that includes a file that lies too deep by one path after the other enters it by
all of them. -/
theorem reaches_of_deep {p : Parser} {first : Tracked} {ways : List (Tracked × Path)}
    {behind : List Tracked} (hdir : FileTree.bytesTo t.workingDir < FileTree.maxPathBytes)
    (hdeep : FileTree.maxPathBytes ≤ FileTree.bytesTo loc)
    (hways : ∀ way ∈ ways, LeadsTo t s loc way.1 way.2)
    (hnew : (first.trail.files ++ ways.map Prod.snd).Pairwise fun a b => a.same b = false)
    (hdepth : first.trail.depth + ways.length ≤ s.limits.includeDepth)
    (hfiles : 1 ≤ s.limits.includeFiles) (htokens : 1 ≤ s.limits.tokens)
    (htotal : p.total ≤ s.limits.tokens)
    (hp : p.pending = first :: (ways.map Prod.fst ++ behind)) (hinc : p.AtInclude first.token) :
    ∃ q x, Reaches t s p q ∧ x ∈ q.pending ∧
      x.trail.files = first.trail.files ++ ways.map Prod.snd := by
  induction ways generalizing p first with
  | nil => exact ⟨p, first, .refl, by simp [hp], by simp⟩
  | cons way ways ih =>
    obtain ⟨argument, path⟩ := way
    have hway : LeadsTo t s loc argument path := hways _ List.mem_cons_self
    rw [List.map_cons, List.cons_append] at hp
    rw [List.map_cons, List.append_cons] at hnew
    have hfresh : first.trail.mentions path = false := by
      refine Trail.mentions_eq_false_iff.mpr fun file hfile => ?_
      have hfront := (List.pairwise_append.mp hnew).1
      exact (List.pairwise_append.mp hfront).2.2 file hfile path (List.mem_singleton.mpr rfl)
    rw [List.length_cons] at hdepth
    have himport := hway.importTokens_eq hdir hdeep hfresh (by omega) hfiles
    let next : Tracked := ⟨⟨path.text, 1, "include"⟩, first.trail.extend path⟩
    let r : Parser :=
      { p with pending := next :: (ways.map Prod.fst ++ behind), total := p.total - 2 + 1 }
    have hroom : r.total ≤ s.limits.tokens := show p.total - 2 + 1 ≤ s.limits.tokens by omega
    have hmove : Move t s p r := .splice hp hinc hway.isWord himport hroom
    have hrest : (next.trail.files ++ ways.map Prod.snd).Pairwise fun a b => a.same b = false := by
      rwa [Trail.files_extend]
    have hlevel : next.trail.depth + ways.length ≤ s.limits.includeDepth := by
      rw [Trail.depth_extend]
      omega
    obtain ⟨q, x, hq, hx, htrail⟩ := ih (p := r)
      (fun way hmem => hways way (List.mem_cons_of_mem _ hmem)) hrest hlevel hroom rfl ⟨hinc.1, rfl⟩
    refine ⟨q, x, .of_step (step_eq_more_iff.mpr hmove) hq, hx, ?_⟩
    rw [htrail, Trail.files_extend, List.append_assoc]
    rfl

end Parser

/-! ## 2. A tree with one file -/

/-- What is listed for a location stands there. -/
theorem FileTree.node?_of_mem {t : FileTree} {loc : Location} {node : Node} (hne : loc ≠ [])
    (h : (loc, node) ∈ t.nodes) : t.node? loc = some node := by
  obtain ⟨front, behind, hnodes⟩ := List.append_of_mem h
  rw [node?, if_neg hne, List.lookup_eq_some_iff]
  refine ⟨front, behind, hnodes, fun entry hentry => ?_⟩
  have hnodup := t.nodup
  rw [hnodes, List.map_append, List.map_cons] at hnodup
  have hother := (List.nodup_append.mp hnodup).2.2 _ (List.mem_map_of_mem hentry) loc
    List.mem_cons_self
  simpa using hother.symm

section DeepTree

/-- A name of 250 bytes. -/
def longName : Name :=
  ⟨String.ofList (List.replicate 250 'd'), Name.isName_replicate (by decide) (by decide)⟩

/-- A file behind 17 directories, each in the one before. -/
def deepLocation : Location := ⟨"f", by decide⟩ :: List.replicate 17 longName

/-- The path to a directory on the way to the file. -/
def halfway : Path := .fromRoot (List.replicate 8 longName.text.toList)

/-- A path to the file that leads through a link to this directory. -/
def shortcut : Path := .fromRoot (['h'] :: (List.replicate 9 longName.text.toList ++ [['f']]))

/-- Four links to the file: `i`, `j`, `k` and `l`. -/
def linkNames : List Name :=
  [⟨"i", by decide⟩, ⟨"j", by decide⟩, ⟨"k", by decide⟩, ⟨"l", by decide⟩]

/-- What the file holds: `include`. -/
def deepContent : Source := .ofBytes [0x69, 0x6e, 0x63, 0x6c, 0x75, 0x64, 0x65]

/-- What stands in the tree but for the directories. -/
def deepEntries : List (Location × Node) :=
  (deepLocation, .file deepContent false) ::
    ([⟨"h", by decide⟩], .link halfway) :: linkNames.map fun n => ([n], .link shortcut)

/-- The directories on the way to the file. -/
def deepDirectories : List Location := (List.range 17).map fun k => List.replicate (k + 1) longName

theorem utf8ByteSize_replicate (k : Nat) (c : Char) :
    (String.ofList (List.replicate k c)).utf8ByteSize = k * c.utf8Size := by
  induction k with
  | zero => simp
  | succ k ih =>
    rw [List.replicate_succ, String.ofList_cons, String.utf8ByteSize_append,
      String.utf8ByteSize_singleton, ih, Nat.succ_mul, Nat.add_comm]

theorem utf8ByteSize_longName : longName.text.utf8ByteSize = 250 :=
  utf8ByteSize_replicate 250 'd'

theorem bytesTo_longNames (k : Nat) :
    FileTree.bytesTo (List.replicate k longName) = k * 251 := by
  induction k with
  | zero => rfl
  | succ k ih =>
    rw [List.replicate_succ, FileTree.bytesTo, ih, utf8ByteSize_longName]
    omega

theorem maxPathBytes_le_bytesTo : FileTree.maxPathBytes ≤ FileTree.bytesTo deepLocation := by
  rw [deepLocation, FileTree.bytesTo, bytesTo_longNames]
  decide

/-- What stands elsewhere has a short name. -/
theorem ne_of_mem_deepEntries {entry : Location × Node} (h : entry ∈ deepEntries)
    (above : Location) : entry.1 ≠ longName :: above := by
  have hlinks : ∀ n ∈ linkNames, n.text.utf8ByteSize = 1 := by decide
  have hshort : ∀ entry ∈ deepEntries, ∃ n : Name, ∃ rest,
      entry.1 = n :: rest ∧ n.text.utf8ByteSize = 1 := by
    rw [deepEntries, List.forall_mem_cons, List.forall_mem_cons, List.forall_mem_map]
    exact ⟨⟨_, _, rfl, by decide⟩, ⟨_, _, rfl, by decide⟩, fun n hn => ⟨n, _, rfl, hlinks n hn⟩⟩
  obtain ⟨n, rest, hentry, hn⟩ := hshort entry h
  rw [hentry]
  intro heq
  rw [(List.cons.inj heq).1, utf8ByteSize_longName] at hn
  omega

def deepTree : FileTree where
  nodes := deepEntries ++ deepDirectories.map fun loc => (loc, .directory)
  nodup := by
    rw [List.map_append, List.map_map]
    refine List.nodup_append.mpr ⟨by decide, ?_, fun loc hloc other hother => ?_⟩
    · refine List.Nodup.map (fun _ _ h => h) (List.nodup_range.map fun k l h => ?_)
      simpa using congrArg List.length h
    · obtain ⟨entry, hentry, rfl⟩ := List.mem_map.mp hloc
      obtain ⟨_, hdir, rfl⟩ := List.mem_map.mp hother
      obtain ⟨k, -, rfl⟩ := List.mem_map.mp hdir
      exact ne_of_mem_deepEntries hentry _
  workingDir := []

theorem files_deepTree : deepTree.files = [deepLocation] := rfl

/-! ### The ways to the file -/

theorem node?_directory {k : Nat} (h : k < 17) :
    deepTree.node? (List.replicate (k + 1) longName) = some .directory := by
  refine FileTree.node?_of_mem (List.cons_ne_nil _ _) (List.mem_append_right _ ?_)
  exact List.mem_map_of_mem (List.mem_map.mpr ⟨k, List.mem_range.mpr h, rfl⟩)

/-- Along the directories. -/
theorem walk_longNames {jump : Location → List Component → Except SystemError Location}
    {rest : List Component} (k depth : Nat) (h : depth + k ≤ 17) :
    deepTree.walk FileTree.anyEntry jump (List.replicate depth longName)
        (List.replicate k (.name longName) ++ rest) =
      deepTree.walk FileTree.anyEntry jump (List.replicate (depth + k) longName) rest := by
  induction k generalizing depth with
  | zero => rfl
  | succ k ih =>
    have hdir : deepTree.isDirectoryAt (List.replicate depth longName) = true := by
      cases depth with
      | zero => exact FileTree.isDirectoryAt_nil
      | succ depth => rw [FileTree.isDirectoryAt, node?_directory (by omega)]; rfl
    have hshort : ¬ FileTree.maxNameBytes < longName.text.utf8ByteSize := by
      rw [utf8ByteSize_longName]
      decide
    have hnode : deepTree.node? (longName :: List.replicate depth longName) = some .directory :=
      node?_directory (show depth < 17 by omega)
    rw [List.replicate_succ, List.cons_append, FileTree.walk_cons, if_pos hdir]
    simp only [if_neg hshort, hnode]
    exact (ih (depth + 1) (by omega)).trans (by rw [Nat.add_right_comm, Nat.add_assoc])

theorem slash_not_mem_longNames {k : Nat} : ∀ piece ∈ List.replicate k longName.text.toList,
    '/' ∉ piece := fun piece hpiece => by
  rw [List.eq_of_mem_replicate hpiece]
  exact longName.slash_not_mem

theorem steps_halfway : halfway.steps = .here :: List.replicate 8 (.name longName) := by
  rw [halfway, Path.steps_fromRoot (by simp) slash_not_mem_longNames,
    List.map_replicate, Component.ofPiece_name]

theorem steps_shortcut :
    shortcut.steps = .here :: .name ⟨"h", by decide⟩ ::
      (List.replicate 9 (.name longName) ++ [.name ⟨"f", by decide⟩]) := by
  have hslash : ∀ piece ∈ ['h'] :: (List.replicate 9 longName.text.toList ++ [['f']]),
      '/' ∉ piece :=
    List.forall_mem_cons.mpr ⟨by decide,
      List.forall_mem_append.mpr ⟨slash_not_mem_longNames, by decide⟩⟩
  rw [shortcut, Path.steps_fromRoot (List.cons_ne_nil _ _) hslash, List.map_cons, List.map_append,
    List.map_replicate, Component.ofPiece_name]
  rfl

/-- Through a link in the root. -/
theorem follow_link {n : Name} {target : Path} (links : Nat) {rest : List Component}
    (hshort : n.text.utf8ByteSize ≤ FileTree.maxNameBytes)
    (hnode : deepTree.node? [n] = some (.link target)) :
    deepTree.follow FileTree.anyEntry (links + 1) [] (.name n :: rest) =
      deepTree.follow FileTree.anyEntry links [] (target.steps ++ rest) := by
  rw [FileTree.follow, FileTree.walk_cons, if_pos FileTree.isDirectoryAt_nil]
  simp only [if_neg (Nat.not_lt.mpr hshort), hnode, ite_self]

/-- Along the directories to the file. -/
theorem follow_longNames {links : Nat} :
    deepTree.follow FileTree.anyEntry links []
        (List.replicate 8 (.name longName) ++
          (List.replicate 9 (.name longName) ++ [.name ⟨"f", by decide⟩])) =
      .ok deepLocation := by
  obtain ⟨jump, hjump⟩ := deepTree.exists_follow_eq FileTree.anyEntry links
  have hdir : deepTree.isDirectoryAt (List.replicate 17 longName) = true := by
    rw [FileTree.isDirectoryAt, node?_directory (by omega)]
    rfl
  have hshort : ¬ FileTree.maxNameBytes < "f".utf8ByteSize := by decide
  have hfile : deepTree.node? (⟨"f", by decide⟩ :: List.replicate 17 longName) = some _ :=
    FileTree.node?_of_mem (List.cons_ne_nil _ _) List.mem_cons_self
  rw [hjump]
  refine (walk_longNames 8 0 (by omega)).trans ?_
  refine (walk_longNames 9 8 (by omega)).trans ?_
  rw [FileTree.walk_cons, if_pos hdir]
  simp only [if_neg hshort, hfile]
  rfl

/-- Each link leads to the file. -/
theorem locate_link {n : Name} (hn : n ∈ linkNames) :
    deepTree.locate (.ofLocation [n]) = .ok deepLocation := by
  have hfits : ∀ n ∈ linkNames, (Path.ofLocation [n]).Fits := by
    unfold Path.Fits
    decide
  have hshort : ∀ n ∈ linkNames, n.text.utf8ByteSize ≤ FileTree.maxNameBytes := by decide
  have hlink : deepTree.node? [n] = some (.link shortcut) := by
    refine FileTree.node?_of_mem (List.cons_ne_nil _ _) (List.mem_append_left _ ?_)
    exact List.mem_cons_of_mem _ (List.mem_cons_of_mem _ (List.mem_map_of_mem hn))
  have hhalfway : deepTree.node? [⟨"h", by decide⟩] = some (.link halfway) :=
    FileTree.node?_of_mem (List.cons_ne_nil _ _)
      (List.mem_append_left _ (List.mem_cons_of_mem _ List.mem_cons_self))
  have hsteps : (Path.piecesTo [n]).map Component.ofPiece = [.name n] := by
    simp [Path.piecesTo, Component.ofPiece_name]
  refine FileTree.locate_eq_ok_iff.mpr ⟨hfits n hn, ?_⟩
  rw [Path.ofLocation_eq, FileTree.reach_fromRoot (Path.forall_slash_not_mem
    Path.isPiece_of_mem_piecesTo), hsteps]
  refine (follow_link 39 (hshort n hn) hlink).trans ?_
  rw [List.append_nil, steps_shortcut, FileTree.follow_here FileTree.isDirectoryAt_nil]
  refine (follow_link 38 (by decide) hhalfway).trans ?_
  rw [steps_halfway, List.cons_append, FileTree.follow_here FileTree.isDirectoryAt_nil]
  exact follow_longNames

/-! ### A text that takes them all -/

theorem resolve_link {n : Name} (hn : n ∈ linkNames)
    (hfile : deepTree.isFile (.ofLocation [n]) = true) :
    Include.resolve deepTree rootSettings.layout n.text = .ok [.ofLocation [n]] := by
  have hclean : ∀ n ∈ linkNames, Path.clean ⟨n.text⟩ = ⟨n.text⟩ := by decide
  have hplain : ∀ n ∈ linkNames, Include.hasWildcards n.text = false := by decide
  have hlayout : rootSettings.layout.IsPlain := ⟨⟨[], by decide⟩, by simp [rootSettings]⟩
  have hrel : Include.hasWildcards (Path.clean ⟨n.text⟩).text = false := by
    rw [hclean n hn, hplain n hn]
  have hfind := Include.findCleaned_plain (t := deepTree) hlayout hrel rfl
  have hjoin : (rootSettings.layout.dirs.map fun dir => dir.join ⟨n.text⟩) = [.ofLocation [n]] :=
    congrArg (fun p => [p]) (Path.join_ofLocation [] n)
  rw [hclean n hn, Path.isAbsolute_name, Path.stripRoot_name, hjoin,
    List.filter_cons_of_pos hfile] at hfind
  rw [Include.resolve, hclean n hn, Include.screen_of_plain (hplain n hn), hfind]
  rfl

theorem leadsTo_link {n : Name} (hn : n ∈ linkNames) (trail : Trail) :
    Parser.LeadsTo deepTree rootSettings deepLocation ⟨⟨"top", 1, n.text⟩, trail⟩
      (.ofLocation [n]) := by
  have hword : ∀ n ∈ linkNames, (Token.mk "top" 1 n.text).isMark = false := by decide
  have hnode : deepTree.node? deepLocation = some (.file deepContent false) :=
    FileTree.node?_of_mem (List.cons_ne_nil _ _) List.mem_cons_self
  have hstat : deepTree.stat (.ofLocation [n]) = .ok (.file deepContent false) := by
    rw [FileTree.stat, locate_link hn]
    simp only [bind, Except.bind, hnode]
    rfl
  have hfile : deepTree.isFile (.ofLocation [n]) = true := by
    rw [FileTree.isFile, hstat]
    rfl
  refine ⟨hword n hn, resolve_link hn hfile, locate_link hn, ?_⟩
  rw [load_of_stat hstat rfl (by decide)]
  cbv

/-- `include i j k l`. -/
def deepText : List Token :=
  ("include" :: linkNames.map Name.text).map fun text => ⟨"top", 1, text⟩

/-- The text enters the file by all four links. -/
theorem reaches_deepText :
    ∃ q x, Parser.Reaches deepTree rootSettings (Parser.ofTokens deepTree "top" deepText) q ∧
      x ∈ q.pending ∧ x.trail.files = ⟨"top"⟩ :: linkNames.map fun n => .ofLocation [n] := by
  have hsource : deepTree.identity ⟨"top"⟩ = ⟨"top"⟩ := by decide +kernel
  let ways : List (Tracked × Path) :=
    linkNames.map fun n => (⟨⟨"top", 1, n.text⟩, .ofSource deepTree ⟨"top"⟩⟩, .ofLocation [n])
  have hways : ∀ way ∈ ways, Parser.LeadsTo deepTree rootSettings deepLocation way.1 way.2 := by
    intro way hway
    obtain ⟨n, hn, rfl⟩ := List.mem_map.mp hway
    exact leadsTo_link hn _
  have hdir : FileTree.bytesTo deepTree.workingDir < FileTree.maxPathBytes := by decide
  let first : Tracked := ⟨⟨"top", 1, "include"⟩, .ofSource deepTree ⟨"top"⟩⟩
  have hfirst : first.trail.files = [⟨"top"⟩] := by
    simp only [first, Trail.ofSource, Trail.files, hsource]
  have hnew : (first.trail.files ++ ways.map Prod.snd).Pairwise fun a b => a.same b = false := by
    rw [hfirst]
    decide
  have hdepth : first.trail.depth + ways.length ≤ rootSettings.limits.includeDepth :=
    show 0 + 4 ≤ 32 by decide
  have hpending : (Parser.ofTokens deepTree "top" deepText).pending =
      first :: (ways.map Prod.fst ++ []) := by
    simp [Parser.ofTokens, deepText, first, ways]
  have htotal : (Parser.ofTokens deepTree "top" deepText).total ≤ rootSettings.limits.tokens := by
    decide
  obtain ⟨q, x, hq, hx, htrail⟩ := Parser.reaches_of_deep hdir maxPathBytes_le_bytesTo hways hnew
    hdepth (by decide) (by decide) htotal hpending ⟨rfl, rfl⟩
  refine ⟨q, x, hq, hx, ?_⟩
  rw [htrail, hfirst]
  rfl

/-- Four files are on a trail, and there is one in the tree. -/
theorem depth_exceeds_files :
    deepTree.files.length = 1 ∧
      ∃ q x, Parser.Reaches deepTree rootSettings (Parser.ofTokens deepTree "top" deepText) q ∧
        x ∈ q.pending ∧ x.trail.depth = 4 := by
  obtain ⟨q, x, hq, hx, hfiles⟩ := reaches_deepText
  refine ⟨congrArg List.length files_deepTree, q, x, hq, hx, ?_⟩
  exact congrArg (fun files => files.length - 1) hfiles

/-- Two that follow each other on a trail are one. -/
theorem trail_repeats_file :
    ∃ q x front a b behind,
      Parser.Reaches deepTree rootSettings (Parser.ofTokens deepTree "top" deepText) q ∧
        x ∈ q.pending ∧ x.trail.files = front ++ a :: b :: behind ∧
        deepTree.locate a = .ok deepLocation ∧ deepTree.locate b = .ok deepLocation ∧
        deepLocation ∈ deepTree.files := by
  obtain ⟨q, x, hq, hx, hfiles⟩ := reaches_deepText
  refine ⟨q, x, [⟨"top"⟩], _, _, _, hq, hx, hfiles, locate_link (by decide),
    locate_link (by decide), ?_⟩
  rw [files_deepTree]
  exact List.mem_singleton.mpr rfl

end DeepTree

end ConfTree
