import ConfTree.Proofs.Path.Absolute

/-!
# Following a path

Whoever comes to a file has come through directories, whatever links there were on
the way. So the path to a file says what stands along all shorter paths.

1. `walk_cons_cases`: what a step can do.
   `follow_append`: a way in two parts is followed part by part.
   `Rooted`, `Rooted.follow`: directories lie in directories.
2. `Path.Fits.of_append`, `reach_fromRoot`: which absolute paths are looked up, and how.
3. `exists_of_isFile`: what stands on the way to a file.
   `isFile_eq_false`: a path that ends in no name leads to no file.
4. `mem_entriesAt_iff`, `entriesAt_sorted`: what a directory lists.
-/

namespace ConfTree

namespace FileTree

variable {t : FileTree} {links : Nat} {loc last : Location} {step : Component}
  {steps front behind : List Component}
  {jump : Location → List Component → Except SystemError Location}

/-! ## 1. Steps -/

@[simp] theorem isDirectoryAt_nil : t.isDirectoryAt [] = true := by
  simp [isDirectoryAt, node?, Node.isDirectory]

theorem walk_nil : t.walk anyEntry jump loc [] = .ok loc := rfl

theorem walk_cons :
    t.walk anyEntry jump loc (step :: steps) =
      if t.isDirectoryAt loc then
        match step with
        | .root => t.walk anyEntry jump [] steps
        | .here => t.walk anyEntry jump loc steps
        | .up => t.walk anyEntry jump loc.tail steps
        | .name n =>
          if maxNameBytes < n.text.utf8ByteSize then .error .nameTooLong
          else match t.node? (n :: loc) with
            | none => .error .notFound
            | some (.link target) =>
              jump (if target.isAbsolute then [] else loc) (target.steps ++ steps)
            | some _ => t.walk anyEntry jump (n :: loc) steps
      else .error .notDirectory := rfl

/-- Following takes steps up to a link, with some way to go on behind it. -/
theorem exists_follow_eq (t : FileTree) (admits : Location → List Component → Bool)
    (links : Nat) : ∃ jump, t.follow admits links = t.walk admits jump := by
  cases links with
  | zero => exact ⟨_, rfl⟩
  | succ links => exact ⟨_, rfl⟩

theorem follow_here {admits : Location → List Component → Bool}
    (hloc : t.isDirectoryAt loc = true) :
    t.follow admits links loc (.here :: steps) = t.follow admits links loc steps := by
  obtain ⟨jump, hjump⟩ := t.exists_follow_eq admits links
  rw [hjump, walk_cons_admits, if_pos hloc]

/-- All places above are directories. -/
def Rooted (t : FileTree) : Location → Prop
  | [] => True
  | _ :: above => t.isDirectoryAt above = true ∧ Rooted t above

theorem Rooted.tail (h : t.Rooted loc) : t.Rooted loc.tail := by
  cases loc with
  | nil => trivial
  | cons n above => exact h.2

/-- A step is taken in a directory, and to a name that is there and not too long. It
leads to a place or behind a link, whatever way is to be gone from there. -/
theorem walk_cons_cases (h : t.walk anyEntry jump loc (step :: steps) = .ok last) :
    t.isDirectoryAt loc = true ∧
      (∀ n, step = .name n →
        n.text.utf8ByteSize ≤ maxNameBytes ∧ (t.node? (n :: loc)).isSome = true) ∧
      ((∃ next, (t.Rooted loc → t.Rooted next) ∧
          ∀ steps, t.walk anyEntry jump loc (step :: steps) = t.walk anyEntry jump next steps) ∨
        ∃ base way, (t.Rooted loc → t.Rooted base) ∧
          ∀ steps, t.walk anyEntry jump loc (step :: steps) = jump base (way ++ steps)) := by
  rw [walk_cons] at h
  split at h
  · next hdir =>
    refine ⟨hdir, ?_⟩
    simp only [walk_cons, if_pos hdir]
    cases step with
    | root => exact ⟨nofun, .inl ⟨[], fun _ => trivial, fun _ => rfl⟩⟩
    | here => exact ⟨nofun, .inl ⟨loc, id, fun _ => rfl⟩⟩
    | up => exact ⟨nofun, .inl ⟨loc.tail, Rooted.tail, fun _ => rfl⟩⟩
    | name n =>
      dsimp only at h
      split at h
      · cases h
      · next hshort =>
        cases hnode : t.node? (n :: loc) with
        | none => simp [hnode] at h
        | some node =>
          simp only [if_neg hshort, hnode]
          refine ⟨fun m hm => ?_, ?_⟩
          · cases hm
            exact ⟨Nat.le_of_not_lt hshort, by rw [hnode]; rfl⟩
          · have hname : t.Rooted loc → t.Rooted (n :: loc) := fun hloc => ⟨hdir, hloc⟩
            cases node with
            | directory => exact .inl ⟨n :: loc, hname, fun _ => rfl⟩
            | file content executable => exact .inl ⟨n :: loc, hname, fun _ => rfl⟩
            | link target =>
              refine .inr ⟨_, target.steps, fun hloc => ?_, fun _ => rfl⟩
              split
              · trivial
              · exact hloc
  · cases h

theorem of_follow_cons (h : t.follow anyEntry links loc (step :: steps) = .ok last) :
    t.isDirectoryAt loc = true ∧ ∀ n, step = .name n →
      n.text.utf8ByteSize ≤ maxNameBytes ∧ (t.node? (n :: loc)).isSome = true := by
  obtain ⟨jump, hjump⟩ := t.exists_follow_eq anyEntry links
  rw [hjump] at h
  obtain ⟨hdir, hname, _⟩ := walk_cons_cases h
  exact ⟨hdir, hname⟩

/-- A walk in two parts is a walk along the first, and then one along the second, if
this holds behind links. -/
theorem walk_append
    (hself : t.follow anyEntry links = t.walk anyEntry jump)
    (hjump : ∀ loc front, jump loc (front ++ behind) = .ok last →
      ∃ fewer mid, jump loc front = .ok mid ∧ t.follow anyEntry fewer mid behind = .ok last)
    (h : t.walk anyEntry jump loc (front ++ behind) = .ok last) :
    ∃ fewer mid, t.walk anyEntry jump loc front = .ok mid ∧
      t.follow anyEntry fewer mid behind = .ok last := by
  induction front generalizing loc with
  | nil => exact ⟨links, loc, walk_nil, by rwa [hself]⟩
  | cons step front ih =>
    rw [List.cons_append] at h
    obtain ⟨_, _, ⟨next, _, hnext⟩ | ⟨base, way, _, hway⟩⟩ := walk_cons_cases h
    · rw [hnext] at h ⊢
      exact ih h
    · rw [hway] at h ⊢
      exact hjump _ _ (by rwa [List.append_assoc])

/-- A way in two parts is followed part by part. -/
theorem follow_append (h : t.follow anyEntry links loc (front ++ behind) = .ok last) :
    ∃ fewer mid, t.follow anyEntry links loc front = .ok mid ∧
      t.follow anyEntry fewer mid behind = .ok last := by
  induction links generalizing loc front with
  | zero =>
    have hself : t.follow anyEntry 0 = t.walk anyEntry fun _ _ => .error .tooManyLinks := rfl
    exact walk_append hself (fun _ _ hlink => by cases hlink) h
  | succ links ih =>
    have hself : t.follow anyEntry (links + 1) = t.walk anyEntry (t.follow anyEntry links) := rfl
    exact walk_append hself (fun _ _ hlink => ih hlink) h

/-- Who walks among directories stays among them, if this holds behind links. -/
theorem Rooted.walk
    (hjump : ∀ loc steps, t.Rooted loc → jump loc steps = .ok last → t.Rooted last)
    (hloc : t.Rooted loc) (h : t.walk anyEntry jump loc steps = .ok last) : t.Rooted last := by
  induction steps generalizing loc with
  | nil =>
    rw [walk_nil] at h
    cases h
    exact hloc
  | cons step steps ih =>
    obtain ⟨_, _, ⟨next, hrooted, hnext⟩ | ⟨base, way, hrooted, hway⟩⟩ := walk_cons_cases h
    · rw [hnext] at h
      exact ih (hrooted hloc) h
    · rw [hway] at h
      exact hjump _ _ (hrooted hloc) h

theorem Rooted.follow (hloc : t.Rooted loc) (h : t.follow anyEntry links loc steps = .ok last) :
    t.Rooted last := by
  induction links generalizing loc steps with
  | zero => exact hloc.walk (fun _ _ _ hlink => by cases hlink) h
  | succ links ih => exact hloc.walk (fun _ _ hloc hlink => ih hloc hlink) h

end FileTree

/-! ## 2. Absolute paths -/

namespace Path

variable {ps qs : List (List Char)}

/-- Shorter paths may be looked up, too. -/
theorem Fits.of_append (h : (fromRoot (ps ++ qs)).Fits) : (fromRoot ps).Fits := by
  obtain ⟨rest, hrest⟩ := exists_text_fromRoot_append ps qs
  obtain ⟨hrefusal, hsize⟩ := h
  have hne : (fromRoot ps).text ≠ "" := by
    intro hempty
    have hslash := toList_fromRoot ps
    simp [hempty] at hslash
  refine ⟨?_, ?_⟩
  · simp only [FileTree.refusal?, hrest, String.toList_append] at hrefusal ⊢
    simp_all
  · rw [hrest, String.utf8ByteSize_append] at hsize
    omega

end Path

namespace FileTree

variable {t : FileTree} {p : Path} {loc : Location} {ps qs : List (List Char)} {piece : List Char}

theorem isFile_iff :
    t.isFile p = true ↔
      ∃ loc node, t.locate p = .ok loc ∧ t.node? loc = some node ∧ node.isFile = true := by
  unfold isFile stat
  cases hlocate : t.locate p with
  | error e => simp [bind, Except.bind, Except.toOption]
  | ok loc =>
    cases hnode : t.node? loc with
    | none => simp [bind, Except.bind, Except.toOption, hnode, throw, throwThe, MonadExceptOf.throw]
    | some node => simp [bind, Except.bind, Except.toOption, hnode, pure, Except.pure]

theorem isDirectory_iff :
    t.isDirectory p = true ↔ ∃ loc, t.locate p = .ok loc ∧ t.isDirectoryAt loc = true := by
  unfold isDirectory stat isDirectoryAt
  cases hlocate : t.locate p with
  | error e => simp [bind, Except.bind, Except.toOption]
  | ok loc =>
    cases hnode : t.node? loc with
    | none => simp [bind, Except.bind, Except.toOption, hnode, throw, throwThe, MonadExceptOf.throw]
    | some node => simp [bind, Except.bind, Except.toOption, hnode, pure, Except.pure]

/-- An absolute path leads along its pieces from the root. -/
theorem reach_fromRoot (hps : ∀ piece ∈ ps, '/' ∉ piece) :
    t.reach (.fromRoot ps) = t.follow anyEntry maxLinks [] (ps.map Component.ofPiece) := by
  rw [reach, start, if_pos (Path.isAbsolute_fromRoot ps)]
  by_cases hne : ps = []
  · subst hne
    have hsteps : (Path.fromRoot []).steps = [.here, .here] := by decide
    rw [hsteps, follow_here isDirectoryAt_nil, follow_here isDirectoryAt_nil, List.map_nil]
  · rw [Path.steps_fromRoot hne hps, follow_here isDirectoryAt_nil]

/-! ## 3. The way to a file -/

/-- Whoever comes to a file has come through a directory above, and to the entry of
that name, if the path goes on by a name. -/
theorem exists_of_isFile (hps : ∀ x ∈ ps ++ piece :: qs, '/' ∉ x)
    (h : t.isFile (.fromRoot (ps ++ piece :: qs)) = true) :
    ∃ loc, t.locate (.fromRoot ps) = .ok loc ∧ t.isDirectoryAt loc = true ∧
      (Path.fromRoot (ps ++ [piece])).Fits ∧
      ∀ n, Component.ofPiece piece = .name n →
        n.text.utf8ByteSize ≤ maxNameBytes ∧ (t.node? (n :: loc)).isSome = true := by
  obtain ⟨last, node, hlocate, _, _⟩ := isFile_iff.mp h
  obtain ⟨hfits, hreach⟩ := locate_eq_ok_iff.mp hlocate
  rw [reach_fromRoot hps, List.map_append] at hreach
  obtain ⟨fewer, loc, hloc, hrest⟩ := follow_append hreach
  obtain ⟨hdir, hname⟩ := of_follow_cons hrest
  have hfront : t.reach (.fromRoot ps) = .ok loc := by
    rwa [reach_fromRoot (List.forall_mem_append.mp hps).1]
  have hnext : (Path.fromRoot (ps ++ [piece] ++ qs)).Fits := by
    simpa using hfits
  exact ⟨loc, locate_eq_ok_iff.mpr ⟨hfits.of_append, hfront⟩, hdir, hnext.of_append, hname⟩

/-- A file lies in directories. -/
theorem isDirectory_of_isFile (hps : ∀ x ∈ ps ++ piece :: qs, '/' ∉ x)
    (h : t.isFile (.fromRoot (ps ++ piece :: qs)) = true) :
    t.isDirectory (.fromRoot ps) = true := by
  obtain ⟨loc, hloc, hdir, _⟩ := exists_of_isFile hps h
  exact isDirectory_iff.mpr ⟨loc, hloc, hdir⟩

/-- What the search tries next on the way to a file is there. -/
theorem present_of_isFile (hps : ∀ x ∈ ps ++ piece :: qs, '/' ∉ x)
    (h : t.isFile (.fromRoot (ps ++ piece :: qs)) = true) {n : Name}
    (hpiece : Component.ofPiece piece = .name n) :
    t.present (.fromRoot (ps ++ [piece])) = true := by
  obtain ⟨loc, hloc, hdir, ⟨hrefusal, hsize⟩, hname⟩ := exists_of_isFile hps h
  obtain ⟨hshort, hnode⟩ := hname n hpiece
  obtain ⟨hfront, hbehind⟩ := List.forall_mem_append.mp hps
  have hnext : ∀ x ∈ ps ++ [piece], '/' ∉ x :=
    List.forall_mem_append.mpr
      ⟨hfront, List.forall_mem_singleton.mpr (List.forall_mem_cons.mp hbehind).1⟩
  have hsteps : (Path.fromRoot (ps ++ [piece])).steps =
      (.here :: ps.map Component.ofPiece) ++ [.name n] := by
    rw [Path.steps_fromRoot (by simp) hnext, List.map_append, List.map_singleton, hpiece,
      List.cons_append]
  have hfollow : t.follow anyEntry maxLinks [] (.here :: ps.map Component.ofPiece) = .ok loc := by
    rw [follow_here isDirectoryAt_nil, ← reach_fromRoot hfront]
    exact (locate_eq_ok_iff.mp hloc).2
  have hstart : t.start (.fromRoot (ps ++ [piece])) = [] := if_pos (Path.isAbsolute_fromRoot _)
  rw [present, hrefusal, hsteps, List.getLast?_concat, List.dropLast_concat, hstart, hfollow]
  simp [hdir, hshort, hsize, hnode]

/-- A path that ends in no name leads to a directory, if anywhere. -/
theorem isFile_eq_false_of_steps (habs : p.isAbsolute = true) {step : Component}
    (hlast : p.steps.getLast? = some step) (hstep : step = .here ∨ step = .up) :
    t.isFile p = false := by
  rw [Bool.eq_false_iff]
  intro h
  obtain ⟨last, node, hlocate, hnode, hfile⟩ := isFile_iff.mp h
  obtain ⟨_, hreach⟩ := locate_eq_ok_iff.mp hlocate
  obtain ⟨front, hsteps⟩ := List.getLast?_eq_some_iff.mp hlast
  rw [reach, start, if_pos habs, hsteps] at hreach
  obtain ⟨fewer, loc, hloc, hrest⟩ := follow_append hreach
  obtain ⟨hdir, _⟩ := of_follow_cons hrest
  have hlast : t.isDirectoryAt last = true := by
    obtain ⟨jump, hjump⟩ := t.exists_follow_eq anyEntry fewer
    rw [hjump, walk_cons, if_pos hdir] at hrest
    rcases hstep with rfl | rfl
    · cases hrest
      exact hdir
    · -- What lies above a directory is a directory again.
      cases hrest
      have hrooted : t.Rooted loc := Rooted.follow (show t.Rooted [] from trivial) hloc
      cases loc with
      | nil => exact isDirectoryAt_nil
      | cons n above => exact hrooted.1
  rw [isDirectoryAt, hnode] at hlast
  cases node <;> simp [Node.isFile, Node.isDirectory] at hfile hlast

theorem isFile_eq_false (hps : ∀ x ∈ ps ++ [piece], '/' ∉ x)
    (hpiece : Component.ofPiece piece = .here ∨ Component.ofPiece piece = .up) :
    t.isFile (.fromRoot (ps ++ [piece])) = false := by
  refine isFile_eq_false_of_steps (Path.isAbsolute_fromRoot _) ?_ hpiece
  have hpieces : (Path.fromRoot (ps ++ [piece])).pieces = [] :: (ps ++ [piece]) :=
    Path.pieces_fromRoot (by simp) hps
  rw [Path.steps, hpieces, ← List.cons_append, List.map_append]
  exact List.getLast?_concat

/-! ## 4. Listing a directory -/

/-- The name under which a node is listed at a location, if it stands right below. -/
def listed? (loc : Location) : Location × Node → Option Name
  | (n :: above, _) => if above = loc then some n else none
  | ([], _) => none

theorem listed?_eq_some_iff {entry : Location × Node} {n : Name} :
    listed? loc entry = some n ↔ entry.1 = n :: loc := by
  obtain ⟨place, node⟩ := entry
  cases place with
  | nil => simp [listed?]
  | cons m above => simp [listed?, and_comm]

theorem entriesAt_eq (t : FileTree) (loc : Location) :
    t.entriesAt loc =
      (t.nodes.filterMap (listed? loc)).mergeSort fun a b => decide (a.text ≤ b.text) := rfl

/-- A directory lists what stands right below it. -/
theorem mem_entriesAt_iff {n : Name} :
    n ∈ t.entriesAt loc ↔ (t.node? (n :: loc)).isSome = true := by
  have hnode : t.node? (n :: loc) = t.nodes.lookup (n :: loc) := if_neg (List.cons_ne_nil _ _)
  rw [hnode, List.lookup_isSome_iff, entriesAt_eq, List.mem_mergeSort, List.mem_filterMap]
  simp only [listed?_eq_some_iff, beq_iff_eq]
  exact exists_congr fun _ => and_congr_right fun _ => eq_comm

/-- A directory lists each name once, in ascending order. -/
theorem entriesAt_sorted (t : FileTree) (loc : Location) :
    (t.entriesAt loc).Pairwise fun a b => a.text < b.text := by
  have hle : (t.entriesAt loc).Pairwise fun a b => decide (a.text ≤ b.text) = true := by
    refine List.pairwise_mergeSort (fun a b c hab hbc => ?_) (fun a b => ?_) _
    · rw [decide_eq_true_iff] at hab hbc ⊢
      exact String.le_trans hab hbc
    · rw [Bool.or_eq_true, decide_eq_true_iff, decide_eq_true_iff]
      exact String.le_total a.text b.text
  have hne : (t.entriesAt loc).Nodup := by
    rw [entriesAt_eq, (List.mergeSort_perm _ _).nodup_iff]
    refine (List.pairwise_map.mp t.nodup).filterMap _ fun x y hxy n hn m hm hnm => hxy ?_
    rw [listed?_eq_some_iff.mp hn, listed?_eq_some_iff.mp hm, hnm]
  refine (hle.and hne).imp fun hab => String.not_le.mp fun hba => hab.2 ?_
  exact Name.eq_of_text (String.le_antisymm (of_decide_eq_true hab.1) hba)

theorem entries_sorted (t : FileTree) (p : Path) :
    (t.entries p).Pairwise fun a b => a.text < b.text := by
  unfold entries
  split
  · exact t.entriesAt_sorted _
  · exact .nil

theorem entries_nodup (t : FileTree) (p : Path) : (t.entries p).Nodup := by
  refine (t.entries_sorted p).imp fun {a b} hab hne => ?_
  rw [hne] at hab
  exact String.lt_irrefl _ hab

/-- The directories on the way to a file list the next name. -/
theorem mem_entries_of_isFile (hps : ∀ x ∈ ps ++ piece :: qs, '/' ∉ x)
    (h : t.isFile (.fromRoot (ps ++ piece :: qs)) = true) {n : Name}
    (hpiece : Component.ofPiece piece = .name n) : n ∈ t.entries (.fromRoot ps) := by
  obtain ⟨loc, hloc, _, _, hname⟩ := exists_of_isFile hps h
  rw [entries, hloc]
  exact mem_entriesAt_iff.mpr (hname n hpiece).2

end FileTree

end ConfTree
