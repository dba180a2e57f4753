import ConfTree.Include.Import
import ConfTree.Proofs.Include.Limits

/-!
# What an include can fail with

Every part of an include has faults of its own: finding its files blames the
pattern or the search, reading them blames the files or a limit. So a cycle is
found by entering a file, and nowhere else.

None of these faults is laid to a place, but for that of a file that is too long.

1. `resolve_error_cases`: finding files.
2. `load_error_cases`: reading a file.
3. `enter_eq_error_iff`: entering a file.
4. `importFiles_eq_cycle_iff`, `importTokens_eq_cycle_iff`: the first file that is
   on the trail already is blamed.
5. `importTokens_error_cases`: all that an include can fail with.
-/

namespace ConfTree

namespace Cause

/-- The pattern of an include is to blame. -/
def blamesPattern : Cause → Bool
  | secondStar _ | secondQuestionMark _ | classAndWildcard _ | badClass .. => true
  | _ => false

/-- A file that was found is to blame. -/
def blamesFile : Cause → Bool
  | cannotOpen .. | isDirectory _ | cannotRead .. => true
  | _ => false

theorem kind_of_blamesPattern {cause : Cause} (h : cause.blamesPattern = true) :
    cause.kind = .pattern := by
  cases cause <;> first | rfl | cases h

theorem kind_of_blamesFile {cause : Cause} (h : cause.blamesFile = true) :
    cause.kind = .inclusion := by
  cases cause <;> first | rfl | cases h

end Cause

variable {t : FileTree} {f : Fault}

/-! ## 1. Finding files -/

namespace Include

variable {l : Layout}

theorem pattern_of_screen {pattern : String} (h : screen pattern = .error f) :
    ∃ cause, cause.blamesPattern = true ∧ f = { cause } := by
  unfold screen at h
  split at h
  · next cause hcause =>
    cases h
    refine ⟨cause, ?_, rfl⟩
    unfold refusal? at hcause
    dsimp only at hcause
    split at hcause
    · cases hcause
      rfl
    · split at hcause
      · cases hcause
        rfl
      · split at hcause
        · cases hcause
          rfl
        · cases hcause
  · cases h

theorem pattern_of_find {pattern : String} (h : find t pattern = .error f) :
    ∃ cause, cause.blamesPattern = true ∧ f = { cause } := by
  unfold find at h
  split at h
  · cases h
  · next e _ =>
    cases h
    exact ⟨.badClass pattern e, rfl, rfl⟩

theorem pattern_of_findAll {patterns : List String} (h : findAll t patterns = .error f) :
    ∃ cause, cause.blamesPattern = true ∧ f = { cause } := by
  induction patterns with
  | nil => cases h
  | cons pattern patterns ih =>
    rcases bind_eq_error_iff.mp h with h | ⟨_, _, h⟩
    · exact pattern_of_find h
    · rcases bind_eq_error_iff.mp h with h | ⟨_, _, h⟩
      · exact ih h
      · cases h

theorem pattern_of_findBelow {relative : Path} (h : findBelow t l relative = .error f) :
    ∃ cause, cause.blamesPattern = true ∧ f = { cause } := by
  unfold findBelow at h
  split at h
  · cases h
  · exact pattern_of_findAll h

theorem pattern_of_findCleaned {cleaned : Path} (h : findCleaned t l cleaned = .error f) :
    ∃ cause, cause.blamesPattern = true ∧ f = { cause } := by
  have hbelow : ∀ {direct : List Path},
      (if direct.isEmpty then findBelow t l cleaned.stripRoot else pure direct) = .error f →
        ∃ cause, cause.blamesPattern = true ∧ f = { cause } := by
    intro direct h
    split at h
    · exact pattern_of_findBelow h
    · cases h
  unfold findCleaned at h
  dsimp only at h
  split at h
  · rcases bind_eq_error_iff.mp h with h | ⟨direct, _, h⟩
    · exact pattern_of_find h
    · exact hbelow h
  · rcases bind_eq_error_iff.mp h with h | ⟨direct, _, h⟩
    · cases h
    · exact hbelow h

/-- An argument that cannot be resolved is blamed on its pattern, or on the
search. -/
theorem resolve_error_cases {argument : String} (h : resolve t l argument = .error f) :
    (∃ cause, cause.blamesPattern = true ∧ f = { cause }) ∨
      f = { cause := .noMatch argument l.root } := by
  rcases bind_eq_error_iff.mp h with h | ⟨_, _, h⟩
  · exact .inl (pattern_of_screen h)
  · rcases bind_eq_error_iff.mp h with h | ⟨files, _, h⟩
    · exact .inl (pattern_of_findCleaned h)
    · dsimp only at h
      split at h
      · cases h
        exact .inr rfl
      · cases h

theorem kind_of_resolve {argument : String} (h : resolve t l argument = .error f) :
    f.kind = .pattern ∨ f.kind = .inclusion := by
  rcases resolve_error_cases h with ⟨cause, hcause, rfl⟩ | rfl
  · exact .inl (Cause.kind_of_blamesPattern hcause)
  · exact .inr rfl

end Include

/-! ## 2. Reading a file -/

/-- A file that cannot be loaded is to blame, unless it is too long; then the fault
is laid to it. -/
theorem load_error_cases {limits : Limits} {p : Path} (h : load t limits p = .error f) :
    (∃ cause, cause.blamesFile = true ∧ f = { cause }) ∨
      limits.fileSize < t.size p ∧
        f = { cause := .readTooLong limits.fileSize, place := { file := p.text } } := by
  unfold load at h
  split at h
  · next e _ =>
    cases h
    exact .inl ⟨.cannotOpen p e, rfl, rfl⟩
  · next content _ hstat =>
    rw [readTokens_eq] at h
    by_cases hlen : limits.fileSize < content.bytes.length
    · rw [if_pos hlen] at h
      cases h
      exact .inr ⟨by rwa [FileTree.size, hstat], rfl⟩
    · rw [if_neg hlen] at h
      cases hend : content.failure with
      | none => simp [hend] at h
      | some reason =>
        simp only [hend] at h
        cases h
        exact .inl ⟨.cannotRead p reason, rfl, rfl⟩
  · cases h
    exact .inl ⟨.isDirectory p, rfl, rfl⟩

theorem kind_of_load {limits : Limits} {p : Path} (h : load t limits p = .error f) :
    f.kind = .inclusion ∨ f.kind = .limit := by
  rcases load_error_cases h with ⟨cause, hcause, rfl⟩ | ⟨_, rfl⟩
  · exact .inl (Cause.kind_of_blamesFile hcause)
  · exact .inr rfl

/-! ## 3. Entering a file -/

/-- A file on the trail is refused before the length of the trail is looked at. -/
theorem Trail.enter_eq_error_iff {c : Trail} {p : Path} {maxDepth : Nat} :
    c.enter t p maxDepth = .error f ↔
      c.mentions (t.identity p) = true ∧
          f = { cause := .alreadyIncluded p c.describe (t.identity p) } ∨
        c.mentions (t.identity p) = false ∧ maxDepth ≤ c.depth ∧
          f = { cause := .includesTooDeep p maxDepth } := by
  unfold enter
  by_cases hm : c.mentions (t.identity p) = true
  · simp [hm, eq_comm]
  · by_cases hd : maxDepth ≤ c.depth
    · simp [hm, hd, eq_comm]
    · simp [hm, hd]

/-! ## 4. Cycles -/

namespace Include

variable {c : Trail}

/-- A file is blamed for a cycle exactly if it is on the trail. -/
theorem importFile_eq_cycle_iff {limits : Limits} {p : Path} :
    importFile t limits c p = .error f ∧ f.kind = .cycle ↔
      c.mentions (t.identity p) = true ∧
        f = { cause := .alreadyIncluded p c.describe (t.identity p) } := by
  constructor
  · rintro ⟨h, hkind⟩
    rcases bind_eq_error_iff.mp h with h | ⟨inner, _, h⟩
    · rcases Trail.enter_eq_error_iff.mp h with hcycle | ⟨_, _, rfl⟩
      · exact hcycle
      · cases hkind
    · rcases bind_eq_error_iff.mp h with h | ⟨_, _, h⟩
      · rcases kind_of_load h with h | h <;> simp [h] at hkind
      · cases h
  · rintro ⟨hm, rfl⟩
    exact ⟨bind_eq_error_iff.mpr (.inl (Trail.enter_eq_error_iff.mpr (.inl ⟨hm, rfl⟩))), rfl⟩

/-- Files that are imported are not on the trail. -/
theorem mentions_eq_false_of_importFiles {limits : Limits} {ps : List Path} {new : List Tracked}
    (h : importFiles t limits c ps = .ok new) : ∀ p ∈ ps, c.mentions (t.identity p) = false := by
  induction ps generalizing new with
  | nil => simp
  | cons p ps ih =>
    obtain ⟨_, hp, h⟩ := bind_eq_ok_iff.mp h
    obtain ⟨_, hps, _⟩ := bind_eq_ok_iff.mp h
    obtain ⟨_, henter, _⟩ := bind_eq_ok_iff.mp hp
    exact List.forall_mem_cons.mpr ⟨(Trail.enter_eq_ok_iff.mp henter).1, ih hps⟩

/-- Importing goes on behind the files that can be imported. -/
theorem importFiles_append_of_ok {limits : Limits} {before after : List Path}
    {new : List Tracked} (h : importFiles t limits c before = .ok new) :
    importFiles t limits c (before ++ after) =
      (importFiles t limits c after).map (new ++ ·) := by
  induction before generalizing new with
  | nil =>
    cases h
    cases hafter : importFiles t limits c after <;> simp [hafter, Except.map]
  | cons p before ih =>
    obtain ⟨these, hp, h⟩ := bind_eq_ok_iff.mp h
    obtain ⟨those, hbefore, h⟩ := bind_eq_ok_iff.mp h
    cases h
    rw [List.cons_append, importFiles, hp, ih hbefore]
    cases importFiles t limits c after <;> simp [Except.map, bind, Except.bind, pure, Except.pure]

/-- Of several files, the first that cannot be imported is blamed, and for a cycle
exactly if it is on the trail. -/
theorem importFiles_eq_cycle_iff {limits : Limits} {ps : List Path} :
    importFiles t limits c ps = .error f ∧ f.kind = .cycle ↔
      ∃ before p after new, ps = before ++ p :: after ∧
        importFiles t limits c before = .ok new ∧ c.mentions (t.identity p) = true ∧
        f = { cause := .alreadyIncluded p c.describe (t.identity p) } := by
  constructor
  · rintro ⟨h, hkind⟩
    induction ps with
    | nil => cases h
    | cons p ps ih =>
      rcases bind_eq_error_iff.mp h with h | ⟨these, hp, h⟩
      · obtain ⟨hm, rfl⟩ := importFile_eq_cycle_iff.mp ⟨h, hkind⟩
        exact ⟨[], p, ps, [], rfl, rfl, hm, rfl⟩
      · rcases bind_eq_error_iff.mp h with h | ⟨_, _, h⟩
        · obtain ⟨before, q, after, new, rfl, hbefore, hm, rfl⟩ := ih h
          refine ⟨p :: before, q, after, these ++ new, rfl, ?_, hm, rfl⟩
          rw [importFiles, hp, hbefore]
          rfl
        · cases h
  · rintro ⟨before, p, after, new, rfl, hbefore, hm, rfl⟩
    have hcycle : importFile t limits c p = .error _ ∧ _ :=
      importFile_eq_cycle_iff.mpr ⟨hm, rfl⟩
    obtain ⟨hp, hkind⟩ := hcycle
    refine ⟨?_, hkind⟩
    rw [importFiles_append_of_ok hbefore, importFiles, hp]
    rfl

/-- An include is blamed for a cycle exactly if a file that it stands for is on the
trail of the include, and all files in front of that one can be imported. -/
theorem importTokens_eq_cycle_iff {s : Settings} {argument : String} :
    importTokens t s argument c = .error f ∧ f.kind = .cycle ↔
      ∃ before p after new, resolve t s.layout argument = .ok (before ++ p :: after) ∧
        (before ++ p :: after).length ≤ s.limits.includeFiles ∧
        importFiles t s.limits c before = .ok new ∧ c.mentions (t.identity p) = true ∧
        f = { cause := .alreadyIncluded p c.describe (t.identity p) } := by
  constructor
  · rintro ⟨h, hkind⟩
    rcases bind_eq_error_iff.mp h with h | ⟨files, hfiles, h⟩
    · rcases kind_of_resolve h with h | h <;> simp [h] at hkind
    · split at h
      · cases h
        cases hkind
      · next hle =>
        obtain ⟨before, p, after, new, rfl, hbefore, hm, rfl⟩ :=
          importFiles_eq_cycle_iff.mp ⟨h, hkind⟩
        exact ⟨before, p, after, new, hfiles, Nat.not_lt.mp hle, hbefore, hm, rfl⟩
  · rintro ⟨before, p, after, new, hfiles, hle, hbefore, hm, rfl⟩
    obtain ⟨h, hkind⟩ := importFiles_eq_cycle_iff.mpr ⟨before, p, after, new, rfl, hbefore, hm, rfl⟩
    refine ⟨?_, hkind⟩
    rw [importTokens, hfiles, ← h]
    exact if_neg (Nat.not_lt.mpr hle)

end Include

/-! ## 5. All faults of an include -/

/-- An include is to blame, for its pattern, its files or its trail. -/
def Cause.blamesInclude : Cause → Bool
  | noMatch .. | tooManyFiles .. | alreadyIncluded .. | includesTooDeep .. => true
  | cause => cause.blamesPattern || cause.blamesFile

theorem Cause.blamesInclude_of_pattern {cause : Cause} (h : cause.blamesPattern = true) :
    cause.blamesInclude = true := by
  cases cause <;> first | rfl | cases h

theorem Cause.blamesInclude_of_file {cause : Cause} (h : cause.blamesFile = true) :
    cause.blamesInclude = true := by
  cases cause <;> first | rfl | cases h

namespace Include

variable {c : Trail}

theorem importFile_error_cases {limits : Limits} {p : Path}
    (h : importFile t limits c p = .error f) :
    (∃ cause, cause.blamesInclude = true ∧ f = { cause }) ∨
      limits.fileSize < t.size p ∧
        f = { cause := .readTooLong limits.fileSize, place := { file := p.text } } := by
  rcases bind_eq_error_iff.mp h with h | ⟨_, _, h⟩
  · rcases Trail.enter_eq_error_iff.mp h with ⟨_, hf⟩ | ⟨_, _, hf⟩
    · exact .inl ⟨_, rfl, hf⟩
    · exact .inl ⟨_, rfl, hf⟩
  · rcases bind_eq_error_iff.mp h with h | ⟨_, _, h⟩
    · rcases load_error_cases h with ⟨cause, hcause, hf⟩ | hlong
      · exact .inl ⟨cause, Cause.blamesInclude_of_file hcause, hf⟩
      · exact .inr hlong
    · cases h

theorem importFiles_error_cases {limits : Limits} {ps : List Path}
    (h : importFiles t limits c ps = .error f) :
    (∃ cause, cause.blamesInclude = true ∧ f = { cause }) ∨
      ∃ p ∈ ps, limits.fileSize < t.size p ∧
        f = { cause := .readTooLong limits.fileSize, place := { file := p.text } } := by
  induction ps with
  | nil => cases h
  | cons p ps ih =>
    rcases bind_eq_error_iff.mp h with h | ⟨_, _, h⟩
    · exact (importFile_error_cases h).imp_right fun hlong => ⟨p, List.mem_cons_self, hlong⟩
    · rcases bind_eq_error_iff.mp h with h | ⟨_, _, h⟩
      · exact (ih h).imp_right fun ⟨q, hq, hlong⟩ => ⟨q, List.mem_cons_of_mem _ hq, hlong⟩
      · cases h

/-- An include that cannot be imported fails without a place, unless one of its
files is too long; then the fault is laid to that file. -/
theorem importTokens_error_cases {s : Settings} {argument : String}
    (h : importTokens t s argument c = .error f) :
    (∃ cause, cause.blamesInclude = true ∧ f = { cause }) ∨
      ∃ files, resolve t s.layout argument = .ok files ∧
        ∃ p ∈ files, s.limits.fileSize < t.size p ∧
          f = { cause := .readTooLong s.limits.fileSize, place := { file := p.text } } := by
  rcases bind_eq_error_iff.mp h with h | ⟨files, hfiles, h⟩
  · rcases resolve_error_cases h with ⟨cause, hcause, hf⟩ | hf
    · exact .inl ⟨cause, Cause.blamesInclude_of_pattern hcause, hf⟩
    · exact .inl ⟨_, rfl, hf⟩
  · split at h
    · cases h
      exact .inl ⟨_, rfl, rfl⟩
    · exact (importFiles_error_cases h).imp_right fun hlong => ⟨files, hfiles, hlong⟩

end Include

end ConfTree
