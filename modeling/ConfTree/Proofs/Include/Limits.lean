import ConfTree.Parser.Usage
import ConfTree.Proofs.Limits

/-!
# Imports under limits

What one include takes decides how it fares under limits.

1. `Source.readChunks_eq`, `readTokens_eq`: a source is read to its end only if it
   is short enough.
2. `limited_load`, `limited_enter`: one file.
3. `limited_importTokens`: all files of an include, which stay within the limits
   exactly if `Include.usage` does.
-/

namespace ConfTree

/-! ## 1. Reading -/

/-- What a source delivers behind the bytes that are wanted does not matter. -/
theorem Source.readChunks_eq (failure : Option String) (wanted : Nat)
    (chunks : List (List UInt8)) :
    readChunks failure wanted chunks =
      if wanted ≤ chunks.flatten.length then .ok (chunks.flatten.take wanted)
      else match failure with
        | none => .ok chunks.flatten
        | some reason => .error reason := by
  fun_induction readChunks failure wanted chunks with
  | case1 => simp
  | case2 _ hnone => simp [hnone]
  | case3 _ _ hsome => simp [hsome]
  | case4 wanted chunk chunks ih =>
    -- What the first chunk has is not wanted from the others.
    have hsub : wanted + 1 - chunk.length ≤ chunks.flatten.length ↔
        wanted + 1 ≤ (chunk :: chunks).flatten.length := by
      rw [List.flatten_cons, List.length_append]
      omega
    rw [ih]
    simp only [hsub]
    split
    · rw [List.flatten_cons, List.take_append]
      rfl
    · next hlen =>
      have hchunk : chunk.take (wanted + 1) = chunk := by
        refine List.take_of_length_le ?_
        rw [List.flatten_cons, List.length_append] at hlen
        omega
      cases failure with
      | none =>
        rw [List.flatten_cons, hchunk]
        rfl
      | some reason => rfl

/-- Who wants more bytes than a source delivers learns how it ends. -/
theorem Source.read_of_lt {source : Source} {wanted : Nat}
    (h : source.bytes.length < wanted) :
    source.read wanted =
      match source.failure with
      | none => .ok source.bytes
      | some reason => .error reason := by
  rw [read, readChunks_eq]
  exact if_neg (Nat.not_le.mpr h)

section Files

variable {t : FileTree} {limits l : Limits} {p : Path} {tokens : List Token}

/-- A source that delivers too much is told so, whether or not it would fail behind
that; any other source is read to its end, or fails before. -/
theorem readTokens_eq (file : String) (source : Source) (l : Limits) :
    readTokens file source l =
      if l.fileSize < source.bytes.length then
        .error { cause := .readTooLong l.fileSize, place := { file } }
      else match source.failure with
        | none => .ok (tokenize file source.bytes)
        | some reason => .error { cause := .unreadable reason, place := { file } } := by
  by_cases hlen : l.fileSize < source.bytes.length
  · have hread : source.read (l.fileSize + 1) = .ok (source.bytes.take (l.fileSize + 1)) := by
      rw [Source.read, Source.readChunks_eq]
      exact if_pos hlen
    rw [if_pos hlen, readTokens, hread]
    refine if_pos ?_
    rw [List.length_take, Nat.min_eq_left hlen]
    exact Nat.lt_succ_self _
  · rw [if_neg hlen, readTokens, Source.read_of_lt (Nat.lt_succ_of_le (Nat.le_of_not_lt hlen))]
    cases source.failure with
    | none => exact if_neg hlen
    | some reason => rfl

theorem readTokens_of_le {file : String} {source : Source} (hnone : source.failure = none)
    (hlen : source.bytes.length ≤ l.fileSize) :
    readTokens file source l = .ok (tokenize file source.bytes) := by
  rw [readTokens_eq, if_neg (Nat.not_lt.mpr hlen), hnone]

theorem readTokens_of_lt {file : String} {source : Source}
    (hlen : l.fileSize < source.bytes.length) :
    readTokens file source l =
      .error { cause := .readTooLong l.fileSize, place := { file } } := by
  rw [readTokens_eq, if_pos hlen]

/-- A text that is read at all is short enough, and its source does not fail. -/
theorem readTokens_eq_ok_iff {file : String} {source : Source} :
    readTokens file source l = .ok tokens ↔
      source.failure = none ∧ source.bytes.length ≤ l.fileSize ∧
        tokens = tokenize file source.bytes := by
  rw [readTokens_eq]
  split
  · next hlen => simp [Nat.not_le.mpr hlen]
  · next hlen =>
    cases source.failure with
    | none => simp [Nat.le_of_not_lt hlen, eq_comm]
    | some reason => simp

theorem limited_readTokens {file : String} {source : Source}
    (h : readTokens file source limits = .ok tokens) :
    Limited (source.bytes.length ≤ l.fileSize) tokens (readTokens file source l) := by
  obtain ⟨hnone, -, rfl⟩ := readTokens_eq_ok_iff.mp h
  exact ⟨readTokens_of_le hnone, fun hn => ⟨_, readTokens_of_lt (Nat.not_le.mp hn), rfl⟩⟩

/-! ## 2. One file -/

/-- A path that can be loaded leads to a file, whose text is read. -/
theorem readTokens_of_load (h : load t limits p = .ok tokens) :
    ∃ content executable, t.stat p = .ok (.file content executable) ∧
      readTokens p.text content limits = .ok tokens := by
  unfold load at h
  split at h
  · cases h
  · next content executable hstat =>
    refine ⟨content, executable, hstat, ?_⟩
    split at h
    · cases h
    · exact h
  · cases h

theorem limited_load (h : load t limits p = .ok tokens) :
    Limited (t.size p ≤ l.fileSize) tokens (load t l p) := by
  obtain ⟨content, executable, hstat, hread⟩ := readTokens_of_load h
  have hsize : t.size p = content.bytes.length := by
    rw [FileTree.size, hstat]
  have hlimited : Limited _ tokens (readTokens p.text content l) := limited_readTokens hread
  rw [hsize]
  refine ⟨fun hle => ?_, fun hn => ?_⟩
  · simp only [load, hstat, hlimited.eq_ok hle]
  · obtain ⟨f, hf, hkind⟩ := hlimited.eq_error hn
    refine ⟨f, ?_, hkind⟩
    -- A fault that blames a limit is not laid to the file.
    simp only [load, hstat, hf]
    split
    · next hunreadable =>
      cases hunreadable
      cases hkind
    · rfl

theorem limited_enter {c d : Trail} (h : c.enter t p limits.includeDepth = .ok d) :
    Limited (c.depth < l.includeDepth) d (c.enter t p l.includeDepth) := by
  obtain ⟨hnew, -, rfl⟩ := Trail.enter_eq_ok_iff.mp h
  refine ⟨fun hlt => Trail.enter_eq_ok_iff.mpr ⟨hnew, hlt, rfl⟩, fun hn => ?_⟩
  refine ⟨{ cause := .includesTooDeep p l.includeDepth }, ?_, rfl⟩
  simp [Trail.enter, hnew, Nat.not_lt.mp hn]

end Files

/-! ## 3. All files of an include -/

namespace Include

section Imports

variable {t : FileTree} {limits l : Limits} {c : Trail} {new : List Tracked}

theorem limited_importFile {p : Path} (h : importFile t limits c p = .ok new) :
    Limited (c.depth < l.includeDepth ∧ t.size p ≤ l.fileSize) new (importFile t l c p) := by
  obtain ⟨inner, he, h⟩ := bind_eq_ok_iff.mp h
  obtain ⟨tokens, hl, h⟩ := bind_eq_ok_iff.mp h
  cases h
  exact (limited_enter he).bind ((limited_load hl).map _)

theorem limited_importFiles {ps : List Path} (h : importFiles t limits c ps = .ok new) :
    Limited (∀ p ∈ ps, c.depth < l.includeDepth ∧ t.size p ≤ l.fileSize) new
      (importFiles t l c ps) := by
  induction ps generalizing new with
  | nil =>
    cases h
    exact .of_fits (by simp)
  | cons p ps ih =>
    obtain ⟨these, hp, h⟩ := bind_eq_ok_iff.mp h
    obtain ⟨those, hps, h⟩ := bind_eq_ok_iff.mp h
    cases h
    have hall : Limited _ (these ++ those) (importFiles t l c (p :: ps)) :=
      (limited_importFile hp).bind ((ih hps).map _)
    exact hall.congr (by rw [List.forall_mem_cons])

/-- An include stays within limits if its files are not too many, too deep or too
long. -/
theorem usage_within_iff {s : Settings} {argument : String} {files : List Path}
    (h : resolve t s.layout argument = .ok files) :
    (usage t s argument c).Within l ↔
      files.length ≤ l.includeFiles ∧
        ∀ p ∈ files, c.depth < l.includeDepth ∧ t.size p ≤ l.fileSize := by
  have hsizes : (files.map t.size).foldl max 0 ≤ l.fileSize ↔
      ∀ p ∈ files, t.size p ≤ l.fileSize := by
    have hmax : (0 :: files.map t.size).max? = some ((files.map t.size).foldl max 0) := rfl
    rw [List.max?_le_iff hmax]
    simp
  unfold usage
  simp only [h, Limits.Within, Limits.zero, hsizes, Nat.zero_le, true_and, and_true]
  cases files with
  | nil => simp
  | cons p ps =>
    simp only [List.isEmpty_cons, Bool.false_eq_true, ↓reduceIte, List.forall_mem_cons]
    grind

theorem limited_importTokens {s : Settings} {argument : String}
    (h : importTokens t s argument c = .ok new) :
    Limited ((usage t s argument c).Within l) new
      (importTokens t { s with limits := l } argument c) := by
  obtain ⟨files, hfiles, h⟩ := bind_eq_ok_iff.mp h
  split at h
  · cases h
  · have hall := (limited_importFiles (l := l) h).guard
      (f := { cause := .tooManyFiles argument files.length l.includeFiles })
      (P := l.includeFiles < files.length) rfl
    rw [importTokens, hfiles]
    refine Limited.congr hall ?_
    rw [usage_within_iff hfiles, Nat.not_lt]

end Imports

end Include

end ConfTree
