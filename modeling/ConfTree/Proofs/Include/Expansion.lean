import ConfTree.Proofs.Parser.Flat

/-!
# Reading is expanding, then reading

A parser replaces includes while it builds the tree. This module shows that the
tree is the one read from the stream in which all includes were replaced before.

1. `replacement?_eq_some_iff`, `expandOnto_of_include`, `expandOnto_of_other`: how
   `expandOnto` treats the token at the front.
2. `flat_of_expandOnto`: an expanded stream goes on from what was read, is flat
   and is no longer than allowed.
3. `expandOnto_of_run`, `run_of_expandOnto`: the simulation. A parser reads a
   stream as it reads the expanded stream, whatever it has built so far.
4. `parseTokens_eq_ok_iff_expand`: the same for a whole text.
-/

namespace ConfTree

/-! ## 1. The token at the front -/

namespace Include

section Expanding

variable {t : FileTree} {s : Settings} {first : Tracked} {read rest new behind : List Tracked}
  {atStart : Bool}

/-- An include is replaced by what its argument can be imported as. -/
theorem replacement?_eq_some_iff :
    replacement? t s first rest = some (new, behind) ↔
      ∃ argument, rest = argument :: behind ∧ argument.token.isMark = false ∧
        importTokens t s argument.token.text first.trail = .ok new := by
  constructor
  · intro h
    unfold replacement? at h
    split at h
    · cases h
    · next argument rest =>
      split at h
      · cases h
      · next hm =>
        split at h
        · cases h
        · next hnew =>
          cases h
          exact ⟨argument, rfl, by simpa using hm, hnew⟩
  · rintro ⟨argument, rfl, hm, hnew⟩
    simp [replacement?, hm, hnew]

theorem expandOnto_nil : expandOnto t s read atStart [] = some read.reverse := by
  rw [expandOnto]

theorem expandOnto_of_include (h : first.token.isInclude = true) :
    expandOnto t s read true (first :: rest) =
      match replacement? t s first rest with
      | none => none
      | some (new, behind) =>
        if s.limits.tokens < read.length + (new ++ behind).length then none
        else expandOnto t s read true (new ++ behind) := by
  rw [expandOnto]
  simp only [h, Bool.and_self, ↓reduceIte]
  split <;> simp_all

theorem expandOnto_of_other (h : (atStart && first.token.isInclude) = false) :
    expandOnto t s read atStart (first :: rest) =
      expandOnto t s (first :: read) (startsBehind atStart first.token) rest := by
  rw [expandOnto]
  simp [h]

/-! ## 2. The expanded stream -/

/-- An expanded stream goes on from what was read, no include is left in what
follows, and the whole is no longer than allowed. -/
theorem flat_of_expandOnto {flat : List Tracked}
    (hle : read.length + rest.length ≤ s.limits.tokens)
    (h : expandOnto t s read atStart rest = some flat) :
    ∃ behind, flat = read.reverse ++ behind ∧ isFlat atStart (behind.map Tracked.token) = true ∧
      flat.length ≤ s.limits.tokens := by
  fun_induction expandOnto t s read atStart rest with
  | case1 read =>
    cases h
    exact ⟨[], by simp, rfl, by simpa using hle⟩
  | case2 => cases h
  | case3 => cases h
  | case4 read atStart first rest hinc new behind _ hlen ih =>
    obtain ⟨flatBehind, hflat, hfree, hfits⟩ := ih (Nat.not_lt.mp hlen) h
    have hstart : atStart = true := by
      rw [Bool.and_eq_true] at hinc
      exact hinc.1
    exact ⟨flatBehind, hflat, by rw [hstart]; exact hfree, hfits⟩
  | case5 read atStart first rest hinc ih =>
    have hlen : (first :: read).length + rest.length ≤ s.limits.tokens := by
      simp only [List.length_cons] at hle ⊢
      omega
    obtain ⟨flatBehind, hflat, hfree, hfits⟩ := ih hlen h
    refine ⟨first :: flatBehind, by simpa using hflat, ?_, hfits⟩
    rw [List.map_cons]
    exact isFlat_cons.mpr ⟨by simpa using hinc, hfree⟩

end Expanding

end Include

/-! ## 3. The simulation -/

namespace Parser

section Simulation

variable {t : FileTree} {s : Settings} {p q : Parser} {first : Tracked}
  {read rest : List Tracked}

/-- A token that is taken is passed over by the expansion. -/
theorem expandOnto_of_takes (hp : p.pending = first :: rest)
    (h : Takes s.limits.blockDepth first.token p q) :
    Include.expandOnto t s read p.draft.isNone p.pending =
      Include.expandOnto t s (first :: read) q.draft.isNone rest := by
  have hother : (p.draft.isNone && first.token.isInclude) = false :=
    (Include.isFlat_cons.mp (TakesAll.cons h .nil).isFlat).1
  rw [hp, Include.expandOnto_of_other hother, h.isNone_draft]

/-- An include that a parser replaces is replaced by the expansion, which counts
the same tokens. -/
theorem expandOnto_of_splice {argument : Tracked} {behind new : List Tracked}
    (hp : p.pending = first :: argument :: behind) (hinc : p.AtInclude first.token)
    (hm : argument.token.isMark = false)
    (hnew : Include.importTokens t s argument.token.text first.trail = .ok new)
    (hle : p.total - 2 + new.length ≤ s.limits.tokens)
    (htotal : p.total = read.length + p.pending.length) :
    Include.expandOnto t s read p.draft.isNone p.pending =
      Include.expandOnto t s read true (new ++ behind) := by
  have hreplace : Include.replacement? t s first (argument :: behind) = some (new, behind) :=
    Include.replacement?_eq_some_iff.mpr ⟨argument, rfl, hm, hnew⟩
  have hlen : ¬ s.limits.tokens < read.length + (new ++ behind).length := by
    rw [hp] at htotal
    simp only [List.length_cons, List.length_append] at htotal ⊢
    omega
  rw [hp, hinc.1, Option.isNone_none, Include.expandOnto_of_include hinc.2, hreplace]
  simp only [hlen, ↓reduceIte]

/-- If a run succeeds, its stream can be expanded, and the expanded stream is read
as the same directives. -/
theorem expandOnto_of_run {ds : List Directive} (p : Parser) (read : List Tracked)
    (htotal : p.total = read.length + p.pending.length) (h : run t s p = .ok ds) :
    ∃ behind, Include.expandOnto t s read p.draft.isNone p.pending =
        some (read.reverse ++ behind) ∧
      run t s { p with pending := behind, total := 0 } = .ok ds := by
  -- The total counts what was read too, so that both sides check the same length.
  induction p using stream_induction t s generalizing read with
  | h p ih =>
    rcases run_eq_ok_cases h with ⟨hp, rfl⟩ | ⟨q, hmove, hrun⟩
    · refine ⟨[], ?_, run_of_nil rfl⟩
      rw [hp, Include.expandOnto_nil, List.append_nil]
    · have hq := ih q hmove
      cases hmove with
      | @take q first rest hp ht =>
        have hcount : q.total = (first :: read).length + rest.length := by
          rw [ht.total_eq, htotal, hp]
          simp only [List.length_cons]
          omega
        obtain ⟨behind, hexpand, hread⟩ := hq (first :: read) hcount hrun
        refine ⟨first :: behind, ?_, ?_⟩
        · rw [expandOnto_of_takes hp ht, hexpand]
          simp
        · rw [run_of_takes rfl (ht.withStream (first :: behind) 0)]
          exact hread
      | @splice first argument behind new hp hinc hm hnew hle =>
        have hcount : p.total - 2 + new.length = read.length + (new ++ behind).length := by
          rw [htotal, hp]
          simp only [List.length_cons, List.length_append]
          omega
        obtain ⟨flat, hexpand, hread⟩ := hq read hcount hrun
        refine ⟨flat, ?_, hread⟩
        rw [expandOnto_of_splice hp hinc hm hnew hle htotal]
        simpa [hinc.1] using hexpand

/-- If a stream can be expanded and the expanded stream is read as some
directives, so is the stream itself. -/
theorem run_of_expandOnto {ds : List Directive} (p : Parser) (read behind : List Tracked)
    (htotal : p.total = read.length + p.pending.length) (hle : p.total ≤ s.limits.tokens)
    (hexpand : Include.expandOnto t s read p.draft.isNone p.pending =
      some (read.reverse ++ behind))
    (hread : run t s { p with pending := behind, total := 0 } = .ok ds) :
    run t s p = .ok ds := by
  induction p using stream_induction t s generalizing read behind with
  | h p ih =>
    cases hp : p.pending with
    | nil =>
      rw [hp, Include.expandOnto_nil, Option.some.injEq, List.self_eq_append_right] at hexpand
      subst hexpand
      rw [run_of_nil rfl] at hread
      rw [run_of_nil hp]
      exact hread
    | cons first rest =>
      by_cases hinc : p.AtInclude first.token
      · -- The expansion goes on only if the parser can replace the include too.
        rw [hp, hinc.1, Option.isNone_none, Include.expandOnto_of_include hinc.2] at hexpand
        split at hexpand
        · cases hexpand
        · next new behind' hreplace =>
          obtain ⟨argument, rfl, hm, hnew⟩ := Include.replacement?_eq_some_iff.mp hreplace
          split at hexpand
          · cases hexpand
          · next hlen =>
            have hcount : p.total - 2 + new.length = read.length + (new ++ behind').length := by
              rw [htotal, hp]
              simp only [List.length_cons, List.length_append]
              omega
            have hfits : p.total - 2 + new.length ≤ s.limits.tokens := by omega
            have hmove : Move t s p _ := .splice hp hinc hm hnew hfits
            rw [run_of_move hmove]
            refine ih _ hmove read behind hcount hfits ?_ hread
            simpa [hinc.1] using hexpand
      · have hother : (p.draft.isNone && first.token.isInclude) = false := by
          rwa [atInclude_iff, Bool.not_eq_true] at hinc
        -- What is read next is the token at the front, in both streams.
        have hlen : (first :: read).length + rest.length ≤ s.limits.tokens := by
          rw [htotal, hp] at hle
          simp only [List.length_cons] at hle ⊢
          omega
        rw [hp, Include.expandOnto_of_other hother] at hexpand
        obtain ⟨behind', happ, -, -⟩ := Include.flat_of_expandOnto hlen hexpand
        rw [List.reverse_cons, List.append_assoc, List.singleton_append,
          List.append_cancel_left_eq] at happ
        subst happ
        rcases takes_or_refuses s.limits.blockDepth hinc with ⟨q, ht⟩ | ⟨f, hf⟩
        · have hmove : Move t s p { q with pending := rest } := .take hp ht
          rw [run_of_takes rfl (ht.withStream _ 0)] at hread
          rw [run_of_move hmove]
          refine ih _ hmove (first :: read) behind' ?_ ?_ ?_ hread
          · rw [ht.total_eq, htotal, hp]
            simp only [List.length_cons]
            omega
          · rw [ht.total_eq]
            exact hle
          · rw [ht.isNone_draft, hexpand]
            simp
        · rw [run_of_refuses rfl (hf.withStream _ 0)] at hread
          cases hread

end Simulation

end Parser

/-! ## 4. Texts -/

section Texts

variable {s : Settings} {flat : List Tracked}

/-- The expansion of a text is flat and no longer than allowed. -/
theorem flat_of_expand {t : FileTree} {tokens : List Token}
    (h : Include.expand t s (Parser.ofTokens t s.sourceName tokens).pending = some flat) :
    Include.isFlat true (flat.map Tracked.token) = true ∧ flat.length ≤ s.limits.tokens := by
  unfold Include.expand at h
  split at h
  · cases h
  · next hlen =>
    have hle : ([] : List Tracked).length +
        (Parser.ofTokens t s.sourceName tokens).pending.length ≤ s.limits.tokens := by
      simpa using hlen
    obtain ⟨behind, rfl, hflat, hfits⟩ := Include.flat_of_expandOnto hle h
    exact ⟨hflat, hfits⟩

/-- The tokens of a flat stream that is no longer than allowed are read like the
stream. -/
theorem parseTokens_of_flat (t t' : FileTree)
    (hflat : Include.isFlat true (flat.map Tracked.token) = true)
    (hle : flat.length ≤ s.limits.tokens) :
    parseTokens t' s (flat.map Tracked.token) = Parser.run t s { pending := flat, total := 0 } := by
  rw [parseTokens_eq_run (by simpa using hle)]
  symm
  exact Parser.run_eq_of_flat (p := { pending := flat, total := 0 }) hflat t' _ (by simp)

/-- Replacing includes while reading is the same as replacing them first: a text
is read as some directives exactly if its includes can be expanded and the
expanded text is read as these directives, with all their places. The expanded
text has no include where a statement starts, so it is read alike in every file
tree. -/
theorem parseTokens_eq_ok_iff_expand (t : FileTree) (s : Settings) (tokens : List Token) :
    (∀ ds, parseTokens t s tokens = .ok ds ↔
      ∃ flat, Include.expand t s (Parser.ofTokens t s.sourceName tokens).pending = some flat ∧
        parseTokens t s (flat.map Tracked.token) = .ok ds) ∧
    ∀ flat, Include.expand t s (Parser.ofTokens t s.sourceName tokens).pending = some flat →
      Include.isFlat true (flat.map Tracked.token) = true ∧
        ∀ t', parseTokens t' s (flat.map Tracked.token) =
          parseTokens t s (flat.map Tracked.token) := by
  refine ⟨fun ds => ⟨fun h => ?_, ?_⟩, fun flat h => ?_⟩
  · rw [parseTokens, parseFrom_eq_run] at h
    split at h
    · cases h
    · next hlen =>
      obtain ⟨flat, hexpand, hread⟩ := Parser.expandOnto_of_run _ [] (by simp) h
      have hflat : Include.expand t s (Parser.ofTokens t s.sourceName tokens).pending =
          some flat := by
        rw [Include.expand, if_neg (by simpa using hlen)]
        exact hexpand
      obtain ⟨hfree, hle⟩ := flat_of_expand hflat
      exact ⟨flat, hflat, by rw [parseTokens_of_flat t t hfree hle]; exact hread⟩
  · rintro ⟨flat, hexpand, hread⟩
    obtain ⟨hfree, hle⟩ := flat_of_expand hexpand
    rw [parseTokens_of_flat t t hfree hle] at hread
    unfold Include.expand at hexpand
    split at hexpand
    · cases hexpand
    · next hlen =>
      have htokens : tokens.length ≤ s.limits.tokens := by simpa using hlen
      rw [parseTokens_eq_run htokens]
      exact Parser.run_of_expandOnto _ [] flat (by simp) htokens hexpand hread
  · obtain ⟨hfree, hle⟩ := flat_of_expand h
    refine ⟨hfree, fun t' => ?_⟩
    rw [parseTokens_of_flat t t' hfree hle, parseTokens_of_flat t t hfree hle]

end Texts

end ConfTree
