import ConfTree.Proofs.Directive.Census
import ConfTree.Proofs.Include.Limits
import ConfTree.Proofs.Parser.Usage

/-!
# Limits are exact

A reading that succeeds under some limits is followed step by step under other
limits. As long as the states and the includes are within these, the steps are the
same; the first one that is not is refused, and a limit is blamed.

1. `limited_expand`, `limited_step`: one step.
2. `limited_run`: a run.
3. `parseUsage_within_iff_reaches`: what the usage of a text bounds.
   `parse_eq_ok_iff_usage_within`: a text.
-/

namespace ConfTree

open Directive (heightAll)

namespace Parser

section Limits

variable {t : FileTree} {s : Settings} {l : Limits} {p q : Parser} {first : Tracked}

/-! ## 1. Steps -/

/-- What leads into a block too many is refused. -/
theorem Takes.refuses_of_lt {maxDepth bound : Nat} {token : Token} (h : Takes maxDepth token p q)
    (hp : p.blocks.length ≤ bound) (hq : bound < q.blocks.length) :
    ∃ f, Refuses bound token p f ∧ f.kind = .limit := by
  cases h with
  | blank | start | finish | word => exact absurd hq (Nat.not_lt.mpr hp)
  | leave _ _ hb =>
    rw [hb, List.length_cons] at hp
    exact absurd hq (Nat.not_lt.mpr (Nat.le_of_succ_le hp))
  | enter hd ho _ => exact ⟨_, .tooDeep hd ho (Nat.le_of_lt_succ hq), rfl⟩

theorem limited_expand {argument : Tracked} {behind new : List Tracked} (place : Place)
    (hm : argument.token.isMark = false)
    (hnew : Include.importTokens t s argument.token.text first.trail = .ok new) (total : Nat) :
    Limited
      ((Include.usage t s argument.token.text first.trail).Within l ∧
        total - 2 + new.length ≤ l.tokens)
      (new ++ behind, total - 2 + new.length)
      (expand t { s with limits := l } place first.trail (argument :: behind) total) := by
  have hlimited : Limited _ new
      (Include.importTokens t { s with limits := l } argument.token.text first.trail) :=
    Include.limited_importTokens hnew
  refine ⟨fun hfits => ?_, fun hn => ?_⟩
  · have hok := hlimited.eq_ok hfits.1
    exact expand_eq_ok_iff.mpr ⟨_, _, new, rfl, hm, hok, hfits.2, rfl, rfl⟩
  · unfold expand
    simp only [hm, Bool.false_eq_true, ↓reduceIte]
    by_cases hfits : (Include.usage t s argument.token.text first.trail).Within l
    · -- All files of the include are imported, so the stream gets too long.
      have hlong : l.tokens < total - 2 + new.length := Nat.not_le.mp fun hle => hn ⟨hfits, hle⟩
      rw [hlimited.eq_ok hfits]
      exact ⟨_, if_pos hlong, rfl⟩
    · obtain ⟨f, hf, hkind⟩ := hlimited.eq_error hfits
      rw [hf]
      exact ⟨_, rfl, by simpa using hkind⟩

theorem standing_within_iff :
    p.standing.Within l ↔ p.blocks.length ≤ l.blockDepth ∧ p.total ≤ l.tokens := by
  simp [standing, Limits.Within, Limits.zero]

/-- What a step takes decides how it fares under limits that hold where it
starts. -/
theorem limited_step (h : Move t s p q) (hp : p.standing.Within l) :
    ((stepUsage t s p).Within l ∧ q.standing.Within l →
      step t { s with limits := l } p = .more q) ∧
    (¬ ((stepUsage t s p).Within l ∧ q.standing.Within l) →
      ∃ f, step t { s with limits := l } p = .failed f ∧ f.kind = .limit) := by
  rw [standing_within_iff] at hp
  cases h with
  | @take q first rest hpending ht =>
    rw [stepUsage_of_not_atInclude hpending ht.not_atInclude, standing_within_iff]
    refine ⟨fun hfits => step_of_takes hpending (ht.of_blocks_le hfits.2.1), fun hn => ?_⟩
    have hdeep : l.blockDepth < q.blocks.length := by
      refine Nat.not_le.mp fun hle => hn ⟨Limits.zero_within l, hle, ?_⟩
      show q.total ≤ l.tokens
      rw [ht.total_eq]
      exact hp.2
    obtain ⟨f, hf, hkind⟩ := ht.refuses_of_lt hp.1 hdeep
    exact ⟨f, step_of_refuses hpending hf, hkind⟩
  | @splice first argument behind new hpending hinc hm hnew _ =>
    have hlimited : Limited _ (new ++ behind, p.total - 2 + new.length)
        (expand t { s with limits := l } first.token.place first.trail (argument :: behind)
          p.total) :=
      limited_expand first.token.place hm hnew p.total
    rw [stepUsage_of_atInclude hpending hinc hm, standing_within_iff,
      step_of_atInclude hpending hinc]
    refine ⟨fun hfits => ?_, fun hn => ?_⟩
    · rw [hlimited.eq_ok ⟨hfits.1, hfits.2.2⟩]
    · obtain ⟨f, hf, hkind⟩ := hlimited.eq_error fun hfits => hn ⟨hfits.1, hp.1, hfits.2⟩
      rw [hf]
      exact ⟨f, rfl, hkind⟩

/-! ## 2. Runs -/

/-- A run that succeeds under some limits has the same result under others that
its usage is within, and exceeds all others. -/
theorem limited_run {ds : List Directive} (h : run t s p = .ok ds) (hp : p.standing.Within l) :
    Limited ((usage t s p).Within l) ds (run t { s with limits := l } p) := by
  induction p using stream_induction t s with
  | h p ih =>
    rcases run_eq_ok_cases h with ⟨hnil, rfl⟩ | ⟨q, hmove, hrun⟩
    · have hstop : ∀ q, step t s p ≠ .more q := by simp [step_of_nil hnil]
      rw [run_of_nil hnil, usage_of_stop hstop, stepUsage_of_nil hnil]
      exact .of_fits (Limits.either_within.mpr ⟨hp, Limits.zero_within l⟩)
    · obtain ⟨hmore, hfailed⟩ := limited_step hmove hp
      rw [usage_of_move hmove]
      simp only [Limits.either_within]
      -- The first step that does not fit decides the outcome, or else the rest of the run.
      by_cases hfits : (stepUsage t s p).Within l ∧ q.standing.Within l
      · rw [run_of_step (hmore hfits)]
        exact (ih q hmove hrun hfits.2).congr (by simp [hp, hfits.1])
      · obtain ⟨f, hf, hkind⟩ := hfailed hfits
        rw [run_of_failed hf]
        refine ⟨fun hall => absurd ⟨hall.1.2, ?_⟩ hfits, fun _ => ⟨f, rfl, hkind⟩⟩
        exact standing_within_usage.trans hall.2

theorem run_of_parseFrom {source : String} {tokens : List Token} {ds : List Directive}
    (h : parseFrom t s source tokens = .ok ds) : run t s (ofTokens t source tokens) = .ok ds := by
  rw [parseFrom_eq_run] at h
  split at h
  · cases h
  · exact h

theorem limited_parseFrom {source : String} {tokens : List Token} {ds : List Directive}
    (h : parseFrom t s source tokens = .ok ds) :
    Limited ((usage t s (ofTokens t source tokens)).Within l) ds
      (parseFrom t { s with limits := l } source tokens) := by
  rw [parseFrom_eq_run]
  by_cases htokens : l.tokens < tokens.length
  · -- All tokens of the text are there before the first step.
    rw [if_pos htokens]
    refine ⟨fun hfits => ?_, fun _ => ⟨_, rfl, rfl⟩⟩
    have hstart := standing_within_iff.mp (standing_within_usage.trans hfits)
    exact absurd hstart.2 (Nat.not_le.mpr htokens)
  · rw [if_neg htokens]
    refine limited_run (run_of_parseFrom h) (standing_within_iff.mpr ⟨Nat.zero_le _, ?_⟩)
    exact Nat.not_lt.mp htokens

end Limits

end Parser

/-! ## 3. Texts -/

section Texts

variable {t : FileTree} {s : Settings} {l : Limits} {bytes : List UInt8} {ds : List Directive}

theorem parseFrom_of_parse (h : parse t s bytes = .ok ds) :
    parseFrom t s s.sourceName (tokenize s.sourceName bytes) = .ok ds := by
  unfold parse at h
  split at h
  · cases h
  · exact h

theorem parseUsage_within_iff :
    (parseUsage t s bytes).Within l ↔
      bytes.length ≤ l.fileSize ∧
        (Parser.usage t s
          (Parser.ofTokens t s.sourceName (tokenize s.sourceName bytes))).Within l := by
  rw [parseUsage, Limits.either_within]
  simp [Limits.Within, Limits.zero]

/-- The usage of a text bounds its length and all that is reached from it: the
blocks that are open, the tokens, and what the include takes that is next. -/
theorem parseUsage_within_iff_reaches :
    (parseUsage t s bytes).Within l ↔
      bytes.length ≤ l.fileSize ∧
        ∀ q, Parser.Reaches t s
            (Parser.ofTokens t s.sourceName (tokenize s.sourceName bytes)) q →
          q.blocks.length ≤ l.blockDepth ∧ q.total ≤ l.tokens ∧
            (Parser.stepUsage t s q).Within l := by
  rw [parseUsage_within_iff, Parser.usage_within_iff]
  simp only [Parser.standing_within_iff, and_assoc]

theorem limited_parse (h : parse t s bytes = .ok ds) :
    Limited ((parseUsage t s bytes).Within l) ds (parse t { s with limits := l } bytes) := by
  have hguarded := (Parser.limited_parseFrom (l := l) (parseFrom_of_parse h)).guard
    (f := {
      cause := .inputTooLong bytes.length l.fileSize
      place := { file := s.sourceName } })
    (P := l.fileSize < bytes.length) rfl
  exact hguarded.congr (by rw [parseUsage_within_iff, Nat.not_lt])

theorem heightAll_of_parse (h : parse t s bytes = .ok ds) :
    heightAll ds = (parseUsage t s bytes).blockDepth := by
  have hrun := Parser.run_of_parseFrom (parseFrom_of_parse h)
  rw [Parser.heightAll_of_run hrun]
  rfl

/-- Every limit is enforced exactly and changes nothing else. Let a text be read
without limits, and let its usage be what that takes: the size of the largest text,
the deepest nesting of blocks, which is the height of the tree, the longest trail
of includes, the most files of one include and the most tokens at any time. Then
the text is read as the same tree under all limits that its usage is within, and
fails with a fault that blames a limit under all others. So it is read under all
limits greater than those it is read under, and the census of a tree that is read
finds no more blocks around a directive than are allowed. -/
theorem parse_eq_ok_iff_usage_within (t : FileTree) (s : Settings) (bytes : List UInt8) :
    (∀ ds, parse t { s with limits := .unlimited } bytes = .ok ds →
      (parseUsage t { s with limits := .unlimited } bytes).blockDepth = heightAll ds ∧
      ∀ l : Limits,
        (parse t { s with limits := l } bytes = .ok ds ↔
          (parseUsage t { s with limits := .unlimited } bytes).Within l) ∧
        (¬ (parseUsage t { s with limits := .unlimited } bytes).Within l →
          ∃ f, parse t { s with limits := l } bytes = .error f ∧ f.kind = .limit)) ∧
    (∀ (l m : Limits) ds, l.Within m → parse t { s with limits := l } bytes = .ok ds →
      parse t { s with limits := m } bytes = .ok ds) ∧
    ∀ (l : Limits) ds, parse t { s with limits := l } bytes = .ok ds →
      (Census.ofTree ds).maxDepth ≤ l.blockDepth := by
  have hlimited : ∀ {l m : Limits} {ds}, parse t { s with limits := m } bytes = .ok ds →
      Limited ((parseUsage t { s with limits := m } bytes).Within l) ds
        (parse t { s with limits := l } bytes) :=
    fun h => limited_parse h
  -- What is read under some limits has a usage within them.
  have hwithin : ∀ {l : Limits} {ds}, parse t { s with limits := l } bytes = .ok ds →
      (parseUsage t { s with limits := l } bytes).Within l :=
    fun h => (hlimited h).eq_ok_iff.mp h
  refine ⟨fun ds h => ⟨(heightAll_of_parse h).symm, fun l => ?_⟩, fun l m ds hlm h => ?_,
    fun l ds h => ?_⟩
  · exact ⟨(hlimited h).eq_ok_iff, (hlimited h).eq_error⟩
  · exact (hlimited h).eq_ok ((hwithin h).trans hlm)
  · calc
      (Census.ofTree ds).maxDepth ≤ heightAll ds := Census.maxDepth_ofTree_le ds
      _ = (parseUsage t { s with limits := l } bytes).blockDepth := heightAll_of_parse h
      _ ≤ l.blockDepth := (hwithin h).2.1

end Texts

end ConfTree
