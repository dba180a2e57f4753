import ConfTree.Parser.Usage
import ConfTree.Proofs.Directive.Height
import ConfTree.Proofs.Limits
import ConfTree.Proofs.Parser.Descent

/-!
# What a run takes

The usage of a run is collected along its steps.

1. `usage_of_move`, `usage_of_stop`: usage step by step.
2. `usage_within_iff`: a usage is within limits if all states that are reached
   are, with the includes expanded there.
3. `heightAll_of_run`: the depth that a run takes is the height of its tree.
-/

namespace ConfTree.Parser

open Directive (height heightAll heightAll_reverse)

section Usage

variable {t : FileTree} {s : Settings} {l : Limits} {p q : Parser} {first : Tracked}

/-! ## 1. Steps -/

theorem stepUsage_of_nil (hp : p.pending = []) : stepUsage t s p = .zero := by
  simp [stepUsage, hp]

theorem stepUsage_of_not_atInclude {rest : List Tracked} (hp : p.pending = first :: rest)
    (h : ¬ p.AtInclude first.token) : stepUsage t s p = .zero := by
  have hnone : p.argument? = none := by
    unfold argument?
    split
    · next hd hp' =>
      rw [hp] at hp'
      cases hp'
      simp_all [AtInclude]
    · rfl
  simp [stepUsage, hnone]

theorem stepUsage_of_atInclude {argument : Tracked} {behind : List Tracked}
    (hp : p.pending = first :: argument :: behind) (hinc : p.AtInclude first.token)
    (hm : argument.token.isMark = false) :
    stepUsage t s p = Include.usage t s argument.token.text first.trail := by
  simp [stepUsage, argument?, hp, hinc.1, hinc.2, hm]

theorem usage_of_move (h : Move t s p q) :
    usage t s p = (p.standing.either (stepUsage t s p)).either (usage t s q) := by
  have hs := step_eq_more_iff.mpr h
  rw [usage]
  split
  · next r hr =>
    rw [hs] at hr
    cases hr
    rfl
  · next hn => exact absurd hs (hn q)

theorem usage_of_stop (h : ∀ q, step t s p ≠ .more q) :
    usage t s p = p.standing.either (stepUsage t s p) := by
  rw [usage]
  split
  · next q hq => exact absurd hq (h q)
  · rfl

/-! ## 2. All that is reached -/

/-- What a run takes is within limits if it is so in every state that is reached. -/
theorem usage_within_iff :
    (usage t s p).Within l ↔
      ∀ q, Reaches t s p q → q.standing.Within l ∧ (stepUsage t s q).Within l := by
  induction p using stream_induction t s with
  | h p ih =>
    by_cases hmore : ∃ q, step t s p = .more q
    · obtain ⟨q, hs⟩ := hmore
      have hmove := step_eq_more_iff.mp hs
      rw [usage_of_move hmove, Limits.either_within, Limits.either_within, ih q hmove]
      constructor
      · rintro ⟨hp, hq⟩ r hr
        rcases hr.cases_step with rfl | ⟨q', hs', hr⟩
        · exact hp
        · rw [hs] at hs'
          cases hs'
          exact hq r hr
      · exact fun h => ⟨h p .refl, fun r hr => h r (.of_step hs hr)⟩
    · rw [usage_of_stop (not_exists.mp hmore), Limits.either_within]
      constructor
      · intro hp r hr
        rcases hr.cases_step with rfl | ⟨q, hs, _⟩
        · exact hp
        · exact absurd ⟨q, hs⟩ hmore
      · exact fun h => h p .refl

theorem standing_within_usage : p.standing.Within (usage t s p) :=
  (usage_within_iff.mp (Limits.Within.refl _) p .refl).1

/-! ## 3. The depth of blocks -/

theorem blockDepth_stepUsage : (stepUsage t s p).blockDepth = 0 := by
  unfold stepUsage
  split
  · unfold Include.usage
    split <;> rfl
  · rfl

/-- Around an inner block, the open blocks are as high as they are many. -/
theorem heightAll_close (blocks : List OpenBlock) (done : List Directive) :
    heightAll (close blocks done) =
      max (heightAll (close blocks [])) (blocks.length + heightAll done) := by
  induction blocks generalizing done with
  | nil => simp [close, heightAll_reverse, heightAll]
  | cons b blocks ih =>
    rw [close, close, ih, ih (.block b.head [].reverse :: b.before)]
    simp only [heightAll, height, heightAll_reverse, List.length_cons, List.reverse_nil]
    omega

theorem heightAll_close_simple (blocks : List OpenBlock) (head : Statement)
    (done : List Directive) :
    heightAll (close blocks (.simple head :: done)) = heightAll (close blocks done) := by
  rw [heightAll_close, heightAll_close blocks done, heightAll, height, Nat.zero_max]

theorem blocks_length_le_heightAll_result : p.blocks.length ≤ heightAll p.result := by
  unfold result
  split <;>
    · rw [heightAll_close]
      omega

/-- Only a token that opens a block makes the result higher. -/
theorem Takes.heightAll_result {maxDepth : Nat} {token : Token} (h : Takes maxDepth token p q) :
    heightAll q.result = max (heightAll p.result) q.blocks.length := by
  have hq : q.blocks.length ≤ heightAll q.result := blocks_length_le_heightAll_result
  suffices hheight : heightAll q.result = heightAll p.result ∨
      heightAll q.result = max (heightAll p.result) q.blocks.length by omega
  cases h with
  | blank => exact .inl rfl
  | leave hd _ hb => exact .inl (by simp [result, hd, hb, close])
  | start hd _ _ => exact .inl (by simp [result, hd, heightAll_close_simple])
  | finish hd _ => exact .inl (by simp [result, hd])
  | word hd _ _ => exact .inl (by simp [result, hd, heightAll_close_simple])
  | @enter draft hd _ _ =>
    refine .inr ?_
    have hopen : heightAll (close p.blocks (.block draft.finish [] :: p.done)) =
        max (heightAll (close p.blocks p.done)) (p.blocks.length + 1) := by
      rw [heightAll_close, heightAll_close _ p.done]
      simp only [heightAll, height]
      omega
    simpa [result, hd, close, heightAll_close_simple] using hopen

theorem Move.heightAll_result (h : Move t s p q) :
    heightAll q.result = max (heightAll p.result) q.blocks.length := by
  cases h with
  | take _ ht => exact ht.heightAll_result
  | splice => exact (Nat.max_eq_left blocks_length_le_heightAll_result).symm

/-- A run goes as deep as the blocks of its tree, empty ones too. -/
theorem heightAll_of_run {ds : List Directive} (h : run t s p = .ok ds) :
    heightAll ds = max (heightAll p.result) (usage t s p).blockDepth := by
  induction p using stream_induction t s with
  | h p ih =>
    have hp : p.blocks.length ≤ heightAll p.result := blocks_length_le_heightAll_result
    rcases run_eq_ok_cases h with ⟨hnil, rfl⟩ | ⟨q, hmove, hrun⟩
    · have hstop : ∀ q, step t s p ≠ .more q := by simp [step_of_nil hnil]
      have hdepth := blockDepth_stepUsage (t := t) (s := s) (p := p)
      rw [usage_of_stop hstop]
      simp only [Limits.either, hdepth, standing]
      omega
    · -- The blocks that are open at `q` are counted by the usage from there on.
      have hq : q.blocks.length ≤ (usage t s q).blockDepth := standing_within_usage.2.1
      have hdepth := blockDepth_stepUsage (t := t) (s := s) (p := p)
      rw [ih q hmove hrun, hmove.heightAll_result, usage_of_move hmove]
      simp only [Limits.either, hdepth, standing]
      omega

end Usage

end ConfTree.Parser
