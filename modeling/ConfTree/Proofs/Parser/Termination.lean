import ConfTree.Proofs.Include.Trails

/-!
# Reading comes to an end

A stream may get longer with every include, and still no reading goes on for
ever: not the limits but the trails see to it, since no path is on a trail twice and
there are only so many by which files can be known.

1. `Reads`: readings of finitely many steps, with the includes they expand.
   `Reads.unique`: there is one reading from every parser at most.
2. `reads_run`, `not_endless`: every run is such a reading, and no steps follow
   each other without end.
3. `parseTokens_terminates`: the same for a text, with the trails that its reading
   leads through.
-/

namespace ConfTree.Parser

variable {t : FileTree} {s : Settings} {p q : Parser}

/-! ## 1. Readings -/

/-- `Reads t s p steps includes outcome`: after `steps` steps the parser `p` comes
to its outcome; `includes` of them replace an include.

* `finished`, `failed`: there is no step.
* `take`: a token is taken.
* `splice`: an include is replaced. -/
inductive Reads (t : FileTree) (s : Settings) :
    Parser → (steps includes : Nat) → Except Fault (List Directive) → Prop
  | finished {p : Parser} {ds : List Directive} : step t s p = .finished ds →
      Reads t s p 0 0 (.ok ds)
  | failed {p : Parser} {f : Fault} : step t s p = .failed f → Reads t s p 0 0 (.error f)
  | take {p q : Parser} {steps includes : Nat} {outcome : Except Fault (List Directive)} :
      step t s p = .more q → p.argument? = none → Reads t s q steps includes outcome →
      Reads t s p (steps + 1) includes outcome
  | splice {p q : Parser} {argument : String} {steps includes : Nat}
      {outcome : Except Fault (List Directive)} :
      step t s p = .more q → p.argument? = some argument → Reads t s q steps includes outcome →
      Reads t s p (steps + 1) (includes + 1) outcome

/-- From every parser there is one reading at most. -/
theorem Reads.unique {n n' k k' : Nat} {r r' : Except Fault (List Directive)}
    (h : Reads t s p n k r) (h' : Reads t s p n' k' r') : n = n' ∧ k = k' ∧ r = r' := by
  induction h generalizing n' k' r' with
  | finished hs =>
    cases h' with
    | finished hs' => rw [hs] at hs'; cases hs'; exact ⟨rfl, rfl, rfl⟩
    | failed hs' | take hs' _ _ | splice hs' _ _ => rw [hs] at hs'; cases hs'
  | failed hs =>
    cases h' with
    | failed hs' => rw [hs] at hs'; cases hs'; exact ⟨rfl, rfl, rfl⟩
    | finished hs' | take hs' _ _ | splice hs' _ _ => rw [hs] at hs'; cases hs'
  | take hs ha _ ih =>
    cases h' with
    | finished hs' | failed hs' => rw [hs] at hs'; cases hs'
    | splice _ ha' _ => rw [ha] at ha'; cases ha'
    | take hs' _ h' =>
      rw [hs] at hs'
      cases hs'
      obtain ⟨rfl, rfl, rfl⟩ := ih h'
      exact ⟨rfl, rfl, rfl⟩
  | splice hs ha _ ih =>
    cases h' with
    | finished hs' | failed hs' => rw [hs] at hs'; cases hs'
    | take _ ha' _ => rw [ha] at ha'; cases ha'
    | splice hs' _ h' =>
      rw [hs] at hs'
      cases hs'
      obtain ⟨rfl, rfl, rfl⟩ := ih h'
      exact ⟨rfl, rfl, rfl⟩

/-! ## 2. Every run is a reading -/

/-- Every run is a reading of finitely many steps. -/
theorem reads_run (t : FileTree) (s : Settings) (p : Parser) :
    ∃ steps includes, Reads t s p steps includes (run t s p) := by
  induction p using stream_induction t s with
  | h p ih =>
    cases hs : step t s p with
    | finished ds =>
      obtain ⟨hp, rfl⟩ := step_eq_finished_iff.mp hs
      rw [run_of_nil hp]
      exact ⟨0, 0, .finished hs⟩
    | failed f =>
      rw [run_of_failed hs]
      exact ⟨0, 0, .failed hs⟩
    | more q =>
      obtain ⟨steps, includes, hq⟩ := ih q (step_eq_more_iff.mp hs)
      rw [run_of_step hs]
      cases ha : p.argument? with
      | none => exact ⟨steps + 1, includes, .take hs ha hq⟩
      | some argument => exact ⟨steps + 1, includes + 1, .splice hs ha hq⟩

/-- No steps follow each other without end. -/
theorem not_endless (chain : Nat → Parser) :
    ¬ ∀ n, step t s (chain n) = .more (chain (n + 1)) := by
  intro h
  -- By induction on the stream, no parser is on the chain, not even the first.
  have hnever : ∀ p n, chain n ≠ p := by
    intro p
    induction p using stream_induction t s with
    | h p ih =>
      intro n hn
      have hmove := step_eq_more_iff.mp (h n)
      rw [hn] at hmove
      exact ih _ hmove (n + 1) rfl
  exact hnever _ 0 rfl

/-! ## 3. Texts -/

/-- Every text is read to an end in every file tree and under all limits: unless it
has too many tokens to begin with, finitely many steps with finitely many includes
among them lead to its outcome. All trails on the way lead through files of the tree by
different paths, so that none is longer than there are paths by which files can be
known. These are the canonical paths of different files, but for those files that were
entered by a path without one. So where no file lies too deep, no trail is longer than
there are files in the tree, and one that is about to be entered leads one further at
most. -/
theorem parseTokens_terminates (t : FileTree) (s : Settings) (tokens : List Token) :
    ((s.limits.tokens < tokens.length ∧ ∃ f, parseTokens t s tokens = .error f) ∨
      ∃ steps includes, Reads t s (ofTokens t s.sourceName tokens) steps includes
        (parseTokens t s tokens)) ∧
    (∀ chain : Nat → Parser, chain 0 = ofTokens t s.sourceName tokens →
      ¬ ∀ n, step t s (chain n) = .more (chain (n + 1))) ∧
    ∀ q, Reaches t s (ofTokens t s.sourceName tokens) q → ∀ x ∈ q.pending,
      x.trail.IsSimple t ∧ x.trail.depth ≤ t.keys.length ∧
        x.trail.depth ≤ t.files.length + (x.trail.spelled t).length ∧
        (∀ key ∈ x.trail.spelled t,
          t.canonical? key = none ∧ ∃ loc ∈ t.files, t.locate key = .ok loc) ∧
        (t.IsShallow → x.trail.depth ≤ t.files.length) ∧
        ∀ p inner, x.trail.enter t p s.limits.includeDepth = .ok inner →
          (inner.files.Pairwise fun a b => a.same b = false) ∧
            inner.depth = x.trail.depth + 1 := by
  refine ⟨?_, fun chain _ => not_endless chain, fun q hq x hx => ?_⟩
  · rcases Nat.lt_or_ge s.limits.tokens tokens.length with hlt | hge
    · refine .inl ⟨hlt, { cause := .tooManyTokens tokens.length s.limits.tokens }, ?_⟩
      rw [parseTokens, parseFrom_eq_run, if_pos hlt]
    · rw [parseTokens_eq_run hge]
      exact .inr (reads_run t s _)
  · have hsimple := isSimple_of_reaches hq x hx
    exact ⟨hsimple, hsimple.depth_le_keys, hsimple.depth_le, fun key => hsimple.of_mem_spelled,
      hsimple.depth_le_files, fun p inner => hsimple.enter⟩

end ConfTree.Parser
