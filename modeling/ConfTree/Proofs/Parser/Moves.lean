import ConfTree.Include.Expansion
import ConfTree.Parser.State

/-!
# What a step of a parser can do

A step either takes the first token of the stream into what has been built, or
it replaces an include. This module says once what each of the two does, so that
no later proof opens `step`.

1. `Takes`, `Refuses`: what a token that is no include does to what has been
   built. Neither looks at the file tree, at trails or at the rest of the stream.
2. `Move`, `step_eq_more_iff`, `step_eq_failed_iff`: a step takes a token or
   replaces an include, and fails on a token that is refused or an include that
   cannot be replaced.
3. `stream_induction`: what holds of a parser if it holds of all it can become
   holds of every parser.
4. `TakesAll`: taking several tokens, with what it means for a run.
5. `map_pending_ofTokens`: a parser that is about to read a text.
-/

namespace ConfTree

/-! ## Marks -/

namespace Token

variable {token : Token}

theorem opensBlock_of_endsStatement (h : token.endsStatement = true) :
    token.opensBlock = false := by
  simp only [endsStatement, beq_iff_eq] at h
  simp [opensBlock, h]

theorem closesBlock_of_endsStatement (h : token.endsStatement = true) :
    token.closesBlock = false := by
  simp only [endsStatement, beq_iff_eq] at h
  simp [closesBlock, h]

theorem endsStatement_of_opensBlock (h : token.opensBlock = true) :
    token.endsStatement = false := by
  simp only [opensBlock, beq_iff_eq] at h
  simp [endsStatement, h]

theorem endsStatement_of_closesBlock (h : token.closesBlock = true) :
    token.endsStatement = false := by
  simp only [closesBlock, beq_iff_eq] at h
  simp [endsStatement, h]

theorem opensBlock_of_closesBlock (h : token.closesBlock = true) :
    token.opensBlock = false := by
  simp only [closesBlock, beq_iff_eq] at h
  simp [opensBlock, h]

theorem isMark_eq_false_iff :
    token.isMark = false ↔
      token.endsStatement = false ∧ token.opensBlock = false ∧ token.closesBlock = false := by
  simp [isMark, and_assoc]

theorem isMark_of_isInclude (h : token.isInclude = true) : token.isMark = false := by
  simp only [isInclude, beq_iff_eq] at h
  simp [isMark, endsStatement, opensBlock, closesBlock, h]

end Token

namespace Parser

/-! ## 1. Tokens that are no includes -/

/-- `Takes maxDepth token p q`: reading `token` leads from what `p` has built to
what `q` has built, in blocks at most `maxDepth` deep. The stream stays as it is.

* `blank`: a `;` by itself is nothing.
* `leave`: a `}` where a statement starts closes the innermost block.
* `start`: a word starts a statement.
* `finish`: a `;` ends the statement.
* `enter`: a `{` opens the block of the statement.
* `word`: any other token is a word of the statement. -/
inductive Takes (maxDepth : Nat) (token : Token) : Parser → Parser → Prop
  | blank {p : Parser} : p.draft = none → token.endsStatement = true → Takes maxDepth token p p
  | leave {p : Parser} {b : OpenBlock} {blocks : List OpenBlock} :
      p.draft = none → token.closesBlock = true → p.blocks = b :: blocks →
      Takes maxDepth token p
        { p with blocks := blocks, done := .block b.head p.done.reverse :: b.before }
  | start {p : Parser} : p.draft = none → token.isMark = false → token.isInclude = false →
      Takes maxDepth token p { p with draft := some { first := token } }
  | finish {p : Parser} {draft : Draft} : p.draft = some draft → token.endsStatement = true →
      Takes maxDepth token p
        { p with done := .simple draft.finish :: p.done, draft := none }
  | enter {p : Parser} {draft : Draft} : p.draft = some draft → token.opensBlock = true →
      p.blocks.length < maxDepth →
      Takes maxDepth token p
        { p with blocks := ⟨draft.finish, p.done⟩ :: p.blocks, done := [], draft := none }
  | word {p : Parser} {draft : Draft} : p.draft = some draft → token.endsStatement = false →
      token.opensBlock = false →
      Takes maxDepth token p
        { p with draft := some { draft with words := token.text :: draft.words } }

/-- `Refuses maxDepth token p f`: what `p` has built cannot go on with `token`.

* `noName`: a `{` where a statement starts.
* `noBlock`: a `}` where a statement starts and no block is open.
* `tooDeep`: a `{` behind a statement, inside `maxDepth` blocks. -/
inductive Refuses (maxDepth : Nat) (token : Token) : Parser → Fault → Prop
  | noName {p : Parser} : p.draft = none → token.opensBlock = true →
      Refuses maxDepth token p { cause := .blockWithoutName, place := token.place }
  | noBlock {p : Parser} : p.draft = none → token.closesBlock = true → p.blocks = [] →
      Refuses maxDepth token p { cause := .unexpectedClose, place := token.place }
  | tooDeep {p : Parser} {draft : Draft} : p.draft = some draft → token.opensBlock = true →
      maxDepth ≤ p.blocks.length →
      Refuses maxDepth token p
        { cause := .blocksTooDeep maxDepth, place := draft.first.place }

/-- An include stands where a statement starts. -/
def AtInclude (p : Parser) (token : Token) : Prop := p.draft = none ∧ token.isInclude = true

theorem atInclude_iff {p : Parser} {token : Token} :
    p.AtInclude token ↔ (p.draft.isNone && token.isInclude) = true := by
  rw [AtInclude, Bool.and_eq_true, Option.isNone_iff_eq_none]

/-- A token is taken or refused, unless it is an include where a statement
starts. -/
theorem takes_or_refuses (maxDepth : Nat) {token : Token} {p : Parser}
    (h : ¬ p.AtInclude token) :
    (∃ q, Takes maxDepth token p q) ∨ ∃ f, Refuses maxDepth token p f := by
  cases hd : p.draft with
  | none =>
    have hinc : token.isInclude = false := by
      simpa [AtInclude, hd] using h
    -- Where a statement starts, only the three marks are special.
    cases he : token.endsStatement with
    | true => exact .inl ⟨_, .blank hd he⟩
    | false =>
      cases ho : token.opensBlock with
      | true => exact .inr ⟨_, .noName hd ho⟩
      | false =>
        cases hc : token.closesBlock with
        | false =>
          exact .inl ⟨_, .start hd (Token.isMark_eq_false_iff.mpr ⟨he, ho, hc⟩) hinc⟩
        | true =>
          cases hb : p.blocks with
          | nil => exact .inr ⟨_, .noBlock hd hc hb⟩
          | cons b blocks => exact .inl ⟨_, .leave hd hc hb⟩
  | some draft =>
    -- Inside a statement, a closing brace is a word.
    cases he : token.endsStatement with
    | true => exact .inl ⟨_, .finish hd he⟩
    | false =>
      cases ho : token.opensBlock with
      | false => exact .inl ⟨_, .word hd he ho⟩
      | true =>
        rcases Nat.lt_or_ge p.blocks.length maxDepth with hlt | hge
        · exact .inl ⟨_, .enter hd ho hlt⟩
        · exact .inr ⟨_, .tooDeep hd ho hge⟩

namespace Takes

variable {maxDepth : Nat} {token : Token} {p q : Parser}

theorem total_eq (h : Takes maxDepth token p q) : q.total = p.total := by
  cases h <;> rfl

/-- A token that is taken is no include where a statement starts. -/
theorem not_atInclude (h : Takes maxDepth token p q) : ¬ p.AtInclude token := by
  rintro ⟨hd, hinc⟩
  have hm := Token.isMark_eq_false_iff.mp (Token.isMark_of_isInclude hinc)
  cases h with
  | blank _ he => simp [he] at hm
  | leave _ hc _ => simp [hc] at hm
  | start _ _ hi => simp [hi] at hinc
  | finish hd' _ => simp [hd] at hd'
  | enter hd' _ _ => simp [hd] at hd'
  | word hd' _ _ => simp [hd] at hd'

/-- Taking a token does not depend on the stream. -/
theorem withStream (h : Takes maxDepth token p q) (pending : List Tracked) (total : Nat) :
    Takes maxDepth token { p with pending, total } { q with pending, total } := by
  cases h with
  | blank hd he => exact .blank hd he
  | leave hd hc hb => exact .leave (p := { p with pending, total }) hd hc hb
  | start hd hm hi => exact .start (p := { p with pending, total }) hd hm hi
  | finish hd he => exact .finish (p := { p with pending, total }) hd he
  | enter hd ho hlt => exact .enter (p := { p with pending, total }) hd ho hlt
  | word hd he ho => exact .word (p := { p with pending, total }) hd he ho

/-- What is taken is taken under every limit that the blocks behind it keep. -/
theorem of_blocks_le {bound : Nat} (h : Takes maxDepth token p q)
    (hq : q.blocks.length ≤ bound) : Takes bound token p q := by
  cases h with
  | blank hd he => exact .blank hd he
  | leave hd hc hb => exact .leave hd hc hb
  | start hd hm hi => exact .start hd hm hi
  | finish hd he => exact .finish hd he
  | word hd he ho => exact .word hd he ho
  | enter hd ho _ => exact .enter hd ho hq

/-- Whether a statement starts behind a token that is taken. -/
theorem isNone_draft (h : Takes maxDepth token p q) :
    q.draft.isNone = Include.startsBehind p.draft.isNone token := by
  cases h with
  | blank hd he => simp [Include.startsBehind, hd, he]
  | leave hd hc _ => simp [Include.startsBehind, hd, hc]
  | start hd hm _ =>
    obtain ⟨he, ho, hc⟩ := Token.isMark_eq_false_iff.mp hm
    simp [Include.startsBehind, he, ho, hc]
  | finish _ he => simp [Include.startsBehind, he]
  | enter _ ho _ => simp [Include.startsBehind, ho]
  | word hd he ho => simp [Include.startsBehind, hd, he, ho]

end Takes

/-- Refusing a token does not depend on the stream. -/
theorem Refuses.withStream {maxDepth : Nat} {token : Token} {p : Parser} {f : Fault}
    (h : Refuses maxDepth token p f) (pending : List Tracked) (total : Nat) :
    Refuses maxDepth token { p with pending, total } f := by
  cases h with
  | noName hd ho => exact .noName hd ho
  | noBlock hd hc hb => exact .noBlock hd hc hb
  | tooDeep hd ho hge => exact .tooDeep (p := { p with pending, total }) hd ho hge

/-! ## 2. Steps -/

section Steps

variable {t : FileTree} {s : Settings} {p q : Parser} {first : Tracked} {rest : List Tracked}

theorem step_of_nil (h : p.pending = []) : step t s p = .finished p.result := by
  simp [step, h]

theorem step_of_takes (hp : p.pending = first :: rest)
    (h : Takes s.limits.blockDepth first.token p q) :
    step t s p = .more { q with pending := rest } := by
  unfold step
  cases h with
  | blank hd he => simp [hp, hd, stepAtStart, he]
  | leave hd hc hb =>
    simp [hp, hd, stepAtStart, hc, hb, Token.endsStatement_of_closesBlock hc,
      Token.opensBlock_of_closesBlock hc]
  | start hd hm hi =>
    obtain ⟨he, ho, hc⟩ := Token.isMark_eq_false_iff.mp hm
    simp [hp, hd, stepAtStart, he, ho, hc, hi]
  | finish hd he => simp [hp, hd, stepInside, he]
  | enter hd ho hlt =>
    simp [hp, hd, stepInside, ho, Token.endsStatement_of_opensBlock ho, Nat.not_le.mpr hlt]
  | word hd he ho => simp [hp, hd, stepInside, he, ho]

theorem step_of_refuses {f : Fault} (hp : p.pending = first :: rest)
    (h : Refuses s.limits.blockDepth first.token p f) : step t s p = .failed f := by
  unfold step
  cases h with
  | noName hd ho =>
    simp [hp, hd, stepAtStart, ho, Token.endsStatement_of_opensBlock ho]
  | noBlock hd hc hb =>
    simp [hp, hd, stepAtStart, hc, hb, Token.endsStatement_of_closesBlock hc,
      Token.opensBlock_of_closesBlock hc]
  | tooDeep hd ho hge =>
    simp [hp, hd, stepInside, ho, Token.endsStatement_of_opensBlock ho, hge]

theorem step_of_atInclude (hp : p.pending = first :: rest) (h : p.AtInclude first.token) :
    step t s p =
      match expand t s first.token.place first.trail rest p.total with
      | .error f => .failed f
      | .ok (pending, total) => .more { p with pending, total } := by
  obtain ⟨hd, hinc⟩ := h
  obtain ⟨he, ho, hc⟩ := Token.isMark_eq_false_iff.mp (Token.isMark_of_isInclude hinc)
  have hstart : step t s p = stepAtStart t s p first rest := by
    simp only [step, hp, hd]
  rw [hstart]
  cases hex : expand t s first.token.place first.trail rest p.total with
  | error f => simp [stepAtStart, he, ho, hc, hinc, hex]
  | ok result => simp [stepAtStart, he, ho, hc, hinc, hex]

/-- An include is replaced if its argument can be imported and the stream does
not get too long. -/
theorem expand_eq_ok_iff {place : Place} {trail : Trail} {total total' : Nat}
    {pending : List Tracked} :
    expand t s place trail rest total = .ok (pending, total') ↔
      ∃ argument behind new, rest = argument :: behind ∧ argument.token.isMark = false ∧
        Include.importTokens t s argument.token.text trail = .ok new ∧
        total - 2 + new.length ≤ s.limits.tokens ∧
        pending = new ++ behind ∧ total' = total - 2 + new.length := by
  constructor
  · intro h
    unfold expand at h
    split at h
    · cases h
    · next argument behind =>
      split at h
      · cases h
      · next hm =>
        split at h
        · cases h
        · next new hnew =>
          dsimp only at h
          split at h
          · cases h
          · next hle =>
            cases h
            exact ⟨argument, behind, new, rfl, by simpa using hm, hnew, Nat.not_lt.mp hle, rfl,
              rfl⟩
  · rintro ⟨argument, behind, new, rfl, hm, hnew, hle, rfl, rfl⟩
    simp [expand, hm, hnew, Nat.not_lt.mpr hle]

/-- `Move t s p q`: one step leads from `p` to `q`.

* `take`: the first token of the stream is taken.
* `splice`: an include at the front of the stream gives way to the tokens that
  it stands for. -/
inductive Move (t : FileTree) (s : Settings) : Parser → Parser → Prop
  | take {p q : Parser} {first : Tracked} {rest : List Tracked} :
      p.pending = first :: rest → Takes s.limits.blockDepth first.token p q →
      Move t s p { q with pending := rest }
  | splice {p : Parser} {first argument : Tracked} {behind new : List Tracked} :
      p.pending = first :: argument :: behind → p.AtInclude first.token →
      argument.token.isMark = false →
      Include.importTokens t s argument.token.text first.trail = .ok new →
      p.total - 2 + new.length ≤ s.limits.tokens →
      Move t s p { p with pending := new ++ behind, total := p.total - 2 + new.length }

theorem step_eq_more_iff : step t s p = .more q ↔ Move t s p q := by
  constructor
  · intro h
    cases hp : p.pending with
    | nil => simp [step_of_nil hp] at h
    | cons first rest =>
      by_cases hinc : p.AtInclude first.token
      · rw [step_of_atInclude hp hinc] at h
        split at h
        · cases h
        · next hex =>
          obtain ⟨argument, behind, new, rfl, hm, hnew, hle, rfl, rfl⟩ :=
            expand_eq_ok_iff.mp hex
          cases h
          exact .splice hp hinc hm hnew hle
      · rcases takes_or_refuses s.limits.blockDepth hinc with ⟨r, hr⟩ | ⟨f, hf⟩
        · rw [step_of_takes hp hr] at h
          cases h
          exact .take hp hr
        · simp [step_of_refuses hp hf] at h
  · intro h
    cases h with
    | take hp hr => exact step_of_takes hp hr
    | splice hp hinc hm hnew hle =>
      rw [step_of_atInclude hp hinc, expand_eq_ok_iff.mpr ⟨_, _, _, rfl, hm, hnew, hle, rfl, rfl⟩]

/-- A step ends the reading only when the stream is read. -/
theorem step_eq_finished_iff {ds : List Directive} :
    step t s p = .finished ds ↔ p.pending = [] ∧ ds = p.result := by
  constructor
  · intro h
    cases hp : p.pending with
    | nil =>
      rw [step_of_nil hp] at h
      cases h
      exact ⟨rfl, rfl⟩
    | cons first rest =>
      by_cases hinc : p.AtInclude first.token
      · rw [step_of_atInclude hp hinc] at h
        split at h <;> cases h
      · rcases takes_or_refuses s.limits.blockDepth hinc with ⟨r, hr⟩ | ⟨f, hf⟩
        · simp [step_of_takes hp hr] at h
        · simp [step_of_refuses hp hf] at h
  · rintro ⟨hp, rfl⟩
    exact step_of_nil hp

/-- A step fails on a token that is refused, or on an include that cannot be
replaced. -/
theorem step_eq_failed_iff {f : Fault} :
    step t s p = .failed f ↔
      ∃ first rest, p.pending = first :: rest ∧
        (Refuses s.limits.blockDepth first.token p f ∨
          p.AtInclude first.token ∧
            expand t s first.token.place first.trail rest p.total = .error f) := by
  constructor
  · intro h
    cases hp : p.pending with
    | nil => simp [step_of_nil hp] at h
    | cons first rest =>
      refine ⟨first, rest, rfl, ?_⟩
      by_cases hinc : p.AtInclude first.token
      · rw [step_of_atInclude hp hinc] at h
        split at h
        · next he =>
          cases h
          exact .inr ⟨hinc, he⟩
        · cases h
      · rcases takes_or_refuses s.limits.blockDepth hinc with ⟨r, hr⟩ | ⟨g, hg⟩
        · simp [step_of_takes hp hr] at h
        · rw [step_of_refuses hp hg] at h
          cases h
          exact .inl hg
  · rintro ⟨first, rest, hp, hf | ⟨hinc, he⟩⟩
    · exact step_of_refuses hp hf
    · rw [step_of_atInclude hp hinc, he]

/-! ## 3. Runs -/

theorem run_of_step {q : Parser} (h : step t s p = .more q) : run t s p = run t s q := by
  rw [run]
  split <;> simp_all

theorem run_of_move (h : Move t s p q) : run t s p = run t s q :=
  run_of_step (step_eq_more_iff.mpr h)

theorem run_of_nil (h : p.pending = []) : run t s p = .ok p.result := by
  have hs : step t s p = .finished p.result := step_of_nil h
  rw [run]
  split <;> simp_all

theorem run_of_failed {f : Fault} (h : step t s p = .failed f) : run t s p = .error f := by
  rw [run]
  split <;> simp_all

theorem run_of_refuses {f : Fault} (hp : p.pending = first :: rest)
    (h : Refuses s.limits.blockDepth first.token p f) : run t s p = .error f :=
  run_of_failed (step_of_refuses hp h)

theorem run_of_takes (hp : p.pending = first :: rest)
    (h : Takes s.limits.blockDepth first.token p q) :
    run t s p = run t s { q with pending := rest } :=
  run_of_step (step_of_takes hp h)

/-- A run that succeeds has read the stream, or goes on by a step. -/
theorem run_eq_ok_cases {ds : List Directive} (h : run t s p = .ok ds) :
    (p.pending = [] ∧ ds = p.result) ∨ ∃ q, Move t s p q ∧ run t s q = .ok ds := by
  cases hs : step t s p with
  | more q =>
    rw [run_of_step hs] at h
    exact .inr ⟨q, step_eq_more_iff.mp hs, h⟩
  | finished es =>
    obtain ⟨hp, rfl⟩ := step_eq_finished_iff.mp hs
    rw [run_of_nil hp] at h
    cases h
    exact .inl ⟨hp, rfl⟩
  | failed f =>
    rw [run_of_failed hs] at h
    cases h

/-- What holds of a parser as soon as it holds of all parsers that one step leads
to holds of every parser. -/
theorem stream_induction (t : FileTree) (s : Settings) {motive : Parser → Prop}
    (h : ∀ p, (∀ q, Move t s p q → motive q) → motive p) (p : Parser) : motive p := by
  have hwf : WellFounded fun q p : Parser => Consumes t ⟨q.pending⟩ ⟨p.pending⟩ :=
    InvImage.wf (fun p : Parser => (⟨p.pending⟩ : Stream t)) (Consumes.wellFounded t)
  refine hwf.induction p fun p ih => h p fun q hq => ih q ?_
  exact step_consumes (step_eq_more_iff.mpr hq)

/-- Every parser that is reached satisfies what the first one satisfies and a
step preserves. -/
theorem reaches_induction {motive : Parser → Prop} (hp : motive p)
    (h : ∀ q r, motive q → Move t s q r → motive r) {q : Parser} (hq : Reaches t s p q) :
    motive q := by
  induction hq with
  | refl => exact hp
  | next _ hs ih => exact h _ _ ih (step_eq_more_iff.mp hs)

theorem Reaches.of_step {r : Parser} (h : step t s p = .more q) (h' : Reaches t s q r) :
    Reaches t s p r := by
  induction h' with
  | refl => exact .next .refl h
  | next _ hs ih => exact .next ih hs

/-- What is reached is where one is, or is reached from where the first step
leads. -/
theorem Reaches.cases_step {r : Parser} (h : Reaches t s p r) :
    r = p ∨ ∃ q, step t s p = .more q ∧ Reaches t s q r := by
  induction h with
  | refl => exact .inl rfl
  | next _ hs ih =>
    rcases ih with rfl | ⟨q, hq, hreach⟩
    · exact .inr ⟨_, hs, .refl⟩
    · exact .inr ⟨q, hq, .next hreach hs⟩

/-- A run comes to where the run from any parser on its way comes to. -/
theorem Reaches.run_eq (h : Reaches t s p q) : run t s p = run t s q := by
  induction h with
  | refl => rfl
  | next _ hs ih => rw [ih, run_of_step hs]

/-- A run succeeds with what is built when the stream is read. -/
theorem run_eq_ok_iff {ds : List Directive} :
    run t s p = .ok ds ↔ ∃ q, Reaches t s p q ∧ q.pending = [] ∧ ds = q.result := by
  constructor
  · intro h
    induction p using stream_induction t s with
    | h p ih =>
      rcases run_eq_ok_cases h with ⟨hp, rfl⟩ | ⟨q, hmove, hrun⟩
      · exact ⟨p, .refl, hp, rfl⟩
      · obtain ⟨r, hr, hread⟩ := ih q hmove hrun
        exact ⟨r, hr.of_step (step_eq_more_iff.mpr hmove), hread⟩
  · rintro ⟨q, hq, hpending, rfl⟩
    rw [hq.run_eq, run_of_nil hpending]

/-- A run fails with the fault of a step on its way. -/
theorem run_eq_error_iff {f : Fault} :
    run t s p = .error f ↔ ∃ q, Reaches t s p q ∧ step t s q = .failed f := by
  constructor
  · intro h
    induction p using stream_induction t s with
    | h p ih =>
      cases hs : step t s p with
      | more q =>
        rw [run_of_step hs] at h
        obtain ⟨r, hr, hfailed⟩ := ih q (step_eq_more_iff.mp hs) h
        exact ⟨r, hr.of_step hs, hfailed⟩
      | finished ds =>
        obtain ⟨hp, -⟩ := step_eq_finished_iff.mp hs
        rw [run_of_nil hp] at h
        cases h
      | failed g =>
        rw [run_of_failed hs] at h
        cases h
        exact ⟨p, .refl, hs⟩
  · rintro ⟨q, hq, hs⟩
    rw [hq.run_eq, run_of_failed hs]

end Steps

/-! ## 4. Taking several tokens -/

/-- `TakesAll maxDepth tokens p q`: the tokens lead from what `p` has built to what
`q` has built, one after the other. -/
inductive TakesAll (maxDepth : Nat) : List Token → Parser → Parser → Prop
  | nil {p : Parser} : TakesAll maxDepth [] p p
  | cons {token : Token} {tokens : List Token} {p q r : Parser} :
      Takes maxDepth token p q → TakesAll maxDepth tokens q r →
      TakesAll maxDepth (token :: tokens) p r

namespace TakesAll

variable {maxDepth : Nat} {tokens more : List Token} {p q r : Parser}

theorem append (h : TakesAll maxDepth tokens p q) (h' : TakesAll maxDepth more q r) :
    TakesAll maxDepth (tokens ++ more) p r := by
  induction h with
  | nil => exact h'
  | cons ht _ ih => exact .cons ht (ih h')

theorem withStream (h : TakesAll maxDepth tokens p q) (pending : List Tracked) (total : Nat) :
    TakesAll maxDepth tokens { p with pending, total } { q with pending, total } := by
  induction h with
  | nil => exact .nil
  | cons ht _ ih => exact .cons (ht.withStream pending total) ih

/-- Whether a statement starts behind tokens that are taken. -/
theorem isNone_draft (h : TakesAll maxDepth tokens p q) :
    q.draft.isNone = tokens.foldl Include.startsBehind p.draft.isNone := by
  induction h with
  | nil => rfl
  | cons ht _ ih => rw [ih, ht.isNone_draft, List.foldl_cons]

/-- A run takes the tokens in front of the stream and goes on behind them. -/
theorem run_eq {t : FileTree} {s : Settings} {front behind : List Tracked}
    (h : TakesAll s.limits.blockDepth (front.map Tracked.token) p q)
    (hp : p.pending = front ++ behind) :
    run t s p = run t s { q with pending := behind, total := p.total } := by
  induction front generalizing p q with
  | nil =>
    cases h
    subst hp
    rfl
  | cons first front ih =>
    cases h with
    | @cons _ _ _ mid _ ht h =>
      have hrest := ih (h.withStream (front ++ behind) mid.total) rfl
      rw [run_of_takes hp ht, ← ht.total_eq]
      exact hrest

end TakesAll

/-! ## 5. Texts -/

section Texts

variable (t : FileTree) (source : String) (tokens : List Token)

@[simp] theorem map_pending_ofTokens :
    (ofTokens t source tokens).pending.map Tracked.token = tokens := by
  simp [ofTokens, Function.comp_def]

@[simp] theorem length_pending_ofTokens :
    (ofTokens t source tokens).pending.length = tokens.length := by
  simp [ofTokens]

@[simp] theorem total_ofTokens : (ofTokens t source tokens).total = tokens.length := rfl

@[simp] theorem blocks_ofTokens : (ofTokens t source tokens).blocks = [] := rfl

@[simp] theorem draft_ofTokens : (ofTokens t source tokens).draft = none := rfl

end Texts

end Parser

end ConfTree
