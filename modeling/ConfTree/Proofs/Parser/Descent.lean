import ConfTree.Parser
import ConfTree.Proofs.Parser.Moves
import Mathlib.Logic.Relation

/-!
# What a step of a reading can do

A reading goes call by call, and keeps the place of its statement apart from the stream. A
parser has neither calls nor such a place. Both come to the same, since a statement without
a word always stands where the token at the front does, whatever was spliced in.

1. `Goes`, `step_eq_some_iff`: what one step does, by cases.
   `IsOver`, `step_eq_none_iff`: where no step is left.
2. `Reaches`, `reaches_run`, `isOver_run`: a run comes to such an end.
   `exists_returned`: until then, every block that is open returns.
3. `IsOrderly`: what is so between two steps, the place of a statement included.
   `Goes.isOrderly`: a step keeps to it. `Reaches.isOrderly`: so does a run.
4. `Shows`, `Goes.shows`: what a step is to a parser that has built the same.
   `answer_run`: a run comes to what this parser comes to.
5. `exists_of_reaches`: a reading passes all that a parser reaches.
   `parseFrom_eq_run`: a text is read to the result of a parser.
-/

namespace ConfTree

namespace Descent

/-! ## 1. Steps -/

/-- An include stands where a statement starts. -/
def AtInclude (x : Descent) (token : Token) : Prop :=
  x.turn = .words ∧ x.params = [] ∧ token.isInclude = true

/-- `Goes t s x y`: one step leads from `x` to `y`.

* `goOn`, `close`: the innermost block goes on with another statement, or is at its end.
* `start`, `exhausted`: a statement starts, unless the stream is at its end.
* `stop`: the stream ends, and the statement with it.
* `finish`: a `;` is read.
* `nameless`: a `{` stands in front of the first word.
* `enter`, `tooDeep`: a `{` behind a word is read, and its block is entered unless the
  counter is at the limit.
* `back`: a `}` stands in front of the first word, and belongs to the block around.
* `splice`, `refuse`: an include is replaced, or cannot be.
* `word`: a word is read.
* `leave`: the innermost block returns.
* `stray`: the outermost call has come to a `}`.
* `unwind`: a fault passes through the innermost block. -/
inductive Goes (t : FileTree) (s : Settings) : Descent → Descent → Prop
  | goOn {x : Descent} : x.turn = .block → x.atBlockEnd = false →
      Goes t s x { x with turn := .statement }
  | close {x : Descent} : x.turn = .block → x.atBlockEnd = true →
      Goes t s x { x with turn := .leave }
  | start {x : Descent} {first : Tracked} {rest : List Tracked} :
      x.turn = .statement → x.pending = first :: rest →
      Goes t s x { x with place := first.token.place, params := [], turn := .words }
  | exhausted {x : Descent} : x.turn = .statement → x.pending = [] →
      Goes t s x { x with turn := .fail { cause := .unexpectedEnd } }
  | stop {x : Descent} : x.turn = .words → x.pending = [] → Goes t s x x.finish
  | finish {x : Descent} {first : Tracked} {rest : List Tracked} :
      x.turn = .words → x.pending = first :: rest → first.token.endsStatement = true →
      Goes t s x (x.consume first rest).finish
  | nameless {x : Descent} {first : Tracked} {rest : List Tracked} :
      x.turn = .words → x.pending = first :: rest → x.params = [] →
      first.token.opensBlock = true →
      Goes t s x { x with turn := .fail { cause := .blockWithoutName, place := x.place } }
  | enter {x : Descent} {first : Tracked} {rest : List Tracked} :
      x.turn = .words → x.pending = first :: rest → x.params ≠ [] →
      first.token.opensBlock = true → x.depth < s.limits.blockDepth →
      Goes t s x
        { x.consume first rest with
          depth := x.depth + 1
          blocks := ⟨x.statement, x.done⟩ :: x.blocks
          done := []
          params := []
          turn := .block }
  | tooDeep {x : Descent} {first : Tracked} {rest : List Tracked} :
      x.turn = .words → x.pending = first :: rest → x.params ≠ [] →
      first.token.opensBlock = true → s.limits.blockDepth ≤ x.depth →
      Goes t s x
        { x.consume first rest with
          turn := .fail { cause := .blocksTooDeep s.limits.blockDepth, place := x.place } }
  | back {x : Descent} {first : Tracked} {rest : List Tracked} :
      x.turn = .words → x.pending = first :: rest → x.params = [] →
      first.token.closesBlock = true → Goes t s x { x with turn := .block }
  | splice {x : Descent} {first : Tracked} {rest pending : List Tracked} {total : Nat} :
      x.pending = first :: rest → x.AtInclude first.token →
      Parser.expand t s x.place first.trail rest x.total = .ok (pending, total) →
      Goes t s x { x with pending, total, place := x.placeBefore pending }
  | refuse {x : Descent} {first : Tracked} {rest : List Tracked} {f : Fault} :
      x.pending = first :: rest → x.AtInclude first.token →
      Parser.expand t s x.place first.trail rest x.total = .error f →
      Goes t s x { x with turn := .fail f }
  | word {x : Descent} {first : Tracked} {rest : List Tracked} :
      x.turn = .words → x.pending = first :: rest → first.token.endsStatement = false →
      first.token.opensBlock = false →
      (x.params = [] → first.token.closesBlock = false ∧ first.token.isInclude = false) →
      Goes t s x { x.consume first rest with params := first.token.text :: x.params }
  | leave {x : Descent} {b : OpenBlock} {blocks : List OpenBlock} :
      x.turn = .leave → x.blocks = b :: blocks →
      Goes t s x (x.leaveBlock b blocks).consumeClose
  | stray {x : Descent} {first : Tracked} {rest : List Tracked} :
      x.turn = .leave → x.blocks = [] → x.pending = first :: rest →
      Goes t s x
        { x with turn := .fail { cause := .unexpectedClose, place := first.token.place } }
  | unwind {x : Descent} {f : Fault} {b : OpenBlock} {blocks : List OpenBlock} :
      x.turn = .fail f → x.blocks = b :: blocks →
      Goes t s x { x with depth := x.depth - 1, blocks }

/-- The outermost call is over.

* `failed`: a fault has come there.
* `returned`: it returns at the end of the stream. -/
inductive IsOver (x : Descent) : Prop
  | failed {f : Fault} : x.turn = .fail f → x.blocks = [] → IsOver x
  | returned : x.turn = .leave → x.blocks = [] → x.pending = [] → IsOver x

theorem IsOver.blocks_eq {x : Descent} (h : x.IsOver) : x.blocks = [] := by
  cases h with
  | failed _ hb => exact hb
  | returned _ hb _ => exact hb

section Steps

variable {t : FileTree} {s : Settings} {x y : Descent} {first : Tracked} {rest : List Tracked}

theorem step_of_atInclude (hp : x.pending = first :: rest) (h : x.AtInclude first.token) :
    step t s x = some
      (match Parser.expand t s x.place first.trail rest x.total with
      | .error f => { x with turn := .fail f }
      | .ok (pending, total) => { x with pending, total, place := x.placeBefore pending }) := by
  obtain ⟨hr, hn, hi⟩ := h
  obtain ⟨he, ho, hc⟩ := Token.isMark_eq_false_iff.mp (Token.isMark_of_isInclude hi)
  have hstep : step t s x =
      some (x.after ((Cursor.expandInclude t s x.place first.trail).run x.cursor)) := by
    simp [step, hr, stepWords, hp, hn, he, ho, hc, hi]
  rw [hstep, Cursor.run_expandInclude (c := x.cursor) hp]
  show some (x.after (match Parser.expand t s x.place first.trail rest x.total with
    | .error f => .error f x.cursor
    | .ok (pending, total) => .ok () ⟨pending, total⟩)) = _
  cases Parser.expand t s x.place first.trail rest x.total <;> rfl

theorem step_of_goes (h : Goes t s x y) : step t s x = some y := by
  cases h with
  | goOn hr hend => simp [step, hr, stepBlock, hend]
  | close hr hend => simp [step, hr, stepBlock, hend]
  | start hr hp => simp [step, hr, stepStatement, hp]
  | exhausted hr hp => simp [step, hr, stepStatement, hp]
  | stop hr hp => simp [step, hr, stepWords, hp]
  | finish hr hp he => simp [step, hr, stepWords, hp, he]
  | nameless hr hp hn ho =>
    simp [step, hr, stepWords, hp, hn, ho, Token.endsStatement_of_opensBlock ho]
  | enter hr hp hn ho hlt =>
    simp [step, hr, stepWords, hp, hn, ho, Token.endsStatement_of_opensBlock ho, enterBlock,
      consume, statement, Nat.not_le.mpr hlt]
  | tooDeep hr hp hn ho hge =>
    simp [step, hr, stepWords, hp, hn, ho, Token.endsStatement_of_opensBlock ho, enterBlock,
      consume, hge]
  | back hr hp hn hc =>
    simp [step, hr, stepWords, hp, hn, hc, Token.endsStatement_of_closesBlock hc,
      Token.opensBlock_of_closesBlock hc]
  | splice hp hi hex => rw [step_of_atInclude hp hi, hex]
  | refuse hp hi hex => rw [step_of_atInclude hp hi, hex]
  | word hr hp he ho hfirst =>
    by_cases hn : x.params = []
    · simp [step, hr, stepWords, hp, he, ho, hn, hfirst hn]
    · simp [step, hr, stepWords, hp, he, ho, hn]
  | leave hl hb => simp [step, hl, stepLeave, hb]
  | stray hl hb hp => simp [step, hl, stepLeave, hb, hp]
  | unwind hf hb => simp [step, hf, stepFail, hb]

/-- In a statement a step is always possible. -/
theorem exists_goes_of_words (t : FileTree) (s : Settings) (hr : x.turn = .words) :
    ∃ y, Goes t s x y := by
  cases hp : x.pending with
  | nil => exact ⟨_, .stop hr hp⟩
  | cons first rest =>
    cases he : first.token.endsStatement with
    | true => exact ⟨_, .finish hr hp he⟩
    | false =>
      by_cases hn : x.params = []
      · -- Before the first word, all marks and `include` are special.
        cases ho : first.token.opensBlock with
        | true => exact ⟨_, .nameless hr hp hn ho⟩
        | false =>
          cases hc : first.token.closesBlock with
          | true => exact ⟨_, .back hr hp hn hc⟩
          | false =>
            cases hi : first.token.isInclude with
            | false => exact ⟨_, .word hr hp he ho fun _ => ⟨hc, hi⟩⟩
            | true =>
              cases hex : Parser.expand t s x.place first.trail rest x.total with
              | error f => exact ⟨_, .refuse hp ⟨hr, hn, hi⟩ hex⟩
              | ok result => exact ⟨_, .splice hp ⟨hr, hn, hi⟩ hex⟩
      · cases ho : first.token.opensBlock with
        | false => exact ⟨_, .word hr hp he ho fun hnil => absurd hnil hn⟩
        | true =>
          rcases Nat.lt_or_ge x.depth s.limits.blockDepth with hlt | hge
          · exact ⟨_, .enter hr hp hn ho hlt⟩
          · exact ⟨_, .tooDeep hr hp hn ho hge⟩

/-- A step is possible unless the outermost call is over. -/
theorem exists_goes_or_isOver (t : FileTree) (s : Settings) (x : Descent) :
    (∃ y, Goes t s x y) ∨ x.IsOver := by
  cases hr : x.turn with
  | block =>
    cases hend : x.atBlockEnd with
    | true => exact .inl ⟨_, .close hr hend⟩
    | false => exact .inl ⟨_, .goOn hr hend⟩
  | statement =>
    cases hp : x.pending with
    | nil => exact .inl ⟨_, .exhausted hr hp⟩
    | cons first rest => exact .inl ⟨_, .start hr hp⟩
  | words => exact .inl (exists_goes_of_words t s hr)
  | leave =>
    cases hb : x.blocks with
    | cons b blocks => exact .inl ⟨_, .leave hr hb⟩
    | nil =>
      cases hp : x.pending with
      | nil => exact .inr (.returned hr hb hp)
      | cons first rest => exact .inl ⟨_, .stray hr hb hp⟩
  | fail f =>
    cases hb : x.blocks with
    | nil => exact .inr (.failed hr hb)
    | cons b blocks => exact .inl ⟨_, .unwind hr hb⟩

theorem step_of_isOver (h : x.IsOver) : step t s x = none := by
  cases h with
  | failed hf hb => simp [step, hf, stepFail, hb]
  | returned hl hb hp => simp [step, hl, stepLeave, hb, hp]

theorem step_eq_some_iff : step t s x = some y ↔ Goes t s x y := by
  refine ⟨fun h => ?_, step_of_goes⟩
  rcases exists_goes_or_isOver t s x with ⟨z, hz⟩ | hover
  · rw [step_of_goes hz, Option.some.injEq] at h
    exact h ▸ hz
  · simp [step_of_isOver hover] at h

theorem step_eq_none_iff : step t s x = none ↔ x.IsOver := by
  refine ⟨fun h => ?_, step_of_isOver⟩
  refine (exists_goes_or_isOver t s x).resolve_left ?_
  rintro ⟨y, hy⟩
  simp [step_of_goes hy] at h

theorem consumeClose_of_nil (h : x.pending = []) : x.consumeClose = x := by
  simp [consumeClose, h]

theorem consumeClose_of_close (h : x.pending = first :: rest)
    (hc : first.token.closesBlock = true) : x.consumeClose = x.consume first rest := by
  simp [consumeClose, h, hc]

/-- A block is at its end at the end of the stream or at a `}`. -/
theorem atBlockEnd_cases (h : x.atBlockEnd = true) :
    x.pending = [] ∨ ∃ first rest, x.pending = first :: rest ∧ first.token.closesBlock = true := by
  cases hp : x.pending with
  | nil => exact .inl rfl
  | cons first rest => exact .inr ⟨first, rest, rfl, by simpa [atBlockEnd, hp] using h⟩

/-- A block goes on at a token other than `}`. -/
theorem atBlockEnd_eq_false_iff :
    x.atBlockEnd = false ↔
      ∃ first rest, x.pending = first :: rest ∧ first.token.closesBlock = false := by
  cases hp : x.pending with
  | nil => simp [atBlockEnd, hp]
  | cons first rest => simp [atBlockEnd, hp]

end Steps

/-! ## 2. Runs -/

/-- `Reaches t s x y`: some number of steps leads from `x` to `y`. -/
def Reaches (t : FileTree) (s : Settings) : Descent → Descent → Prop :=
  Relation.ReflTransGen fun x y => step t s x = some y

section Runs

variable {t : FileTree} {s : Settings} {x y : Descent}

theorem run_of_step (h : step t s x = some y) : run t s x = run t s y := by
  rw [run]
  split <;> simp_all

theorem run_of_over (h : step t s x = none) : run t s x = x := by
  rw [run]
  split <;> simp_all

/-- A run comes to its end. -/
theorem isOver_run (t : FileTree) (s : Settings) (x : Descent) : (run t s x).IsOver := by
  induction x using run.induct t s with
  | case1 x y h ih =>
    rw [run_of_step h]
    exact ih
  | case2 x h =>
    rw [run_of_over h]
    exact step_eq_none_iff.mp h

theorem reaches_run (t : FileTree) (s : Settings) (x : Descent) : Reaches t s x (run t s x) := by
  induction x using run.induct t s with
  | case1 x y h ih =>
    rw [run_of_step h]
    exact ih.head h
  | case2 x h =>
    rw [run_of_over h]
    exact .refl

/-- A step opens a block, returns from one, or leaves the open blocks as they are. -/
theorem Goes.blocks_cases (h : Goes t s x y) :
    y.blocks = x.blocks ∨ (∃ b, y.blocks = b :: x.blocks) ∨ ∃ b, x.blocks = b :: y.blocks := by
  cases h with
  | enter => exact .inr (.inl ⟨_, rfl⟩)
  | goOn | close | start | exhausted | nameless | tooDeep | back | splice | refuse | word | stray =>
    exact .inl rfl
  | stop | finish => exact .inl finish_blocks
  | @leave b blocks _ hb =>
    refine .inr (.inr ⟨b, ?_⟩)
    unfold consumeClose
    split
    · exact hb
    · split <;> exact hb
  | @unwind _ b _ _ hb => exact .inr (.inr ⟨b, hb⟩)

/-- A step leaves the stream, reads its first token, or replaces an include in front. -/
theorem Goes.pending_cases (h : Goes t s x y) :
    y.pending = x.pending ∨ (∃ first, x.pending = first :: y.pending) ∨
      ∃ first argument behind new, x.pending = first :: argument :: behind ∧
        Include.importTokens t s argument.token.text first.trail = .ok new ∧
        y.pending = new ++ behind := by
  cases h with
  | goOn | close | start | exhausted | nameless | back | refuse | stray | unwind => exact .inl rfl
  | stop => exact .inl finish_pending
  | finish _ hp _ => exact .inr (.inl ⟨_, hp.trans (by rw [finish_pending]; rfl)⟩)
  | enter _ hp _ _ _ | tooDeep _ hp _ _ _ | word _ hp _ _ _ => exact .inr (.inl ⟨_, hp⟩)
  | splice hp _ hex =>
    obtain ⟨argument, behind, new, rfl, -, hnew, -, rfl, -⟩ := Parser.expand_eq_ok_iff.mp hex
    exact .inr (.inr ⟨_, argument, behind, new, hp, hnew, rfl⟩)
  | leave =>
    unfold consumeClose
    split
    · exact .inl rfl
    · next hp =>
      split
      · exact .inr (.inl ⟨_, hp⟩)
      · exact .inl rfl

/-- Every block that is open is returned from. -/
theorem exists_returned {above blocks : List OpenBlock} {b : OpenBlock}
    (h : x.blocks = above ++ b :: blocks) : ∃ y, Reaches t s x y ∧ y.blocks = blocks := by
  induction x using run.induct t s generalizing above b with
  | case2 x hover =>
    rw [(step_eq_none_iff.mp hover).blocks_eq] at h
    exact absurd h.symm (by simp)
  | case1 x y hstep ih =>
    have hhead : ∀ {z}, Reaches t s y z → Reaches t s x z := fun hz => hz.head hstep
    rcases (step_eq_some_iff.mp hstep).blocks_cases with hy | ⟨c, hy⟩ | ⟨c, hy⟩
    · obtain ⟨z, hz, hblocks⟩ := ih (hy.trans h)
      exact ⟨z, hhead hz, hblocks⟩
    · obtain ⟨z, hz, hblocks⟩ := ih (show y.blocks = (c :: above) ++ b :: blocks by rw [hy, h]; rfl)
      exact ⟨z, hhead hz, hblocks⟩
    · cases above with
      | nil =>
        rw [hy] at h
        exact ⟨y, hhead .refl, (List.cons.inj h).2⟩
      | cons a above =>
        rw [hy] at h
        obtain ⟨z, hz, hblocks⟩ := ih (List.cons.inj h).2
        exact ⟨z, hhead hz, hblocks⟩

end Runs

/-! ## 3. The order of calls -/

/-- What a call that takes a turn may rely on. A block goes on with no words left over, and
knows whether it is at its end. A statement without a word stands where the token at the
front does, if there is one. -/
def Expects (x : Descent) : Turn → Prop
  | .block => x.params = []
  | .statement => x.params = [] ∧ x.atBlockEnd = false
  | .words => x.params = [] → ∀ first ∈ x.pending.head?, x.place = first.token.place
  | .leave => x.params = [] ∧ x.atBlockEnd = true
  | .fail _ => True

/-- The calls of a reading are in order.

* `depth_eq`, `depth_le`: the counter counts the open blocks, and is within its limit.
* `turn`: the innermost call may rely on what it does. -/
structure IsOrderly (s : Settings) (x : Descent) : Prop where
  depth_eq : x.depth = x.blocks.length
  depth_le : x.depth ≤ s.limits.blockDepth
  turn : x.Expects x.turn

section Order

variable {t : FileTree} {s : Settings} {x y : Descent} {first : Tracked} {rest : List Tracked}

theorem isOrderly_ofTokens {source : String} {tokens : List Token} :
    (ofTokens t source tokens).IsOrderly s where
  depth_eq := rfl
  depth_le := Nat.zero_le _
  turn := rfl

theorem IsOrderly.expects {turn : Turn} (h : x.IsOrderly s) (hr : x.turn = turn) :
    x.Expects turn := hr ▸ h.turn

theorem isOrderly_of_turn {turn : Turn} (hr : x.turn = turn) (hdepth : x.depth = x.blocks.length)
    (hle : x.depth ≤ s.limits.blockDepth) (h : x.Expects turn) : x.IsOrderly s :=
  ⟨hdepth, hle, hr ▸ h⟩

/-- A statement without a word stands where the token at the front does. -/
theorem IsOrderly.place_eq (h : x.IsOrderly s) (hr : x.turn = .words) (hn : x.params = [])
    (hp : x.pending = first :: rest) : x.place = first.token.place :=
  h.expects hr hn first (by simp [hp])

/-- A statement starts at a token. -/
theorem IsOrderly.pending_ne_nil (h : x.IsOrderly s) (hr : x.turn = .statement) :
    x.pending ≠ [] := by
  obtain ⟨first, rest, hp, -⟩ := atBlockEnd_eq_false_iff.mp (h.expects hr).2
  simp [hp]

/-- The counter goes down as a block is left. -/
theorem IsOrderly.depth_pred (h : x.IsOrderly s) {b : OpenBlock} {blocks : List OpenBlock}
    (hb : x.blocks = b :: blocks) :
    x.depth - 1 = blocks.length ∧ x.depth - 1 ≤ s.limits.blockDepth := by
  have hdepth := h.depth_eq
  rw [hb, List.length_cons] at hdepth
  exact ⟨Nat.sub_eq_of_eq_add hdepth, Nat.le_trans (Nat.sub_le _ _) h.depth_le⟩

theorem placeBefore_of_mem {pending : List Tracked} (h : first ∈ pending.head?) :
    x.placeBefore pending = first.token.place := by
  rw [Option.mem_def] at h
  simp [placeBefore, h]

/-- A step keeps the calls in order. -/
theorem Goes.isOrderly (h : Goes t s x y) (hx : x.IsOrderly s) : y.IsOrderly s := by
  cases h with
  | goOn hr hend => exact ⟨hx.depth_eq, hx.depth_le, hx.expects hr, hend⟩
  | close hr hend => exact ⟨hx.depth_eq, hx.depth_le, hx.expects hr, hend⟩
  | @start first rest hr hp =>
    refine ⟨hx.depth_eq, hx.depth_le, fun _ front hfront => ?_⟩
    have hfirst : some first = some front := (congrArg List.head? hp).symm.trans hfront
    cases hfirst
    rfl
  | exhausted | nameless | tooDeep | refuse | stray => exact ⟨hx.depth_eq, hx.depth_le, trivial⟩
  | stop | finish =>
    refine isOrderly_of_turn finish_turn ?_ ?_ finish_params
    · rw [finish_depth, finish_blocks]
      exact hx.depth_eq
    · rw [finish_depth]
      exact hx.depth_le
  | enter _ _ _ _ hlt => exact ⟨congrArg (· + 1) hx.depth_eq, hlt, rfl⟩
  | back _ _ hn _ => exact ⟨hx.depth_eq, hx.depth_le, hn⟩
  | splice _ hi _ =>
    -- The place is taken anew, from the tokens that are spliced in or follow.
    exact isOrderly_of_turn hi.1 hx.depth_eq hx.depth_le fun _ _ hfront => placeBefore_of_mem hfront
  | word hr => exact isOrderly_of_turn hr hx.depth_eq hx.depth_le fun hn => nomatch hn
  | @leave b blocks hl hb =>
    obtain ⟨hdepth, hle⟩ := hx.depth_pred hb
    have hn := (hx.expects hl).1
    unfold consumeClose
    split
    · exact ⟨hdepth, hle, hn⟩
    · split <;> exact ⟨hdepth, hle, hn⟩
  | unwind hf hb =>
    obtain ⟨hdepth, hle⟩ := hx.depth_pred hb
    exact isOrderly_of_turn hf hdepth hle trivial

/-- The calls stay in order. -/
theorem Reaches.isOrderly (h : Reaches t s x y) (hx : x.IsOrderly s) : y.IsOrderly s := by
  induction h with
  | refl => exact hx
  | tail _ hstep ih => exact (step_eq_some_iff.mp hstep).isOrderly ih

end Order

/-! ## 4. Reading comes to what a parser comes to -/

/-- The draft of a statement with these words, the last word first, once there is one. -/
def draftOf? (place : Place) (words : List String) : Option Draft :=
  words.getLast?.map fun name =>
    { first := ⟨place.file, place.line, name⟩, words := words.dropLast }

/-- The parser that has built the same and has the same stream. -/
def toParser (x : Descent) : Parser where
  pending := x.pending
  total := x.total
  blocks := x.blocks
  done := x.done
  draft := draftOf? x.place x.params

section Drafts

variable {x : Descent}

theorem draft_toParser_of_nil (h : x.params = []) : x.toParser.draft = none := by
  simp [toParser, draftOf?, h]

/-- Behind its first word a statement is a draft, which stands where it was taken to and
takes further words. -/
theorem exists_draft_toParser (h : x.params ≠ []) :
    ∃ draft, x.toParser.draft = some draft ∧ draft.finish = x.statement ∧
      draft.first.place = x.place ∧ ∀ text,
        draftOf? x.place (text :: x.params) = some { draft with words := text :: draft.words } := by
  obtain ⟨words, name, hparams⟩ := (List.eq_nil_or_concat x.params).resolve_left h
  refine ⟨{ first := ⟨x.place.file, x.place.line, name⟩, words }, ?_, ?_, rfl, fun text => ?_⟩
  · simp [toParser, draftOf?, hparams]
  · simp [Draft.finish, statement, hparams]
  · rw [hparams, List.concat_eq_append, ← List.cons_append, draftOf?, List.getLast?_concat,
      List.dropLast_concat]
    rfl

/-- At the end of the stream the result is the same, whether or not the statement was
ended. -/
theorem result_toParser_finish : x.finish.toParser.result = x.toParser.result := by
  by_cases h : x.params = []
  · simp [finish, h, toParser]
  · obtain ⟨draft, hd, hfinish, -⟩ := exists_draft_toParser h
    simp only [Parser.result, draft_toParser_of_nil finish_params, hd, hfinish]
    simp [finish, h, toParser]

end Drafts

section Steps

variable {t : FileTree} {s : Settings} {x y : Descent} {first : Tracked} {rest : List Tracked}

/-- A `;` ends the statement, as it does for a parser. -/
theorem step_toParser_finish (hp : x.pending = first :: rest)
    (he : first.token.endsStatement = true) :
    Parser.step t s x.toParser = .more (x.consume first rest).finish.toParser := by
  by_cases hn : x.params = []
  · rw [Parser.step_of_takes (p := x.toParser) hp (.blank (draft_toParser_of_nil hn) he)]
    simp [finish, consume, hn, toParser]
  · obtain ⟨draft, hd, hfinish, -⟩ := exists_draft_toParser hn
    rw [Parser.step_of_takes (p := x.toParser) hp (.finish hd he), hfinish]
    simp [finish, consume, hn, toParser, statement, draftOf?]

/-- A word is taken as by a parser, which has the place of the first one from its token. -/
theorem step_toParser_word (hx : x.IsOrderly s) (hr : x.turn = .words)
    (hp : x.pending = first :: rest) (he : first.token.endsStatement = false)
    (ho : first.token.opensBlock = false)
    (hfirst : x.params = [] →
      first.token.closesBlock = false ∧ first.token.isInclude = false) :
    Parser.step t s x.toParser =
      .more { x.consume first rest with params := first.token.text :: x.params }.toParser := by
  by_cases hn : x.params = []
  · obtain ⟨hc, hi⟩ := hfirst hn
    have hm := Token.isMark_eq_false_iff.mpr ⟨he, ho, hc⟩
    rw [Parser.step_of_takes (p := x.toParser) hp (.start (draft_toParser_of_nil hn) hm hi)]
    simp [toParser, consume, draftOf?, hn, hx.place_eq hr hn hp, Token.place]
  · obtain ⟨draft, hd, -, -, hmore⟩ := exists_draft_toParser hn
    rw [Parser.step_of_takes (p := x.toParser) hp (.word hd he ho)]
    simp [toParser, consume, hmore]

/-- An include is replaced as by a parser, which lays it to its token. -/
theorem step_toParser_atInclude (hx : x.IsOrderly s) (hp : x.pending = first :: rest)
    (hi : x.AtInclude first.token) :
    Parser.step t s x.toParser =
      match Parser.expand t s x.place first.trail rest x.total with
      | .error f => .failed f
      | .ok (pending, total) => .more { x.toParser with pending, total } := by
  obtain ⟨hr, hn, hinc⟩ := hi
  rw [Parser.step_of_atInclude (p := x.toParser) hp ⟨draft_toParser_of_nil hn, hinc⟩,
    hx.place_eq hr hn hp]
  rfl

/-- What a step of a reading is to the parser that has built the same.

* `quiet`: nothing is built or read.
* `moves`: the parser makes a step, too.
* `ends`: the stream is at its end, and the result is what it was.
* `fails`: the parser fails with the same fault. -/
inductive Shows (t : FileTree) (s : Settings) (x y : Descent) : Prop
  | quiet : y.turn.fault? = none → y.toParser = x.toParser → Shows t s x y
  | moves : y.turn.fault? = none → Parser.step t s x.toParser = .more y.toParser → Shows t s x y
  | ends : y.turn.fault? = none → x.pending = [] → y.pending = [] →
      y.toParser.result = x.toParser.result → Shows t s x y
  | fails {f : Fault} : y.turn = .fail f → Parser.step t s x.toParser = .failed f → Shows t s x y

/-- A call that returns closes a block, as a parser does. -/
theorem shows_leave {b : OpenBlock} {blocks : List OpenBlock} (hx : x.IsOrderly s)
    (hl : x.turn = .leave) (hb : x.blocks = b :: blocks) :
    Shows t s x (x.leaveBlock b blocks).consumeClose := by
  obtain ⟨hn, hend⟩ := hx.expects hl
  have hd := draft_toParser_of_nil hn
  rcases atBlockEnd_cases hend with hp | ⟨first, rest, hp, hc⟩
  · rw [consumeClose_of_nil (x := x.leaveBlock b blocks) hp]
    refine .ends rfl hp hp ?_
    simp [Parser.result, leaveBlock, toParser, draftOf?, hn, hb, Parser.close]
  · rw [consumeClose_of_close (x := x.leaveBlock b blocks) hp hc]
    exact .moves rfl (Parser.step_of_takes (p := x.toParser) hp (.leave hd hc hb))

/-- Every step that is not on the way back from a fault is one of these. -/
theorem Goes.shows (h : Goes t s x y) (hx : x.IsOrderly s) (hnone : x.turn.fault? = none) :
    Shows t s x y := by
  cases h with
  | goOn | close | back => exact .quiet rfl rfl
  | start hr _ =>
    refine .quiet rfl ?_
    rw [toParser, toParser, (hx.expects hr).1]
    rfl
  | exhausted hr hp => exact absurd hp (hx.pending_ne_nil hr)
  | stop hr hp =>
    exact .ends (by rw [finish_turn]; rfl) hp (finish_pending.trans hp) result_toParser_finish
  | finish hr hp he => exact .moves (by rw [finish_turn]; rfl) (step_toParser_finish hp he)
  | nameless hr hp hn ho =>
    rw [hx.place_eq hr hn hp]
    exact .fails rfl
      (Parser.step_of_refuses (p := x.toParser) hp (.noName (draft_toParser_of_nil hn) ho))
  | enter hr hp hn ho hlt =>
    obtain ⟨draft, hd, hfinish, -⟩ := exists_draft_toParser hn
    refine .moves rfl ?_
    rw [Parser.step_of_takes (p := x.toParser) hp (.enter hd ho (hx.depth_eq ▸ hlt)), hfinish]
    rfl
  | tooDeep hr hp hn ho hge =>
    obtain ⟨draft, hd, -, hplace, -⟩ := exists_draft_toParser hn
    rw [← hplace]
    exact .fails rfl
      (Parser.step_of_refuses (p := x.toParser) hp (.tooDeep hd ho (hx.depth_eq ▸ hge)))
  | splice hp hi hex =>
    refine .moves hnone ?_
    rw [step_toParser_atInclude hx hp hi, hex, toParser, toParser, hi.2.1]
    rfl
  | refuse hp hi hex => exact .fails rfl (by rw [step_toParser_atInclude hx hp hi, hex])
  | word hr hp he ho hfirst => exact .moves hnone (step_toParser_word hx hr hp he ho hfirst)
  | leave hl hb => exact shows_leave hx hl hb
  | @stray first rest hl hb hp =>
    obtain ⟨hn, hend⟩ := hx.expects hl
    have hc : first.token.closesBlock = true := by simpa [atBlockEnd, hp] using hend
    exact .fails rfl
      (Parser.step_of_refuses (p := x.toParser) hp (.noBlock (draft_toParser_of_nil hn) hc hb))
  | unwind hf _ =>
    rw [hf] at hnone
    cases hnone

end Steps

/-- What a parser comes to from here. -/
def outcome (t : FileTree) (s : Settings) (x : Descent) : Except Fault (List Directive) :=
  match x.turn.fault? with
  | some f => .error f
  | none => Parser.run t s x.toParser

section Agreement

variable {t : FileTree} {s : Settings} {x y : Descent}

theorem outcome_of_fail {f : Fault} (h : x.turn = .fail f) : outcome t s x = .error f := by
  simp [outcome, h, Turn.fault?]

theorem outcome_of_none (h : x.turn.fault? = none) :
    outcome t s x = Parser.run t s x.toParser := by
  simp [outcome, h]

/-- A step does not change the outcome. -/
theorem Goes.outcome_eq (h : Goes t s x y) (hx : x.IsOrderly s) :
    outcome t s y = outcome t s x := by
  cases hnone : x.turn.fault? with
  | some f =>
    cases h with
    | unwind hf _ => rw [outcome_of_fail hf, outcome_of_fail (by exact hf)]
    | splice _ hi _ | refuse _ hi _ =>
      rw [hi.1] at hnone
      cases hnone
    | _ => simp_all [Turn.fault?]
  | none =>
    rw [outcome_of_none hnone]
    cases h.shows hx hnone with
    | quiet hy heq => rw [outcome_of_none hy, heq]
    | moves hy hstep => rw [outcome_of_none hy, Parser.run_of_step hstep]
    | ends hy hp hpy hresult =>
      rw [outcome_of_none hy, Parser.run_of_nil (p := x.toParser) hp,
        Parser.run_of_nil (p := y.toParser) hpy, hresult]
    | fails hy hstep => rw [outcome_of_fail hy, Parser.run_of_failed hstep]

/-- When the outermost call is over, its answer is the outcome. -/
theorem IsOver.answer_eq (h : x.IsOver) (hx : x.IsOrderly s) : x.answer = outcome t s x := by
  cases h with
  | failed hf _ =>
    rw [outcome_of_fail hf, answer, hf]
    rfl
  | returned hl hb hp =>
    rw [outcome_of_none (by rw [hl]; rfl), Parser.run_of_nil (p := x.toParser) hp, answer, hl,
      Parser.result, draft_toParser_of_nil (hx.expects hl).1]
    simp [Turn.fault?, toParser, hb, Parser.close]

/-- The answer of a run is the outcome. -/
theorem answer_run (hx : x.IsOrderly s) : (run t s x).answer = outcome t s x := by
  induction x using run.induct t s with
  | case1 x y h ih =>
    have hgoes := step_eq_some_iff.mp h
    rw [run_of_step h, ih (hgoes.isOrderly hx), hgoes.outcome_eq hx]
  | case2 x h => rw [run_of_over h, (step_eq_none_iff.mp h).answer_eq hx]

/-! ## 5. What a parser reaches -/

/-- Where a parser makes a step, a reading comes to where it leads. -/
theorem exists_of_step {q : Parser} (hx : x.IsOrderly s) (hnone : x.turn.fault? = none)
    (h : Parser.step t s x.toParser = .more q) :
    ∃ y, Reaches t s x y ∧ y.toParser = q ∧ y.turn.fault? = none := by
  induction x using run.induct t s with
  | case1 x y hstep ih =>
    have hgoes := step_eq_some_iff.mp hstep
    cases hgoes.shows hx hnone with
    | quiet hy heq =>
      obtain ⟨z, hz, hread⟩ := ih (hgoes.isOrderly hx) hy (heq ▸ h)
      exact ⟨z, hz.head hstep, hread⟩
    | moves hy hmore =>
      rw [hmore] at h
      cases h
      exact ⟨y, .single hstep, rfl, hy⟩
    | ends _ hp _ _ => simp [Parser.step_of_nil (p := x.toParser) hp] at h
    | fails _ hfailed => simp [hfailed] at h
  | case2 x hover =>
    cases step_eq_none_iff.mp hover with
    | failed hf _ =>
      rw [hf] at hnone
      cases hnone
    | returned _ _ hp => simp [Parser.step_of_nil (p := x.toParser) hp] at h

theorem exists_of_reaches {source : String} {tokens : List Token} {q : Parser}
    (h : Parser.Reaches t s (Parser.ofTokens t source tokens) q) :
    ∃ x, Reaches t s (ofTokens t source tokens) x ∧ x.toParser = q ∧ x.turn.fault? = none := by
  induction h with
  | refl => exact ⟨_, .refl, rfl, rfl⟩
  | next _ hstep ih =>
    obtain ⟨x, hx, rfl, hnone⟩ := ih
    obtain ⟨y, hy, hread⟩ := exists_of_step (hx.isOrderly isOrderly_ofTokens) hnone hstep
    exact ⟨y, hx.trans hy, hread⟩

end Agreement

end Descent

/-- A text that is no longer than allowed is read to the result of a parser. -/
theorem parseFrom_eq_run (t : FileTree) (s : Settings) (source : String) (tokens : List Token) :
    parseFrom t s source tokens =
      if s.limits.tokens < tokens.length then
        .error { cause := .tooManyTokens tokens.length s.limits.tokens }
      else Parser.run t s (Parser.ofTokens t source tokens) := by
  rw [parseFrom, Descent.answer_run Descent.isOrderly_ofTokens]
  rfl

theorem parseTokens_eq_run {t : FileTree} {s : Settings} {tokens : List Token}
    (h : tokens.length ≤ s.limits.tokens) :
    parseTokens t s tokens = Parser.run t s (Parser.ofTokens t s.sourceName tokens) := by
  rw [parseTokens, parseFrom_eq_run, if_neg (Nat.not_lt.mpr h)]

end ConfTree
