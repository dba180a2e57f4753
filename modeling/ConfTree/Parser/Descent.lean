import ConfTree.Parser.State

/-!
# Reading a stream call by call

A block reads its statements one after the other, a statement reads its words, and the
block behind it is a call of its own: it is entered, comes to its end and returns to the
statement in front, also when it fails.

A statement takes note of where it stands when it starts, and again each time an include
in front of its first word has been replaced: then it stands where the next token does, if
there is one. So its place is kept apart from the stream, and faults and directives get it
from there. A counter of its own goes up when a block is entered and down when it returns.

1. `Cursor`, `Cursor.expandInclude`: the stream with the count of its tokens, and how
   an include is replaced there, check by check.
2. `Descent`, `Descent.step`: the state between two looks at the stream, and what comes
   next.
3. `Descent.step_descends`, `Descent.run`: every step consumes the stream, returns, or
   comes closer to returning, so that a run comes to its end.
-/

namespace ConfTree

/-! ## 1. The stream -/

/-- The tokens to be read, with the count of those that were read or are to be read. -/
structure Cursor where
  pending : List Tracked
  total : Nat

namespace Cursor

/-- Work on a stream. What is done before a fault stays done. -/
abbrev Work := EStateM Fault Cursor

/-- The token behind the one at the front. -/
def lookahead? (c : Cursor) : Option Token := c.pending[1]?.map Tracked.token

def advance : Work Unit := modify fun c => { c with pending := c.pending.tail }

/-- Replaces the include at the front, which stands at `place` and has come along
`trail`, by the tokens it stands for. -/
def expandInclude (t : FileTree) (s : Settings) (place : Place) (trail : Trail) : Work Unit := do
  match (← get).lookahead? with
  | none => throw { cause := .includeWithoutArgument, place }
  | some argument =>
    if argument.isMark then throw { cause := .includeWithoutArgument, place }
    match Include.importTokens t s argument.text trail with
    | .error f => throw ((f.orAt place).within s!"while including {argument.text}")
    | .ok imported =>
      let total := (← get).total - 2 + imported.length
      if s.limits.tokens < total then
        throw { cause := .tooManyTokens total s.limits.tokens, place }
      advance
      advance
      modify fun c => { pending := imported ++ c.pending, total }

section Expanding

variable {t : FileTree} {s : Settings} {c d : Cursor}

/-- If an include cannot be replaced, the stream is left as it is. -/
theorem eq_of_expandInclude_eq_error {place : Place} {trail : Trail} {f : Fault}
    (h : (expandInclude t s place trail).run c = .error f d) : d = c := by
  cases ha : c.lookahead? with
  | none =>
    simp [expandInclude, ha] at h
    exact h.2.symm
  | some argument =>
    cases hm : argument.isMark with
    | true =>
      simp [expandInclude, ha, hm] at h
      exact h.2.symm
    | false =>
      cases hi : Include.importTokens t s argument.text trail with
      | error g =>
        simp [expandInclude, ha, hm, hi] at h
        exact h.2.symm
      | ok imported =>
        -- Nothing can fail behind the check of the new total.
        by_cases hlong : s.limits.tokens < c.total - 2 + imported.length
        · simp [expandInclude, ha, hm, hi, hlong] at h
          exact h.2.symm
        · simp [expandInclude, ha, hm, hi, hlong, advance] at h

/-- An include is replaced as `Parser.expand` says. -/
theorem run_expandInclude {place : Place} {trail : Trail} {first : Tracked} {rest : List Tracked}
    (h : c.pending = first :: rest) :
    (expandInclude t s place trail).run c =
      match Parser.expand t s place trail rest c.total with
      | .error f => .error f c
      | .ok (pending, total) => .ok () ⟨pending, total⟩ := by
  cases rest with
  | nil => simp [expandInclude, Parser.expand, lookahead?, h]
  | cons argument rest =>
    cases hm : argument.token.isMark with
    | true => simp [expandInclude, Parser.expand, lookahead?, h, hm]
    | false =>
      cases hi : Include.importTokens t s argument.token.text trail with
      | error f => simp [expandInclude, Parser.expand, lookahead?, h, hm, hi]
      | ok new =>
        by_cases hlong : s.limits.tokens < c.total - 2 + new.length
        · simp [expandInclude, Parser.expand, lookahead?, h, hm, hi, hlong]
        · simp [expandInclude, Parser.expand, lookahead?, h, hm, hi, hlong, advance]

end Expanding

end Cursor

/-! ## 2. Steps -/

/-- What the innermost call does next. -/
inductive Turn where
  /-- It looks whether its block goes on. -/
  | block
  /-- It starts a statement. -/
  | statement
  /-- It reads a word of its statement. -/
  | words
  /-- It returns, its block being at an end. -/
  | leave
  /-- It fails. -/
  | fail (f : Fault)

/-- The fault it fails with, if it does. -/
def Turn.fault? : Turn → Option Fault
  | fail f => some f
  | _ => none

/-- A reading that is under way. The calls that have not returned are those of its
`blocks`. -/
structure Descent where
  /-- The tokens to be read. -/
  pending : List Tracked
  /-- How many tokens were read or are to be read, those of expanded includes not
  counted. -/
  total : Nat
  /-- How many blocks are open, by a counter. -/
  depth : Nat := 0
  /-- The blocks that are open, the innermost first. -/
  blocks : List OpenBlock := []
  /-- The directives of the innermost open block, the last one first. -/
  done : List Directive := []
  /-- Where the statement stands that is being read. -/
  place : Place := .unknown
  /-- Its words, the last one first. -/
  params : List String := []
  turn : Turn := .block
  /-- The tokens that were read, those of expanded includes apart, the last one
  first. -/
  consumed : List Tracked := []

namespace Descent

/-- About to read the tokens of a text named `source`. -/
def ofTokens (t : FileTree) (source : String) (tokens : List Token) : Descent :=
  let trail := Trail.ofSource t ⟨source⟩
  { pending := tokens.map fun token => { token, trail }, total := tokens.length }

def cursor (x : Descent) : Cursor where
  pending := x.pending
  total := x.total

/-- The statement as it stands. -/
def statement (x : Descent) : Statement where
  params := x.params.reverse
  file := x.place.file
  line := x.place.line

/-- The block does not go on: the stream is at its end or at a `}`. -/
def atBlockEnd (x : Descent) : Bool := x.pending.head?.all fun first => first.token.closesBlock

/-- Where a statement stands that goes on with the stream `pending`. -/
def placeBefore (x : Descent) (pending : List Tracked) : Place :=
  (pending.head?.map fun next => next.token.place).getD x.place

/-- Reads the token at the front. -/
def consume (x : Descent) (first : Tracked) (rest : List Tracked) : Descent :=
  { x with pending := rest, consumed := first :: x.consumed }

/-- Reads the token at the front if it is a `}`. -/
def consumeClose (x : Descent) : Descent :=
  match x.pending with
  | [] => x
  | first :: rest => if first.token.closesBlock then x.consume first rest else x

/-- Goes on with a stream on which some work was done. -/
def after (x : Descent) : EStateM.Result Fault Cursor Unit → Descent
  | .ok () c =>
    { x with pending := c.pending, total := c.total, place := x.placeBefore c.pending }
  | .error f c => { x with pending := c.pending, total := c.total, turn := .fail f }

/-- Goes on with another statement, if the block does. -/
def stepBlock (x : Descent) : Descent :=
  { x with turn := if x.atBlockEnd then .leave else .statement }

/-- Starts a statement, which stands where the token at the front does. -/
def stepStatement (x : Descent) : Descent :=
  match x.pending with
  | [] => { x with turn := .fail { cause := .unexpectedEnd } }
  | first :: _ => { x with place := first.token.place, params := [], turn := .words }

/-- Ends the statement, which is nothing without a word. -/
def finish (x : Descent) : Descent :=
  if x.params.isEmpty then { x with turn := .block }
  else { x with done := .simple x.statement :: x.done, params := [], turn := .block }

/-- Enters the block of the statement. -/
def enterBlock (s : Settings) (x : Descent) : Descent :=
  if s.limits.blockDepth ≤ x.depth then
    { x with turn := .fail { cause := .blocksTooDeep s.limits.blockDepth, place := x.place } }
  else
    { x with
      depth := x.depth + 1
      blocks := ⟨x.statement, x.done⟩ :: x.blocks
      done := []
      params := []
      turn := .block }

/-- Reads a token inside a statement. Before its first word, a `}` and an `include` are no
words. The `{` of a block that is too deep is read too. -/
def stepWords (t : FileTree) (s : Settings) (x : Descent) : Descent :=
  match x.pending with
  | [] => x.finish
  | first :: rest =>
    if first.token.endsStatement then (x.consume first rest).finish
    else if first.token.opensBlock then
      if x.params.isEmpty then
        { x with turn := .fail { cause := .blockWithoutName, place := x.place } }
      else (x.consume first rest).enterBlock s
    else if x.params.isEmpty && first.token.closesBlock then { x with turn := .block }
    else if x.params.isEmpty && first.token.isInclude then
      x.after ((Cursor.expandInclude t s x.place first.trail).run x.cursor)
    else { x.consume first rest with params := first.token.text :: x.params }

/-- Back from the block `b` inside `blocks`, in front of the `}` there may be. -/
def leaveBlock (x : Descent) (b : OpenBlock) (blocks : List OpenBlock) : Descent :=
  { x with
    depth := x.depth - 1
    blocks
    done := .block b.head x.done.reverse :: b.before
    turn := .block }

/-- Returns from the innermost block. Only the outermost call leaves a `}` unread. -/
def stepLeave (x : Descent) : Option Descent :=
  match x.blocks with
  | b :: blocks => some (x.leaveBlock b blocks).consumeClose
  | [] =>
    match x.pending with
    | [] => none
    | first :: _ =>
      some { x with turn := .fail { cause := .unexpectedClose, place := first.token.place } }

/-- Fails in the innermost block, and so in the call around it. -/
def stepFail (x : Descent) : Option Descent :=
  match x.blocks with
  | _ :: blocks => some { x with depth := x.depth - 1, blocks }
  | [] => none

/-- What comes next, unless the outermost call is over. -/
def step (t : FileTree) (s : Settings) (x : Descent) : Option Descent :=
  match x.turn with
  | .block => some x.stepBlock
  | .statement => some x.stepStatement
  | .words => some (x.stepWords t s)
  | .leave => x.stepLeave
  | .fail _ => x.stepFail

/-- What the outermost call returns when it is over. -/
def answer (x : Descent) : Except Fault (List Directive) :=
  match x.turn.fault? with
  | some f => .error f
  | none => .ok x.done.reverse

/-! ## 3. Runs -/

/-- How far the innermost call is from its end. A statement that ends without a word leads
back to its block only where this is at an end, too. -/
def rank (x : Descent) : Nat :=
  match x.turn with
  | .block => if x.atBlockEnd then 2 else 5
  | .statement => 4
  | .words => 3
  | .leave => 1
  | .fail _ => 0

/-- What is left to do is less in `y` than in `x`: there is less of the stream, or as
much and fewer blocks are open, or as many and the innermost call is closer to its end. -/
inductive Descends (t : FileTree) (y x : Descent) : Prop
  | consumes : Consumes t ⟨y.pending⟩ ⟨x.pending⟩ → Descends t y x
  | returns : y.pending = x.pending → y.blocks.length < x.blocks.length → Descends t y x
  | ends : y.pending = x.pending → y.blocks = x.blocks → y.rank < x.rank → Descends t y x

/-- What is left to do: the stream, the open blocks, and the end of the innermost call. -/
def left (t : FileTree) (x : Descent) : Stream t × Nat × Nat :=
  (⟨x.pending⟩, x.blocks.length, x.rank)

theorem Descends.left_lt {t : FileTree} {x y : Descent} (h : Descends t y x) :
    WellFoundedRelation.rel (y.left t) (x.left t) := by
  unfold left
  cases h with
  | consumes hc => exact .left _ _ hc
  | returns hp hb =>
    rw [hp]
    exact .right _ (.left _ _ hb)
  | ends hp hb hr =>
    rw [hp, hb]
    exact .right _ (.right _ hr)

section Finish

variable {x : Descent}

@[simp] theorem finish_pending : x.finish.pending = x.pending := by
  unfold finish
  split <;> rfl

@[simp] theorem finish_total : x.finish.total = x.total := by
  unfold finish
  split <;> rfl

@[simp] theorem finish_depth : x.finish.depth = x.depth := by
  unfold finish
  split <;> rfl

@[simp] theorem finish_blocks : x.finish.blocks = x.blocks := by
  unfold finish
  split <;> rfl

@[simp] theorem finish_consumed : x.finish.consumed = x.consumed := by
  unfold finish
  split <;> rfl

@[simp] theorem finish_turn : x.finish.turn = .block := by
  unfold finish
  split <;> rfl

@[simp] theorem finish_params : x.finish.params = [] := by
  unfold finish
  split
  · next h => exact List.isEmpty_iff.mp h
  · rfl

end Finish

section Steps

variable {t : FileTree} {s : Settings} {x y : Descent}

theorem stepBlock_descends (hturn : x.turn = .block) : Descends t x.stepBlock x := by
  refine .ends rfl rfl ?_
  cases hend : x.atBlockEnd <;> simp [rank, stepBlock, hturn, hend]

theorem stepStatement_descends (hturn : x.turn = .statement) : Descends t x.stepStatement x := by
  unfold stepStatement
  split <;> exact .ends rfl rfl (by simp [rank, hturn])

theorem enterBlock_pending : (x.enterBlock s).pending = x.pending := by
  unfold enterBlock
  split <;> rfl

/-- Less is left to do behind a token that is read. -/
theorem descends_of_rest {first : Tracked} {rest : List Tracked}
    (hp : x.pending = first :: rest) (hy : y.pending = rest) : Descends t y x := by
  refine .consumes ?_
  rw [hp, hy]
  exact Parser.consumes_rest t first rest

theorem stepWords_descends (hturn : x.turn = .words) : Descends t (x.stepWords t s) x := by
  fun_cases stepWords
  · next hp =>
    -- The block is at its end, where the stream is.
    have hend : x.finish.atBlockEnd = true := by simp [atBlockEnd, hp]
    exact .ends finish_pending finish_blocks (by simp [rank, hend, hturn])
  · next hp _ => exact descends_of_rest hp finish_pending
  · exact .ends rfl rfl (by simp [rank, hturn])
  · next hp _ _ _ => exact descends_of_rest hp enterBlock_pending
  · next hp _ _ hclose =>
    have hend : ({ x with turn := .block } : Descent).atBlockEnd = true := by
      simp only [Bool.and_eq_true] at hclose
      simp [atBlockEnd, hp, hclose.2]
    exact .ends rfl rfl (by simp [rank, hend, hturn])
  · next hp _ _ _ _ =>
    rw [Cursor.run_expandInclude (c := x.cursor) hp]
    split
    · exact .ends rfl rfl (by simp [rank, hturn, after])
    · next hex => exact .consumes (hp ▸ Parser.expand_consumes hex)
  · next hp _ _ _ _ _ => exact descends_of_rest hp rfl

theorem stepLeave_descends (hturn : x.turn = .leave) (h : x.stepLeave = some y) :
    Descends t y x := by
  unfold stepLeave at h
  split at h
  · next b blocks hb =>
    cases h
    have hfewer : (x.leaveBlock b blocks).blocks.length < x.blocks.length := by
      simp [leaveBlock, hb]
    unfold consumeClose
    split
    · exact .returns rfl hfewer
    · next first rest hp =>
      split
      · exact .consumes (hp ▸ Parser.consumes_rest t first rest)
      · exact .returns rfl hfewer
  · split at h
    · cases h
    · cases h
      exact .ends rfl rfl (by simp [rank, hturn])

/-- Every step leaves less to do. -/
theorem step_descends (h : step t s x = some y) : Descends t y x := by
  unfold step at h
  split at h
  · next hturn =>
    cases h
    exact stepBlock_descends hturn
  · next hturn =>
    cases h
    exact stepStatement_descends hturn
  · next hturn =>
    cases h
    exact stepWords_descends hturn
  · next hturn => exact stepLeave_descends hturn h
  · unfold stepFail at h
    split at h
    · next hb =>
      cases h
      exact .returns rfl (by simp [hb])
    · cases h

end Steps

/-- Goes on until the outermost call is over. -/
def run (t : FileTree) (s : Settings) (x : Descent) : Descent :=
  match _h : step t s x with
  | some y => run t s y
  | none => x
termination_by x.left t
decreasing_by exact (step_descends _h).left_lt

end Descent

end ConfTree
