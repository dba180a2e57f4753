import ConfTree.Directive
import ConfTree.Include.Headroom

/-!
# The state of a parser

A parser consumes a stream of tokens from the front and keeps what it has built:
the directives of the innermost open block, the blocks around it, and the
statement that is not finished. One step reads one token. Configurations are read by
`Descent`, call by call; a parser comes to the same, and has fewer states to look at.

* At the start of a statement `;` is nothing, `}` closes the innermost block,
  `include` is replaced by the tokens it stands for, and `{` is a fault.
* Inside a statement `;` finishes it and `{` opens its block; every other token,
  `}` and `include` too, is a word of the statement.
* At the end of the stream the statement counts as finished and all blocks as
  closed.

`step_consumes`: every step consumes the stream in the sense of `Consumes`, so
that `run` comes to an end.
-/

namespace ConfTree

/-- A statement that is not finished. -/
structure Draft where
  first : Token
  /-- The words behind, the last word first. -/
  words : List String := []
  deriving DecidableEq

/-- The statement as it stands. -/
def Draft.finish (d : Draft) : Statement :=
  { params := d.first.text :: d.words.reverse, file := d.first.file, line := d.first.line }

def Token.place (t : Token) : Place := { file := t.file, line := t.line }

/-- A block that is open. -/
structure OpenBlock where
  /-- The statement in front of the block. -/
  head : Statement
  /-- The directives in front of that statement, the last one first. -/
  before : List Directive

/-- What a parser has built, and what it has yet to read. -/
structure Parser where
  /-- The tokens to be read. -/
  pending : List Tracked
  /-- How many tokens were read or are to be read, those of expanded includes not
  counted. -/
  total : Nat
  /-- The blocks that are open, the innermost first. -/
  blocks : List OpenBlock := []
  /-- The directives of the innermost open block, the last one first. -/
  done : List Directive := []
  /-- The statement that is not finished, if one is begun. -/
  draft : Option Draft := none

namespace Parser

/-- A parser that is about to read the tokens of a text named `source`. -/
def ofTokens (t : FileTree) (source : String) (tokens : List Token) : Parser :=
  let trail := Trail.ofSource t ⟨source⟩
  { pending := tokens.map fun token => { token, trail }, total := tokens.length }

/-- What comes of one step. -/
inductive Progress where
  | more (p : Parser)
  | finished (ds : List Directive)
  | failed (f : Fault)

/-- Replaces an include by the tokens it stands for. It is laid to `place`, has come
along `trail`, and `rest` stands behind its token in the stream. The result is the new
stream and the new total. -/
def expand (t : FileTree) (s : Settings) (place : Place) (trail : Trail) (rest : List Tracked)
    (total : Nat) : Except Fault (List Tracked × Nat) :=
  match rest with
  | [] => .error { cause := .includeWithoutArgument, place }
  | argument :: rest =>
    if argument.token.isMark then .error { cause := .includeWithoutArgument, place }
    else match Include.importTokens t s argument.token.text trail with
      | .error f => .error ((f.orAt place).within s!"while including {argument.token.text}")
      | .ok new =>
        let total := total - 2 + new.length
        if s.limits.tokens < total then
          .error { cause := .tooManyTokens total s.limits.tokens, place }
        else .ok (new ++ rest, total)

/-- Reads a token where a statement starts. -/
def stepAtStart (t : FileTree) (s : Settings) (p : Parser) (first : Tracked)
    (rest : List Tracked) : Progress :=
  let token := first.token
  if token.endsStatement then .more { p with pending := rest }
  else if token.opensBlock then
    .failed { cause := .blockWithoutName, place := token.place }
  else if token.closesBlock then
    match p.blocks with
    | [] => .failed { cause := .unexpectedClose, place := token.place }
    | b :: blocks =>
      .more { p with pending := rest, blocks, done := .block b.head p.done.reverse :: b.before }
  else if token.isInclude then
    match expand t s token.place first.trail rest p.total with
    | .error f => .failed f
    | .ok (pending, total) => .more { p with pending, total }
  else .more { p with pending := rest, draft := some { first := token } }

/-- Reads a token inside the statement `draft`. -/
def stepInside (s : Settings) (p : Parser) (draft : Draft) (token : Token)
    (rest : List Tracked) : Progress :=
  if token.endsStatement then
    .more { p with pending := rest, done := .simple draft.finish :: p.done, draft := none }
  else if token.opensBlock then
    if s.limits.blockDepth ≤ p.blocks.length then
      .failed { cause := .blocksTooDeep s.limits.blockDepth, place := draft.first.place }
    else
      .more { p with
        pending := rest
        blocks := ⟨draft.finish, p.done⟩ :: p.blocks
        done := []
        draft := none }
  else
    .more { p with
      pending := rest
      draft := some { draft with words := token.text :: draft.words } }

/-- Closes the blocks, from the innermost outwards, around the directives `done`,
the last of which comes first. -/
def close : List OpenBlock → (done : List Directive) → List Directive
  | [], done => done.reverse
  | b :: blocks, done => close blocks (.block b.head done.reverse :: b.before)

/-- The directives if the stream ends here. -/
def result (p : Parser) : List Directive :=
  match p.draft with
  | none => close p.blocks p.done
  | some draft => close p.blocks (.simple draft.finish :: p.done)

/-- The argument of the include that the next step expands, if it does. -/
def argument? (p : Parser) : Option String :=
  match p.draft, p.pending with
  | none, first :: argument :: _ =>
    if first.token.isInclude && !argument.token.isMark then some argument.token.text else none
  | _, _ => none

/-- Reads one token. -/
def step (t : FileTree) (s : Settings) (p : Parser) : Progress :=
  match p.pending with
  | [] => .finished p.result
  | first :: rest =>
    match p.draft with
    | none => stepAtStart t s p first rest
    | some draft => stepInside s p draft first.token rest

theorem expand_consumes {t : FileTree} {s : Settings} {place : Place} {first : Tracked}
    {rest pending : List Tracked} {total total' : Nat}
    (h : expand t s place first.trail rest total = .ok (pending, total')) :
    Consumes t ⟨pending⟩ ⟨first :: rest⟩ := by
  unfold expand at h
  split at h
  · cases h
  · next argument rest =>
    split at h
    · cases h
    · split at h
      · cases h
      · next new hnew =>
        dsimp only at h
        split at h
        · cases h
        · cases h
          exact Consumes.step first new [argument] rest
            (Include.headroom_lt_of_mem_importTokens hnew)

theorem consumes_rest (t : FileTree) (first : Tracked) (rest : List Tracked) :
    Consumes t ⟨rest⟩ ⟨first :: rest⟩ :=
  Consumes.step first [] [] rest (by simp)

theorem stepAtStart_consumes {t : FileTree} {s : Settings} {p q : Parser} {first : Tracked}
    {rest : List Tracked} (h : stepAtStart t s p first rest = .more q) :
    Consumes t ⟨q.pending⟩ ⟨first :: rest⟩ := by
  unfold stepAtStart at h
  dsimp only at h
  split at h
  · cases h; exact consumes_rest ..
  · split at h
    · cases h
    · split at h
      · split at h
        · cases h
        · cases h; exact consumes_rest ..
      · split at h
        · split at h
          · cases h
          · next he => cases h; exact expand_consumes he
        · cases h; exact consumes_rest ..

theorem stepInside_consumes {t : FileTree} {s : Settings} {p q : Parser} {draft : Draft}
    {first : Tracked} {rest : List Tracked}
    (h : stepInside s p draft first.token rest = .more q) :
    Consumes t ⟨q.pending⟩ ⟨first :: rest⟩ := by
  unfold stepInside at h
  split at h
  · cases h; exact consumes_rest ..
  · split at h
    · split at h
      · cases h
      · cases h; exact consumes_rest ..
    · cases h; exact consumes_rest ..

/-- Every step consumes the stream. -/
theorem step_consumes {t : FileTree} {s : Settings} {p q : Parser} (h : step t s p = .more q) :
    Consumes t ⟨q.pending⟩ ⟨p.pending⟩ := by
  unfold step at h
  split at h
  · cases h
  · next first rest hp =>
    rw [hp]
    split at h
    · exact stepAtStart_consumes h
    · exact stepInside_consumes h

/-- `Reaches t s p q`: the parser `p` becomes `q` in some number of steps. -/
inductive Reaches (t : FileTree) (s : Settings) (p : Parser) : Parser → Prop
  | refl : Reaches t s p p
  | next {q r : Parser} : Reaches t s p q → step t s q = .more r → Reaches t s p r

/-- Reads the stream to its end. -/
def run (t : FileTree) (s : Settings) (p : Parser) : Except Fault (List Directive) :=
  match _h : step t s p with
  | .more q => run t s q
  | .finished ds => .ok ds
  | .failed f => .error f
termination_by (⟨p.pending⟩ : Stream t)
decreasing_by exact step_consumes _h

end Parser

end ConfTree
