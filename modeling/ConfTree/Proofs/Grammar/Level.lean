import ConfTree.Proofs.Parser.Flat

/-!
# Where the marks of a text stand

Two things decide what a mark means: whether a statement starts at it, and how
many blocks are open. Both are found by looking at the tokens in front of it, so
that misplaced marks and the depth of blocks can be spoken of without a parser.

1. `Level`, `Level.excludes`, `Level.admits`, `Level.deepest`: levels, misplaced
   tokens, and how deep blocks get in front of the first misplaced token.
2. `TakesAll.level_eq`, `TakesAll.admits`: a parser is at the level of what it has
   taken, and nothing of that is misplaced.
3. `Refuses.excludes_or_deep`: a parser refuses what is misplaced, and blocks that
   are too deep.
4. `TakesAll.of_deepest`: only the blocks of the text are limited.
-/

namespace ConfTree

/-! ## 1. Levels -/

/-- A place in a text. -/
structure Level where
  /-- A statement starts here. -/
  atStart : Bool := true
  /-- How many blocks are open here. -/
  blocks : Nat := 0
  deriving DecidableEq

namespace Level

def behind (l : Level) (token : Token) : Level where
  atStart := Include.startsBehind l.atStart token
  blocks :=
    if l.atStart then if token.closesBlock then l.blocks - 1 else l.blocks
    else if token.opensBlock then l.blocks + 1 else l.blocks

def behindAll (l : Level) (tokens : List Token) : Level :=
  tokens.foldl behind l

/-- The token is misplaced: it is a `{` where a statement starts, or a `}` where a
statement starts and no block is open. -/
def excludes (l : Level) (token : Token) : Bool :=
  l.atStart && (token.opensBlock || token.closesBlock && l.blocks == 0)

/-- None of the tokens is misplaced. -/
def admits (l : Level) : List Token → Bool
  | [] => true
  | token :: rest => !l.excludes token && (l.behind token).admits rest

/-- How many blocks are open where most are, as far as no token is misplaced. -/
def deepest (l : Level) : List Token → Nat
  | [] => l.blocks
  | token :: rest =>
    if l.excludes token then l.blocks else max l.blocks ((l.behind token).deepest rest)

theorem blocks_le_deepest (l : Level) (tokens : List Token) : l.blocks ≤ l.deepest tokens := by
  cases tokens with
  | nil => exact Nat.le_refl _
  | cons token rest =>
    rw [deepest]
    split
    · exact Nat.le_refl _
    · exact Nat.le_max_left _ _

theorem deepest_behind_le {l : Level} {token : Token} (rest : List Token)
    (h : l.excludes token = false) : (l.behind token).deepest rest ≤ l.deepest (token :: rest) := by
  rw [deepest, h]
  exact Nat.le_max_right _ _

theorem deepest_behindAll_le {l : Level} {front : List Token} (rest : List Token)
    (h : l.admits front = true) : (l.behindAll front).deepest rest ≤ l.deepest (front ++ rest) := by
  induction front generalizing l with
  | nil => exact Nat.le_refl _
  | cons token front ih =>
    rw [admits, Bool.and_eq_true, Bool.not_eq_true'] at h
    exact Nat.le_trans (ih h.2) (deepest_behind_le _ h.1)

end Level

/-! ## 2. The level of a parser -/

namespace Parser

/-- The place that a parser has reached. -/
def level (p : Parser) : Level where
  atStart := p.draft.isNone
  blocks := p.blocks.length

section Levels

variable {maxDepth : Nat} {token : Token} {tokens : List Token} {p q : Parser}

theorem Takes.level_eq (h : Takes maxDepth token p q) : q.level = p.level.behind token := by
  have hstart := h.isNone_draft
  cases h with
  | blank hd he =>
    simp [level, Level.behind, hd, Include.startsBehind, he, Token.closesBlock_of_endsStatement he]
  | leave hd hc hb => simp [level, Level.behind, hd, Include.startsBehind, hc, hb]
  | start hd hm _ =>
    obtain ⟨he, ho, hc⟩ := Token.isMark_eq_false_iff.mp hm
    simp [level, Level.behind, hd, Include.startsBehind, he, ho, hc]
  | finish hd he =>
    simp [level, Level.behind, hd, Include.startsBehind, he, Token.opensBlock_of_endsStatement he]
  | enter hd ho _ => simp [level, Level.behind, hd, Include.startsBehind, ho]
  | word hd he ho => simp [level, Level.behind, hd, Include.startsBehind, he, ho]

/-- A token that is taken is not misplaced. -/
theorem Takes.excludes_eq_false (h : Takes maxDepth token p q) :
    p.level.excludes token = false := by
  cases h with
  | blank _ he =>
    simp [Level.excludes, Token.opensBlock_of_endsStatement he,
      Token.closesBlock_of_endsStatement he]
  | leave _ hc hb => simp [Level.excludes, level, Token.opensBlock_of_closesBlock hc, hb]
  | start _ hm _ =>
    obtain ⟨_, ho, hc⟩ := Token.isMark_eq_false_iff.mp hm
    simp [Level.excludes, ho, hc]
  | finish hd _ | enter hd _ _ | word hd _ _ => simp [Level.excludes, level, hd]

theorem TakesAll.level_eq (h : TakesAll maxDepth tokens p q) :
    q.level = p.level.behindAll tokens := by
  induction h with
  | nil => rfl
  | cons ht _ ih => rw [ih, ht.level_eq, Level.behindAll, Level.behindAll, List.foldl_cons]

/-- None of the tokens that are taken is misplaced. -/
theorem TakesAll.admits (h : TakesAll maxDepth tokens p q) : p.level.admits tokens = true := by
  induction h with
  | nil => rfl
  | cons ht _ ih =>
    rw [Level.admits, ht.excludes_eq_false, ← ht.level_eq, ih]
    rfl

/-! ## 3. Refused tokens -/

/-- A parser refuses a misplaced token, for which it blames the grammar, and a
token that opens one block too many. -/
theorem Refuses.excludes_or_deep {f : Fault} (h : Refuses maxDepth token p f) :
    (p.level.excludes token = true ∧ f.kind = .grammar ∧ f.place = token.place) ∨
      p.level.excludes token = false ∧ maxDepth < (p.level.behind token).blocks := by
  cases h with
  | noName hd ho => exact .inl ⟨by simp [Level.excludes, level, hd, ho], rfl, rfl⟩
  | noBlock hd hc hb => exact .inl ⟨by simp [Level.excludes, level, hd, hc, hb], rfl, rfl⟩
  | tooDeep hd ho hge =>
    refine .inr ⟨by simp [Level.excludes, level, hd], ?_⟩
    simpa [Level.behind, level, hd, ho] using Nat.lt_succ_of_le hge

/-- A text whose blocks are not too deep is refused at its first misplaced token
only. -/
theorem excludes_of_refuses {front behind : List Token} {f : Fault}
    (hq : TakesAll maxDepth front p q) (hf : Refuses maxDepth token q f)
    (hdeep : p.level.deepest (front ++ token :: behind) ≤ maxDepth) :
    (p.level.behindAll front).excludes token = true ∧ f.kind = .grammar ∧
      f.place = token.place := by
  rw [← hq.level_eq]
  rcases hf.excludes_or_deep with h | ⟨hex, hlt⟩
  · exact h
  · have hle : (q.level.behind token).deepest behind ≤ maxDepth := by
      refine Nat.le_trans (Level.deepest_behind_le behind hex) ?_
      rw [hq.level_eq]
      exact Nat.le_trans (Level.deepest_behindAll_le _ hq.admits) hdeep
    have hblocks := Level.blocks_le_deepest (q.level.behind token) behind
    omega

/-! ## 4. The limit on blocks -/

/-- Tokens that are taken are taken under every limit that their blocks keep. -/
theorem TakesAll.of_deepest {bound : Nat} (h : TakesAll maxDepth tokens p q)
    (hdeep : p.level.deepest tokens ≤ bound) : TakesAll bound tokens p q := by
  induction h with
  | nil => exact .nil
  | @cons token rest p q r ht _ ih =>
    have hle := Nat.le_trans (Level.deepest_behind_le rest ht.excludes_eq_false) hdeep
    rw [← ht.level_eq] at hle
    have hblocks : q.blocks.length ≤ bound :=
      Nat.le_trans (Level.blocks_le_deepest q.level rest) hle
    exact .cons (ht.of_blocks_le hblocks) (ih hle)

end Levels

end Parser

end ConfTree
