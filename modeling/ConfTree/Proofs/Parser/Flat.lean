import ConfTree.Proofs.Parser.Descent

/-!
# Streams without includes

A stream is flat if no include stands where a statement starts. Such a stream is
read token by token, and nothing but its tokens and the limit on blocks matters:
no file is looked at.

1. `isFlat_append`: flatness of two streams, one behind the other.
2. `takesAll_or_refused`: the tokens of a flat stream are all taken, or all up to
   one that is refused.
3. `run_eq_of_flat`: the run of a flat stream is the same in every file tree,
   whatever trails its tokens have.
-/

namespace ConfTree

/-- No include stands where a statement starts. -/
def Include.isFlat (atStart : Bool) : List Token → Bool
  | [] => true
  | token :: rest =>
    !(atStart && token.isInclude) && isFlat (startsBehind atStart token) rest

/-! ## 1. Flat streams -/

namespace Include

@[simp] theorem isFlat_nil (atStart : Bool) : isFlat atStart [] = true := rfl

theorem isFlat_cons {atStart : Bool} {token : Token} {rest : List Token} :
    isFlat atStart (token :: rest) = true ↔
      (atStart && token.isInclude) = false ∧ isFlat (startsBehind atStart token) rest = true := by
  rw [isFlat, Bool.and_eq_true, Bool.not_eq_true']

theorem isFlat_append {atStart : Bool} {front behind : List Token} :
    isFlat atStart (front ++ behind) = true ↔
      isFlat atStart front = true ∧ isFlat (front.foldl startsBehind atStart) behind = true := by
  induction front generalizing atStart with
  | nil => simp
  | cons token front ih =>
    rw [List.cons_append, isFlat_cons, isFlat_cons, ih, List.foldl_cons, and_assoc]

end Include

namespace Parser

/-- No include stands at the front of a flat stream. -/
theorem not_atInclude_of_isFlat {p : Parser} {token : Token} {rest : List Token}
    (h : Include.isFlat p.draft.isNone (token :: rest) = true) : ¬ p.AtInclude token := by
  rw [atInclude_iff, (Include.isFlat_cons.mp h).1]
  exact Bool.false_ne_true

/-! ## 2. Taking a flat stream -/

/-- All tokens of a flat stream are taken, or all up to one that is refused. -/
theorem takesAll_or_refused (maxDepth : Nat) {tokens : List Token} {p : Parser}
    (h : Include.isFlat p.draft.isNone tokens = true) :
    (∃ q, TakesAll maxDepth tokens p q) ∨
      ∃ front token behind q f, tokens = front ++ token :: behind ∧
        TakesAll maxDepth front p q ∧ Refuses maxDepth token q f := by
  induction tokens generalizing p with
  | nil => exact .inl ⟨p, .nil⟩
  | cons token tokens ih =>
    rcases takes_or_refuses maxDepth (not_atInclude_of_isFlat h) with ⟨q, hq⟩ | ⟨f, hf⟩
    · have hrest := (Include.isFlat_cons.mp h).2
      rw [← hq.isNone_draft] at hrest
      rcases ih hrest with ⟨r, hr⟩ | ⟨front, other, behind, r, f, rfl, hr, hf⟩
      · exact .inl ⟨r, .cons hq hr⟩
      · exact .inr ⟨token :: front, other, behind, r, f, rfl, .cons hq hr, hf⟩
    · exact .inr ⟨[], token, tokens, p, f, rfl, .nil, hf⟩

/-- Tokens that are all taken are flat. -/
theorem TakesAll.isFlat {maxDepth : Nat} {tokens : List Token} {p q : Parser}
    (h : TakesAll maxDepth tokens p q) : Include.isFlat p.draft.isNone tokens = true := by
  induction h with
  | nil => rfl
  | @cons token tokens p q r ht _ ih =>
    rw [ht.isNone_draft] at ih
    have hinc := ht.not_atInclude
    rw [atInclude_iff, Bool.not_eq_true] at hinc
    exact Include.isFlat_cons.mpr ⟨hinc, ih⟩

/-- What follows tokens that are taken is flat if the whole is. -/
theorem TakesAll.isFlat_behind {maxDepth : Nat} {front behind : List Token} {p q : Parser}
    (h : TakesAll maxDepth front p q)
    (hflat : Include.isFlat p.draft.isNone (front ++ behind) = true) :
    Include.isFlat q.draft.isNone behind = true := by
  rw [h.isNone_draft]
  exact (Include.isFlat_append.mp hflat).2

/-! ## 3. Running a flat stream -/

section Runs

variable {t : FileTree} {s : Settings} {p q : Parser}

/-- A stream that is taken as a whole is read. -/
theorem run_of_takesAll (h : TakesAll s.limits.blockDepth (p.pending.map Tracked.token) p q) :
    run t s p = .ok q.result := by
  have hp : p.pending = p.pending ++ [] := (List.append_nil _).symm
  rw [h.run_eq hp]
  exact run_of_nil rfl

/-- A stream is not read beyond a token that is refused. -/
theorem run_of_takesAll_refuses {front : List Token} {token : Token} {behind : List Token}
    {f : Fault} (hp : p.pending.map Tracked.token = front ++ token :: behind)
    (h : TakesAll s.limits.blockDepth front p q)
    (hf : Refuses s.limits.blockDepth token q f) : run t s p = .error f := by
  obtain ⟨xs, ys, hpending, hxs, hys⟩ := List.map_eq_append_iff.mp hp
  obtain ⟨first, rest, rfl, rfl, -⟩ := List.map_eq_cons_iff.mp hys
  subst hxs
  rw [h.run_eq hpending]
  exact run_of_refuses rfl (hf.withStream _ _)

/-- The run of a flat stream depends on its tokens only: not on the file tree, on
the trails of the tokens or on their count. -/
theorem run_eq_of_flat (hflat : Include.isFlat p.draft.isNone (p.pending.map Tracked.token) = true)
    (t' : FileTree) {pending : List Tracked} (total : Nat)
    (hp : pending.map Tracked.token = p.pending.map Tracked.token) :
    run t s p = run t' s { p with pending, total } := by
  rcases takesAll_or_refused s.limits.blockDepth hflat with
    ⟨q, hq⟩ | ⟨front, token, behind, q, f, htokens, hq, hf⟩
  · have hq' := hq.withStream pending total
    rw [run_of_takesAll hq, run_of_takesAll (hp ▸ hq')]
    rfl
  · have hq' := hq.withStream pending total
    rw [run_of_takesAll_refuses htokens hq hf,
      run_of_takesAll_refuses (hp.trans htokens) hq' (hf.withStream pending total)]

end Runs

end Parser

end ConfTree
