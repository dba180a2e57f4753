import ConfTree.Proofs.Include.Expansion
import ConfTree.Proofs.Parser.Descent
import ConfTree.Proofs.Parser.Normal

/-!
# Accounting for the stream

The total of a reading changes only where an include is replaced, while tokens are read
in many places. To see that it never drifts, what was read is kept too: the total is the
length of both lists together.

1. `IsAccounted`, `Reaches.isAccounted`: the books, and that every step keeps them right.
2. `expanded_eq_consumed_run`: what a reading that succeeds has read is the expanded
   stream.
3. `stream_accounting`: a text, at any time while it is read.
-/

namespace ConfTree

namespace Descent

/-! ## 1. The books -/

/-- The books of a reading are right.

* `total_eq`: the total counts what was read, expanded includes apart, and what is to be
  read.
* `total_le`: it is within its limit. -/
structure IsAccounted (s : Settings) (x : Descent) : Prop where
  total_eq : x.total = x.consumed.length + x.pending.length
  total_le : x.total ≤ s.limits.tokens

section Books

variable {t : FileTree} {s : Settings} {x y : Descent} {source : String} {tokens : List Token}

theorem isAccounted_ofTokens (h : tokens.length ≤ s.limits.tokens) :
    (ofTokens t source tokens).IsAccounted s where
  total_eq := by simp [ofTokens]
  total_le := h

/-- A token that is read moves from one side of the books to the other. -/
theorem IsAccounted.consume (h : x.IsAccounted s) {first : Tracked} {rest : List Tracked}
    (hp : x.pending = first :: rest) : (x.consume first rest).IsAccounted s where
  total_eq := by
    have htotal := h.total_eq
    rw [hp, List.length_cons] at htotal
    show x.total = (first :: x.consumed).length + rest.length
    rw [htotal, List.length_cons]
    omega
  total_le := h.total_le

theorem IsAccounted.finish (h : x.IsAccounted s) : x.finish.IsAccounted s where
  total_eq := by
    rw [finish_total, finish_consumed, finish_pending]
    exact h.total_eq
  total_le := by
    rw [finish_total]
    exact h.total_le

/-- A step keeps the books right. -/
theorem Goes.isAccounted (h : Goes t s x y) (hx : x.IsAccounted s) : y.IsAccounted s := by
  cases h with
  | goOn | close | start | exhausted | nameless | back | refuse | stray | unwind =>
    exact ⟨hx.total_eq, hx.total_le⟩
  | stop => exact hx.finish
  | finish _ hp _ => exact (hx.consume hp).finish
  | enter _ hp _ _ _ | tooDeep _ hp _ _ _ | word _ hp _ _ _ =>
    exact ⟨(hx.consume hp).total_eq, hx.total_le⟩
  | splice hp _ hex =>
    obtain ⟨argument, behind, new, rfl, -, -, hle, rfl, rfl⟩ := Parser.expand_eq_ok_iff.mp hex
    refine ⟨?_, hle⟩
    -- The include and its argument are taken off the total, which counts both.
    have htotal := hx.total_eq
    rw [hp] at htotal
    simp only [List.length_cons, List.length_append] at htotal ⊢
    omega
  | @leave b blocks _ _ =>
    have hleft : (x.leaveBlock b blocks).IsAccounted s := ⟨hx.total_eq, hx.total_le⟩
    unfold consumeClose
    split
    · exact hleft
    · next hp =>
      split
      · exact hleft.consume hp
      · exact hleft

/-- The books stay right. -/
theorem Reaches.isAccounted (h : Reaches t s x y) (hx : x.IsAccounted s) : y.IsAccounted s := by
  induction h with
  | refl => exact hx
  | tail _ hstep ih => exact (step_eq_some_iff.mp hstep).isAccounted ih

end Books

/-! ## 2. The length of the expanded stream -/

section Expanding

variable {t : FileTree} {s : Settings} {x y : Descent} {ds : List Directive}

/-- What is read and yet to be read, once all includes are replaced. -/
def expanded (t : FileTree) (s : Settings) (x : Descent) : Option (List Tracked) :=
  Include.expandOnto t s x.consumed x.params.isEmpty x.pending

/-- The tokens behind a token that is read come to the same as from the token on. -/
theorem expanded_of_other {first : Tracked} {rest : List Tracked} (hp : x.pending = first :: rest)
    (hi : (x.params.isEmpty && first.token.isInclude) = false)
    (hy : y.pending = rest) (hc : y.consumed = first :: x.consumed)
    (hn : y.params.isEmpty = Include.startsBehind x.params.isEmpty first.token) :
    y.expanded t s = x.expanded t s := by
  unfold expanded
  rw [hy, hc, hn, hp, Include.expandOnto_of_other hi]

theorem expanded_leave {b : OpenBlock} {blocks : List OpenBlock} (hx : x.IsOrderly s)
    (hl : x.turn = .leave) :
    (x.leaveBlock b blocks).consumeClose.expanded t s = x.expanded t s := by
  obtain ⟨hn, hend⟩ := hx.expects hl
  rcases atBlockEnd_cases hend with hp | ⟨first, rest, hp, hc⟩
  · rw [consumeClose_of_nil (x := x.leaveBlock b blocks) hp]
    rfl
  · rw [consumeClose_of_close (x := x.leaveBlock b blocks) hp hc]
    have hi : first.token.isInclude = false := by
      simp only [Token.closesBlock, beq_iff_eq] at hc
      simp [Token.isInclude, hc]
    exact expanded_of_other hp (by simp [hi]) rfl rfl
      (by simp [Include.startsBehind, leaveBlock, consume, hn, hc])

/-- A step that does not fail leaves the expanded stream as it is. -/
theorem Goes.expanded_eq (h : Goes t s x y) (hx : x.IsOrderly s) (hbooks : x.IsAccounted s)
    (hy : y.turn.fault? = none) : y.expanded t s = x.expanded t s := by
  cases h with
  | goOn | close | back => rfl
  | start hr _ =>
    unfold expanded
    rw [(hx.expects hr).1]
  | stop hr hp =>
    unfold expanded
    rw [finish_pending, finish_consumed, hp, Include.expandOnto_nil, Include.expandOnto_nil]
  | @finish first rest hr hp he =>
    have hi : first.token.isInclude = false := by
      simp only [Token.endsStatement, beq_iff_eq] at he
      simp [Token.isInclude, he]
    exact expanded_of_other hp (by simp [hi]) finish_pending finish_consumed
      (by simp [Include.startsBehind, he])
  | enter hr hp hn ho _ =>
    exact expanded_of_other hp (by simp [hn]) rfl rfl (by simp [Include.startsBehind, ho])
  | @splice first rest pending total hp hi hex =>
    obtain ⟨argument, behind, new, rfl, hm, hnew, hle, rfl, rfl⟩ := Parser.expand_eq_ok_iff.mp hex
    have hreplace : Include.replacement? t s first (argument :: behind) = some (new, behind) :=
      Include.replacement?_eq_some_iff.mpr ⟨argument, rfl, hm, hnew⟩
    have hroom : x.consumed.length + (new ++ behind).length ≤ s.limits.tokens := by
      have htotal := hbooks.total_eq
      rw [hp] at htotal
      simp only [List.length_cons, List.length_append] at htotal ⊢
      omega
    unfold expanded
    rw [hp, hi.2.1, List.isEmpty_nil, Include.expandOnto_of_replacement hi.2.2 hreplace hroom]
  | @word first rest hr hp he ho hfirst =>
    have hi : (x.params.isEmpty && first.token.isInclude) = false := by
      by_cases hn : x.params = []
      · simp [hn, (hfirst hn).2]
      · simp [hn]
    refine expanded_of_other hp hi rfl rfl ?_
    by_cases hn : x.params = []
    · simp [Include.startsBehind, hn, he, ho, (hfirst hn).1]
    · simp [Include.startsBehind, hn, he, ho]
  | leave hl hb => exact expanded_leave hx hl
  | exhausted | nameless | tooDeep | refuse | stray => cases hy
  | unwind hf _ =>
    rw [show Descent.turn _ = _ from hf] at hy
    cases hy

/-- If the outcome is a tree, a run reads the whole expanded stream. -/
theorem expanded_eq_consumed_run (hx : x.IsOrderly s) (hbooks : x.IsAccounted s)
    (h : outcome t s x = .ok ds) :
    x.expanded t s = some (run t s x).consumed.reverse ∧ (run t s x).pending = [] := by
  induction x using run.induct t s with
  | case1 x y hstep ih =>
    have hgoes := step_eq_some_iff.mp hstep
    have hy : outcome t s y = .ok ds := (hgoes.outcome_eq hx).trans h
    have hnone : y.turn.fault? = none := by
      cases hfault : y.turn.fault? with
      | none => rfl
      | some f => simp [outcome, hfault] at hy
    rw [run_of_step hstep, ← hgoes.expanded_eq hx hbooks hnone]
    exact ih (hgoes.isOrderly hx) (hgoes.isAccounted hbooks) hy
  | case2 x hover =>
    cases step_eq_none_iff.mp hover with
    | failed hf _ => simp [outcome_of_fail hf] at h
    | returned _ _ hp =>
      rw [run_of_over hover, expanded, hp, Include.expandOnto_nil]
      exact ⟨rfl, rfl⟩

end Expanding

/-! ## 3. Texts -/

section Texts

variable {t : FileTree} {s : Settings} {x : Descent} {source : String} {tokens : List Token}

/-- The count of a stream never drifts. Let a text be read that has no more tokens than
allowed; any other is refused before it is read. At any time of the reading, behind a
fault too:

* The total is the number of tokens that were read, those of expanded includes apart, and
  of those to be read, and is within its limit.
* Where an include is replaced, the two tokens that are taken off the total are in it. If
  either the stream, with what was read of it, or the limit is below `2 ^ 63`, and so is
  the number of imported tokens, the new total is below `2 ^ 64`.
* An include that cannot be replaced leaves the stream and the total as they are.
* The counter is the number of open blocks, and is within its limit. Whenever as many
  blocks are open it is the same, and every block that is entered returns to where it was
  entered, if only by a fault.

The reading comes to an end, where the counter is zero, with the result of the text. If
that is a tree, nothing is left to be read, and the total is the length of the expanded
stream. All that a parser reaches is passed on the way. -/
theorem stream_accounting (t : FileTree) (s : Settings) (source : String) (tokens : List Token)
    (h : tokens.length ≤ s.limits.tokens) :
    (∀ x, Reaches t s (ofTokens t source tokens) x →
      (x.total = x.consumed.length + x.pending.length ∧ x.pending.length ≤ x.total ∧
        x.total ≤ s.limits.tokens) ∧
      (∀ first argument behind new, x.pending = first :: argument :: behind →
        Include.importTokens t s argument.token.text first.trail = .ok new →
        2 ≤ x.total ∧
          ((x.consumed ++ x.pending).length < 2 ^ 63 ∨ s.limits.tokens < 2 ^ 63 →
            new.length < 2 ^ 63 → x.total - 2 + new.length < 2 ^ 64)) ∧
      (∀ place trail f c,
        (Cursor.expandInclude t s place trail).run x.cursor = .error f c → c = x.cursor) ∧
      (x.depth = x.blocks.length ∧ x.depth ≤ s.limits.blockDepth) ∧
      (∀ y, Reaches t s x y → y.blocks.length = x.blocks.length → y.depth = x.depth) ∧
      ∀ b y, step t s x = some y → y.blocks = b :: x.blocks →
        ∃ z, Reaches t s y z ∧ z.blocks = x.blocks ∧ z.depth = x.depth) ∧
    (∃ x, Reaches t s (ofTokens t source tokens) x ∧ step t s x = none ∧
      parseFrom t s source tokens = x.answer ∧ x.depth = 0 ∧
      ∀ ds, x.answer = .ok ds → x.pending = [] ∧
        ∃ flat, Include.expand t s (Parser.ofTokens t source tokens).pending = some flat ∧
          x.total = flat.length) ∧
    ∀ q, Parser.Reaches t s (Parser.ofTokens t source tokens) q →
      ∃ x, Reaches t s (ofTokens t source tokens) x ∧ x.toParser = q := by
  have hstart : (ofTokens t source tokens).IsAccounted s := isAccounted_ofTokens h
  have hfirst : (ofTokens t source tokens).IsOrderly s := isOrderly_ofTokens
  refine ⟨fun x hx => ?_, ?_, fun q hq => ?_⟩
  · have hbooks := hx.isAccounted hstart
    have horder := hx.isOrderly hfirst
    have hback : ∀ y, Reaches t s x y → y.blocks.length = x.blocks.length → y.depth = x.depth :=
      fun y hy hblocks => by
        rw [(hy.isOrderly horder).depth_eq, hblocks, horder.depth_eq]
    refine ⟨⟨hbooks.total_eq, ?_, hbooks.total_le⟩, fun first argument behind new hp hnew => ?_,
      fun place trail f c => Cursor.eq_of_expandInclude_eq_error,
      ⟨horder.depth_eq, horder.depth_le⟩, hback, fun b y hstep hblocks => ?_⟩
    · rw [hbooks.total_eq]
      exact Nat.le_add_left _ _
    · have htotal := hbooks.total_eq
      have hle := hbooks.total_le
      rw [List.length_append, ← htotal]
      rw [hp, List.length_cons, List.length_cons] at htotal
      exact ⟨by omega, fun hshort hnew => by omega⟩
    · have hentered : y.blocks = [] ++ b :: x.blocks := hblocks
      obtain ⟨z, hz, hreturned⟩ := exists_returned hentered
      exact ⟨z, hz, hreturned, hback z (hz.head hstep) (congrArg List.length hreturned)⟩
  · have hreach := reaches_run t s (ofTokens t source tokens)
    have hbooks := hreach.isAccounted hstart
    have hover := isOver_run t s (ofTokens t source tokens)
    have hanswer : parseFrom t s source tokens = (run t s (ofTokens t source tokens)).answer := by
      rw [parseFrom, if_neg (Nat.not_lt.mpr h)]
    refine ⟨_, hreach, step_of_isOver hover, hanswer, ?_, fun ds hds => ?_⟩
    · rw [(hreach.isOrderly hfirst).depth_eq, hover.blocks_eq, List.length_nil]
    · rw [answer_run hfirst] at hds
      obtain ⟨hexpand, hp⟩ := expanded_eq_consumed_run hfirst hstart hds
      refine ⟨hp, (run t s (ofTokens t source tokens)).consumed.reverse, ?_, ?_⟩
      · rw [Include.expand, if_neg (by simpa using h)]
        exact hexpand
      · rw [hbooks.total_eq, hp, List.length_reverse]
        rfl
  · obtain ⟨x, hx, hq, -⟩ := exists_of_reaches hq
    exact ⟨x, hx, hq⟩

open IsParsed (openFile openText openTree importTokens_openFile parseTokens_openText)

theorem expand_openText :
    (Include.expand openFile rootSettings
      (Parser.ofTokens openFile "top" openText).pending).map List.length = some 3 := by
  let word (text : String) : Tracked := ⟨⟨"top", 1, text⟩, .ofSource openFile ⟨"top"⟩⟩
  have hnew := importTokens_openFile (word "include").trail (by cbv) (by decide)
  have hreplace : Include.replacement? openFile rootSettings (word "include")
      [word "o", word "y"] = some (_, [word "y"]) :=
    Include.replacement?_eq_some_iff.mpr ⟨word "o", rfl, rfl, hnew⟩
  have hexpand : Include.expandOnto openFile rootSettings [] true
      (Parser.ofTokens openFile "top" openText).pending = _ :=
    Include.expandOnto_of_replacement rfl hreplace (by decide)
  rw [Include.expand, if_neg (by decide), hexpand, ← List.append_nil (_ ++ _),
    Include.expandOnto_of_isFlat rfl, Include.expandOnto_nil]
  rfl

/-- A text whose include opens a block and that breaks off there: three tokens are read,
the block returns at the end of the stream, and the books are right. -/
theorem stream_accounting_openText :
    openText.length ≤ rootSettings.limits.tokens ∧
      ∃ x, Reaches openFile rootSettings (ofTokens openFile "top" openText) x ∧
        x.answer = .ok openTree ∧ x.pending = [] ∧ x.depth = 0 ∧
          x.total = 3 ∧ x.consumed.length = 3 := by
  have hle : openText.length ≤ rootSettings.limits.tokens := by decide
  obtain ⟨hbooks, ⟨x, hx, -, hparse, hdepth, hok⟩, -⟩ :=
    stream_accounting openFile rootSettings "top" openText hle
  have hanswer : x.answer = .ok openTree := hparse ▸ parseTokens_openText
  obtain ⟨hp, flat, hflat, htotal⟩ := hok _ hanswer
  have hlength := expand_openText
  rw [hflat, Option.map_some, Option.some.injEq] at hlength
  have hthree : x.total = 3 := htotal.trans hlength
  obtain ⟨⟨hsum, -⟩, -⟩ := hbooks x hx
  rw [hp, List.length_nil, hthree] at hsum
  exact ⟨hle, x, hx, hanswer, hp, hdepth, hthree, hsum.symm⟩

end Texts

end Descent

end ConfTree
