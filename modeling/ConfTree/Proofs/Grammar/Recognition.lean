import ConfTree.Grammar
import ConfTree.Proofs.Directive.Height
import ConfTree.Proofs.Grammar.Level

/-!
# A parser recognizes the grammar

On a text without includes a parser finds the directives that the grammar gives
the text, and no others.

1. `Items.append`, `Items.append_cut`: texts one behind the other.
2. `Holds`, `Builds`: what a parser has built, as grammar of the tokens it has
   taken. `Builds.takesAll`: taking tokens keeps to the grammar.
   `Builds.cut`: where a parser stops, its result fits all it has taken.
3. `Items.takesAll`, `Cut.takesAll`: a parser takes every text of the grammar.
4. `Cut.unique`: the grammar gives a text one list of directives only.
5. `parseTokens_recognizes`: the three together, with the place of the fault if
   the grammar gives the text no directives.
-/

namespace ConfTree.Grammar

open Directive (heightAll heightAll_append)
open ConfTree.Parser (TakesAll Takes)

/-! ## 1. Texts one behind the other -/

theorem Items.append {ts us : List Token} {ds es : List Directive} (h : Items ts ds)
    (h' : Items us es) : Items (ts ++ us) (ds ++ es) := by
  induction h with
  | nil => exact h'
  | blank hmark _ ih => exact .blank hmark ih
  | simple hhead hmark _ ih =>
    simpa using Items.simple hhead hmark ih
  | block hhead ho hinner hc _ _ ih =>
    simpa using Items.block hhead ho hinner hc ih

theorem Items.append_cut {ts us : List Token} {ds es : List Directive} (h : Items ts ds)
    (h' : Cut us es) : Cut (ts ++ us) (ds ++ es) := by
  cases h' with
  | items h' => exact .items (h.append h')
  | simple h' hhead =>
    rw [← List.append_assoc, ← List.append_assoc]
    exact .simple (h.append h') hhead
  | block h' hhead ho hinner =>
    have hcut := Cut.block (h.append h') hhead ho hinner
    simpa using hcut

theorem Items.single_simple {first mark : Token} {args : List Token} (hhead : IsHead first args)
    (hmark : mark.endsStatement = true) :
    Items (first :: args ++ [mark]) [.simple (head first args)] :=
  .simple hhead hmark .nil

/-! ## 2. What a parser has built -/

/-- `Holds read blocks done`: the tokens `read` open the blocks `blocks` and give
the directives `done` in the innermost of them; of both the last comes first.

* `top`: no block is open.
* `inner`: a block is open in what the tokens in front of it give. -/
inductive Holds : List Token → List OpenBlock → List Directive → Prop
  | top {read : List Token} {done : List Directive} : Items read done.reverse → Holds read [] done
  | inner {read args inner : List Token} {first opening : Token} {blocks : List OpenBlock}
      {before done : List Directive} :
      Holds read blocks before → IsHead first args → opening.opensBlock = true →
      Items inner done.reverse →
      Holds (read ++ (first :: args ++ opening :: inner)) (⟨head first args, before⟩ :: blocks)
        done

/-- `Builds read p`: what `p` has built stands for the tokens `read`.

* `between`: a statement may start.
* `inside`: the last tokens are the words of a statement. -/
inductive Builds : List Token → Parser → Prop
  | between {read : List Token} {p : Parser} : p.draft = none → Holds read p.blocks p.done →
      Builds read p
  | inside {read args : List Token} {first : Token} {p : Parser} :
      p.draft = some { first, words := (args.map Token.text).reverse } →
      Holds read p.blocks p.done → IsHead first args → Builds (read ++ first :: args) p

namespace Holds

variable {read ts : List Token} {blocks : List OpenBlock} {done ds : List Directive}

/-- More directives may follow in the innermost block. -/
theorem append (h : Holds read blocks done) (h' : Items ts ds) :
    Holds (read ++ ts) blocks (ds.reverse ++ done) := by
  cases h with
  | top h => exact .top (by simpa using h.append h')
  | @inner _ _ inner _ _ _ _ _ hout hhead ho h =>
    have hall : Items (inner ++ ts) (ds.reverse ++ done).reverse := by simpa using h.append h'
    simpa using Holds.inner hout hhead ho hall

/-- If the text may break off behind `ts`, all blocks are closed there. -/
theorem close_cut (h : Holds read blocks done) (h' : Cut ts ds) :
    Cut (read ++ ts) (Parser.close blocks (ds.reverse ++ done)) := by
  induction h generalizing ts ds with
  | top h => simpa [Parser.close] using h.append_cut h'
  | inner _ hhead ho h ih =>
    have hbody := Cut.block .nil hhead ho (h.append_cut h')
    simpa [Parser.close] using ih hbody

end Holds

theorem draft_finish {first : Token} {args : List Token} :
    Draft.finish { first, words := (args.map Token.text).reverse } = head first args := by
  simp [Draft.finish, head]

namespace Builds

variable {maxDepth : Nat} {token : Token} {tokens read : List Token} {p q : Parser}

/-- Taking a token keeps to the grammar. -/
theorem takes (h : Takes maxDepth token p q) (hb : Builds read p) :
    Builds (read ++ [token]) q := by
  cases hb with
  | between hd hh =>
    cases h with
    | blank _ he => exact .between hd (hh.append (.blank he .nil))
    | leave _ hc hbl =>
      -- The block that ends here becomes an item of the block around it.
      rw [hbl] at hh
      cases hh with
      | inner hout hhead ho hinner =>
        have hblock := Items.block hhead ho hinner hc .nil
        refine .between hd ?_
        simpa using hout.append hblock
    | start _ hm _ =>
      have hhead : IsHead token [] := ⟨hm, by simp⟩
      exact .inside rfl hh hhead
    | finish hd' _ | enter hd' _ _ | word hd' _ _ => simp [hd] at hd'
  | @inside read args first _ hd hh hhead =>
    cases h with
    | blank hd' _ | leave hd' _ _ | start hd' _ _ => simp [hd] at hd'
    | finish hd' he =>
      rw [hd] at hd'
      cases hd'
      refine .between rfl ?_
      rw [draft_finish, List.append_assoc]
      exact hh.append (Items.single_simple hhead he)
    | enter hd' ho _ =>
      rw [hd] at hd'
      cases hd'
      refine .between rfl ?_
      rw [draft_finish, List.append_assoc]
      exact .inner hh hhead ho .nil
    | word hd' he ho =>
      rw [hd] at hd'
      cases hd'
      have hmore : IsHead first (args ++ [token]) := by
        refine ⟨hhead.first_isMark, fun a ha => ?_⟩
        rcases List.mem_append.mp ha with ha | ha
        · exact hhead.args_plain a ha
        · rw [List.mem_singleton.mp ha]
          exact ⟨he, ho⟩
      rw [List.append_assoc, List.cons_append]
      exact .inside (by simp) hh hmore

theorem takesAll (h : TakesAll maxDepth tokens p q) (hb : Builds read p) :
    Builds (read ++ tokens) q := by
  induction h generalizing read with
  | nil => simpa using hb
  | cons ht _ ih => simpa using ih (takes ht hb)

/-- Where a parser stops, its result is one that the grammar gives the tokens it
has taken. -/
theorem cut (hb : Builds read p) : Cut read p.result := by
  cases hb with
  | between hd hh =>
    have hcut := hh.close_cut (.items .nil)
    simpa [Parser.result, hd] using hcut
  | inside hd hh hhead =>
    have hcut := hh.close_cut (.simple .nil hhead)
    simpa [Parser.result, hd, draft_finish] using hcut

end Builds

/-! ## 3. Texts of the grammar are taken -/

/-- The words of a statement are taken one by one. -/
theorem IsHead.takesAll {maxDepth : Nat} {first : Token} {args : List Token} {p : Parser}
    (hhead : IsHead first args) (hinc : first.isInclude = false) (hd : p.draft = none) :
    TakesAll maxDepth (first :: args) p
      { p with draft := some { first, words := (args.map Token.text).reverse } } := by
  have hwords : ∀ (words : List String) (rest : List Token),
      (∀ a ∈ rest, a.endsStatement = false ∧ a.opensBlock = false) →
      TakesAll maxDepth rest { p with draft := some { first, words } }
        { p with draft := some { first, words := (rest.map Token.text).reverse ++ words } } := by
    intro words rest hplain
    induction rest generalizing words with
    | nil => exact .nil
    | cons a rest ih =>
      obtain ⟨he, ho⟩ := hplain a (by simp)
      refine .cons (.word rfl he ho) ?_
      simpa using ih (a.text :: words) fun b hb => hplain b (by simp [hb])
  refine .cons (.start hd hhead.first_isMark hinc) ?_
  simpa using hwords [] args hhead.args_plain

/-- A statement by itself is taken. -/
theorem IsHead.takesAll_finish {maxDepth : Nat} {first mark : Token} {args : List Token}
    {p : Parser} (hhead : IsHead first args) (hinc : first.isInclude = false)
    (hmark : mark.endsStatement = true) (hd : p.draft = none) :
    TakesAll maxDepth (first :: args ++ [mark]) p
      { p with done := .simple (head first args) :: p.done, draft := none } := by
  have hwords : TakesAll maxDepth (first :: args) p _ := hhead.takesAll hinc hd
  rw [← draft_finish]
  exact hwords.append (.cons (.finish rfl hmark) .nil)

/-- A statement that opens a block is taken. -/
theorem IsHead.takesAll_enter {maxDepth : Nat} {first opening : Token} {args : List Token}
    {p : Parser} (hhead : IsHead first args) (hinc : first.isInclude = false)
    (ho : opening.opensBlock = true) (hd : p.draft = none) (hlt : p.blocks.length < maxDepth) :
    TakesAll maxDepth (first :: args ++ [opening]) p
      { p with blocks := ⟨head first args, p.done⟩ :: p.blocks, done := [], draft := none } := by
  have hwords : TakesAll maxDepth (first :: args) p _ := hhead.takesAll hinc hd
  rw [← draft_finish]
  exact hwords.append (.cons (.enter rfl ho hlt) .nil)

/-- A block is closed around the directives of its body. -/
theorem takes_leave {maxDepth : Nat} {closing : Token} {p : Parser} {b : OpenBlock}
    {blocks : List OpenBlock} {body : List Directive} (hd : p.draft = none)
    (hc : closing.closesBlock = true) (hb : p.blocks = b :: blocks)
    (hdone : p.done = body.reverse) :
    Takes maxDepth closing p { p with blocks, done := .block b.head body :: b.before } := by
  have htake : Takes maxDepth closing p _ := .leave hd hc hb
  rwa [hdone, List.reverse_reverse] at htake

/-- The first word of a flat text is no include. -/
theorem isInclude_of_isFlat {first : Token} {rest : List Token} {p : Parser}
    (hd : p.draft = none) (h : Include.isFlat p.draft.isNone (first :: rest) = true) :
    first.isInclude = false := by
  have hfirst := (Include.isFlat_cons.mp h).1
  simpa [hd] using hfirst

/-- A complete text is taken, and gives the directives that the grammar gives. -/
theorem Items.takesAll {maxDepth : Nat} {ts : List Token} {ds : List Directive}
    (h : Items ts ds) {p : Parser} (hd : p.draft = none)
    (hflat : Include.isFlat p.draft.isNone ts = true)
    (hdepth : p.blocks.length + heightAll ds ≤ maxDepth) :
    TakesAll maxDepth ts p { p with done := ds.reverse ++ p.done } := by
  induction h generalizing p with
  | nil => exact .nil
  | blank hmark _ ih =>
    have htake : TakesAll maxDepth [_] p p := .cons (.blank hd hmark) .nil
    exact htake.append (ih hd (htake.isFlat_behind hflat) hdepth)
  | @simple first mark args ts ds hhead hmark _ ih =>
    rw [List.append_cons] at hflat ⊢
    have hfront : TakesAll maxDepth (first :: args ++ [mark]) p _ :=
      hhead.takesAll_finish (isInclude_of_isFlat hd hflat) hmark hd
    have hrest : p.blocks.length + heightAll ds ≤ maxDepth := by
      simp only [heightAll] at hdepth
      omega
    have hbehind := hfront.append (ih rfl (hfront.isFlat_behind hflat) hrest)
    simpa [hd] using hbehind
  | @block first opening closing args inner ts body ds hhead ho _ hc _ ihInner ih =>
    simp only [heightAll, Directive.height] at hdepth
    have hlt : p.blocks.length < maxDepth := by omega
    rw [List.append_cons (first :: args), List.append_assoc] at hflat ⊢
    have hfront : TakesAll maxDepth (first :: args ++ [opening]) p _ :=
      hhead.takesAll_enter (isInclude_of_isFlat hd hflat) ho hd hlt
    -- The tokens up to the closing brace are taken inside the new block.
    have hinside := hfront.isFlat_behind hflat
    have hdeep : p.blocks.length + 1 + heightAll body ≤ maxDepth := by omega
    have hbody := hfront.append (ihInner rfl (Include.isFlat_append.mp hinside).1 hdeep)
    have hblock := hbody.append (.cons (takes_leave rfl hc rfl (List.append_nil _)) .nil)
    rw [List.append_cons inner, ← List.append_assoc, ← List.append_assoc] at hflat ⊢
    have hrest : p.blocks.length + heightAll ds ≤ maxDepth := by omega
    have hbehind := hblock.append (ih rfl (hblock.isFlat_behind hflat) hrest)
    simpa [hd] using hbehind

/-- A text that may break off is taken too; with all blocks closed behind it, it
gives the directives that the grammar gives. -/
theorem Cut.takesAll {maxDepth : Nat} {ts : List Token} {ds : List Directive} (h : Cut ts ds)
    {p : Parser} (hd : p.draft = none) (hflat : Include.isFlat p.draft.isNone ts = true)
    (hdepth : p.blocks.length + heightAll ds ≤ maxDepth) :
    ∃ q, TakesAll maxDepth ts p q ∧ q.result = Parser.close p.blocks (ds.reverse ++ p.done) := by
  induction h generalizing p with
  | items h => exact ⟨_, h.takesAll hd hflat hdepth, by simp [Parser.result, hd]⟩
  | simple h hhead =>
    rw [heightAll_append] at hdepth
    have hfront : TakesAll maxDepth _ p _ :=
      h.takesAll hd (Include.isFlat_append.mp hflat).1 (by omega)
    have hinc := isInclude_of_isFlat hd (hfront.isFlat_behind hflat)
    refine ⟨_, hfront.append (hhead.takesAll hinc hd), ?_⟩
    simp [Parser.result, draft_finish]
  | @block first opening args inner ts body ds h hhead ho _ ih =>
    simp only [heightAll_append, heightAll, Directive.height] at hdepth
    have hshape : ts ++ first :: args ++ opening :: inner =
        ts ++ (first :: args ++ [opening] ++ inner) := by simp
    rw [hshape] at hflat ⊢
    have hitems : TakesAll maxDepth ts p _ :=
      h.takesAll hd (Include.isFlat_append.mp hflat).1 (by omega)
    have hstart := hitems.isFlat_behind hflat
    have hlt : p.blocks.length < maxDepth := by omega
    have henter : TakesAll maxDepth (first :: args ++ [opening])
        { p with done := ds.reverse ++ p.done } _ :=
      hhead.takesAll_enter (isInclude_of_isFlat hd hstart) ho hd hlt
    have hdeep : p.blocks.length + 1 + heightAll body ≤ maxDepth := by omega
    obtain ⟨q, hq, hresult⟩ := ih rfl (henter.isFlat_behind hstart) hdeep
    refine ⟨q, hitems.append (henter.append hq), ?_⟩
    simpa [Parser.close] using hresult

/-! ## 4. One list of directives only -/

/-- A parser with room for the blocks takes the whole text, and has the directives
that the grammar gives it. -/
theorem Cut.takesAll_ofTokens {maxDepth : Nat} {ts : List Token} {ds : List Directive}
    (h : Cut ts ds) (t : FileTree) (source : String) (hflat : Include.isFlat true ts = true)
    (hdepth : heightAll ds ≤ maxDepth) :
    ∃ q, TakesAll maxDepth ts (Parser.ofTokens t source ts) q ∧ q.result = ds := by
  obtain ⟨q, hq, hresult⟩ := h.takesAll (p := Parser.ofTokens t source ts) rfl hflat
    (by simpa using hdepth)
  refine ⟨q, hq, ?_⟩
  rw [hresult]
  simp [Parser.close, Parser.ofTokens]

/-- The grammar gives a text without includes at most one list of directives. -/
theorem Cut.unique {ts : List Token} {ds es : List Directive}
    (hflat : Include.isFlat true ts = true) (h : Cut ts ds) (h' : Cut ts es) : ds = es := by
  -- One parser, with room for the blocks of both, finds both.
  let s : Settings := { limits := { blockDepth := max (heightAll ds) (heightAll es) } }
  let p := Parser.ofTokens .empty s.sourceName ts
  have hp : p.pending.map Tracked.token = ts := Parser.map_pending_ofTokens ..
  have hfinds : ∀ {fs}, Cut ts fs → heightAll fs ≤ s.limits.blockDepth →
      Parser.run .empty s p = .ok fs := by
    intro fs hfs hdepth
    obtain ⟨q, hq, rfl⟩ := hfs.takesAll_ofTokens .empty s.sourceName hflat hdepth
    exact Parser.run_of_takesAll (hp.symm ▸ hq)
  have hds := hfinds h (Nat.le_max_left _ _)
  rw [hfinds h' (Nat.le_max_right _ _)] at hds
  exact (Except.ok.inj hds).symm

/-! ## 5. Recognition -/

section Recognition

variable {t : FileTree} {s : Settings} {ts : List Token}

/-- A text without includes that keeps the limits is read as directives that the
grammar gives it, or refused at its first misplaced token. -/
theorem cut_or_misplaced (hflat : Include.isFlat true ts = true)
    (htokens : ts.length ≤ s.limits.tokens)
    (hblocks : Level.deepest {} ts ≤ s.limits.blockDepth) :
    (∃ ds, Cut ts ds ∧ parseTokens t s ts = .ok ds) ∨
      ∃ front token behind f, ts = front ++ token :: behind ∧
        Level.admits {} front = true ∧ (Level.behindAll {} front).excludes token = true ∧
        parseTokens t s ts = .error f ∧ f.kind = .grammar ∧ f.place = token.place := by
  rw [parseTokens_eq_run htokens]
  let p := Parser.ofTokens t s.sourceName ts
  have hp : p.pending.map Tracked.token = ts := Parser.map_pending_ofTokens ..
  rcases Parser.takesAll_or_refused s.limits.blockDepth (p := p) hflat with
    ⟨q, hq⟩ | ⟨front, token, behind, q, f, rfl, hq, hf⟩
  · have hbuilds : Builds [] p := .between rfl (.top .nil)
    exact .inl ⟨q.result, (hbuilds.takesAll hq).cut, Parser.run_of_takesAll (hp.symm ▸ hq)⟩
  · obtain ⟨hex, hkind, hplace⟩ := Parser.excludes_of_refuses hq hf hblocks
    exact .inr ⟨front, token, behind, f, rfl, hq.admits, hex,
      Parser.run_of_takesAll_refuses hp hq hf, hkind, hplace⟩

/-- A text of the grammar that keeps the limits is read. -/
theorem Cut.parseTokens_eq {ds : List Directive} (h : Cut ts ds)
    (hflat : Include.isFlat true ts = true) (htokens : ts.length ≤ s.limits.tokens)
    (hblocks : Level.deepest {} ts ≤ s.limits.blockDepth) : parseTokens t s ts = .ok ds := by
  rw [parseTokens_eq_run htokens]
  obtain ⟨q, hq, rfl⟩ := h.takesAll_ofTokens t s.sourceName hflat (Nat.le_refl _)
  exact Parser.run_of_takesAll (by simpa using hq.of_deepest hblocks)

/-- A text without includes that keeps the limits is read as the directives that
the grammar gives it, which are determined by the text. If the grammar gives it
none, it is refused at the first token that is misplaced: a `{` where a statement
starts, or a `}` where a statement starts and no block is open. -/
theorem parseTokens_recognizes (hflat : Include.isFlat true ts = true)
    (htokens : ts.length ≤ s.limits.tokens)
    (hblocks : Level.deepest {} ts ≤ s.limits.blockDepth) :
    (∀ ds, parseTokens t s ts = .ok ds ↔ Cut ts ds) ∧
      (∀ ds es, Cut ts ds → Cut ts es → ds = es) ∧
      ((¬ ∃ ds, Cut ts ds) →
        ∃ front token behind f, ts = front ++ token :: behind ∧
          Level.admits {} front = true ∧ (Level.behindAll {} front).excludes token = true ∧
          parseTokens t s ts = .error f ∧ f.kind = .grammar ∧ f.place = token.place) := by
  refine ⟨fun ds => ⟨fun h => ?_, fun h => h.parseTokens_eq hflat htokens hblocks⟩,
    fun ds es h h' => h.unique hflat h', fun hnone => ?_⟩
  · rcases cut_or_misplaced (t := t) hflat htokens hblocks with
      ⟨es, hcut, hread⟩ | ⟨_, _, _, f, _, _, _, hread, _, _⟩
    · rw [hread] at h
      cases h
      exact hcut
    · rw [hread] at h
      cases h
  · rcases cut_or_misplaced (t := t) hflat htokens hblocks with ⟨ds, hcut, _⟩ | hmisplaced
    · exact absurd ⟨ds, hcut⟩ hnone
    · exact hmisplaced

/-- A text with a `}` and an `include` inside statements, which breaks off in a
block. -/
def brokenText : List Token :=
  ["a", "\x7d", "\x7b", "b", "include", ";", "c"].map fun text =>
    { file := "conf", line := 1, text }

/-- The directives of this text are those that the grammar gives it. -/
theorem parseTokens_brokenText :
    Include.isFlat true brokenText = true ∧ brokenText.length ≤ ({} : Settings).limits.tokens ∧
      Level.deepest {} brokenText ≤ ({} : Settings).limits.blockDepth ∧
      ∀ ds, parseTokens .empty {} brokenText = .ok ds ↔ Cut brokenText ds := by
  have hflat : Include.isFlat true brokenText = true := by decide
  have htokens : brokenText.length ≤ ({} : Settings).limits.tokens := by decide
  have hblocks : Level.deepest {} brokenText ≤ ({} : Settings).limits.blockDepth := by decide
  exact ⟨hflat, htokens, hblocks, (parseTokens_recognizes hflat htokens hblocks).1⟩

end Recognition

end ConfTree.Grammar
