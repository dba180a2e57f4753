import ConfTree.Proofs.Directive.Normal
import ConfTree.Proofs.Include.Modularity
import ConfTree.Proofs.Parser.Limits

/-!
# Trees that are read are in normal form

Whatever a parser has built at any time is in normal form: a token becomes the
first word of a statement only where it means nothing else, and so do the others.
A tree that is read is therefore read once more from its own tokens.

1. `IsNormal`, `isNormal_of_reaches`: what a parser has built.
   `everywhereAll_of_parseFrom`: what it returns.
2. `heightAll_le_of_parseFrom`: a tree that is read keeps the limit on blocks.
3. `IsParsed.isNormal_and_reread`: however a tree is read, it is in normal form and
   is read again from its own tokens.
-/

namespace ConfTree

open Directive (Everywhere EverywhereAll everywhereAll_reverse heightAll outline tokensAll)

/-! ## 1. What a parser has built -/

/-- A word behind the others keeps a statement in normal form, unless it ends the
statement or opens its block. -/
theorem Statement.IsNormal.push {name word : String} {args : List String} {file : String}
    {line : Nat} (h : Statement.IsNormal ⟨name :: args, file, line⟩)
    (hword : word ≠ ";" ∧ word ≠ "\x7b") :
    Statement.IsNormal ⟨name :: (args ++ [word]), file, line⟩ where
  named := List.cons_ne_nil _ _
  name_ne := h.name_ne
  args_ne arg harg := by
    rcases List.mem_append.mp harg with harg | harg
    · exact h.args_ne arg harg
    · rw [List.mem_singleton.mp harg]
      exact hword

namespace Parser

/-- All that the parser has built is in normal form.

* `done`: the directives of the innermost open block.
* `blocks`: the statements in front of open blocks, and the directives in front of
  these.
* `draft`: the statement that is not finished, as it stands. -/
structure IsNormal (p : Parser) : Prop where
  done : EverywhereAll Statement.IsNormal p.done
  blocks : ∀ b ∈ p.blocks, b.head.IsNormal ∧ EverywhereAll Statement.IsNormal b.before
  draft : ∀ d, p.draft = some d → d.finish.IsNormal

section Normal

variable {t : FileTree} {s : Settings} {p q : Parser} {maxDepth : Nat} {token : Token}
  {ds : List Directive}

/-- A word that starts a statement is a statement in normal form by itself. -/
theorem isNormal_finish_first (hm : token.isMark = false) (hinc : token.isInclude = false) :
    (Draft.finish { first := token }).IsNormal where
  named := List.cons_ne_nil _ _
  name_ne name hname := by
    cases hname
    simpa [Token.isMark, Token.isInclude, Token.endsStatement, Token.opensBlock,
      Token.closesBlock, and_assoc] using And.intro hm hinc
  args_ne _ harg := absurd harg List.not_mem_nil

/-- Taking a token keeps to normal form. -/
theorem Takes.isNormal (h : Takes maxDepth token p q) (hp : p.IsNormal) : q.IsNormal := by
  cases h with
  | blank => exact hp
  | leave _ _ hb =>
    obtain ⟨⟨hhead, hbefore⟩, hblocks⟩ := List.forall_mem_cons.mp (hb ▸ hp.blocks)
    exact ⟨⟨⟨hhead, everywhereAll_reverse.mpr hp.done⟩, hbefore⟩, hblocks, hp.draft⟩
  | start _ hm hinc =>
    refine ⟨hp.done, hp.blocks, fun d hd => ?_⟩
    cases hd
    exact isNormal_finish_first hm hinc
  | finish hd _ => exact ⟨⟨hp.draft _ hd, hp.done⟩, hp.blocks, fun _ hnone => nomatch hnone⟩
  | enter hd _ _ =>
    exact ⟨trivial, List.forall_mem_cons.mpr ⟨⟨hp.draft _ hd, hp.done⟩, hp.blocks⟩,
      fun _ hnone => nomatch hnone⟩
  | @word draft hd he ho =>
    refine ⟨hp.done, hp.blocks, fun d hsome => ?_⟩
    cases hsome
    have hword : token.text ≠ ";" ∧ token.text ≠ "\x7b" := by
      simpa [Token.endsStatement, Token.opensBlock] using And.intro he ho
    have hmore := (hp.draft draft hd).push hword
    rw [Draft.finish, List.reverse_cons]
    exact hmore

/-- An include leaves what is built as it is. -/
theorem Move.isNormal (h : Move t s p q) (hp : p.IsNormal) : q.IsNormal := by
  cases h with
  | take _ ht => exact ⟨(ht.isNormal hp).done, (ht.isNormal hp).blocks, (ht.isNormal hp).draft⟩
  | splice => exact ⟨hp.done, hp.blocks, hp.draft⟩

theorem isNormal_of_reaches {source : String} {tokens : List Token}
    (h : Reaches t s (ofTokens t source tokens) q) : q.IsNormal := by
  refine reaches_induction (motive := IsNormal) ?_ (fun _ _ hq hmove => hmove.isNormal hq) h
  exact ⟨trivial, fun _ hb => absurd hb List.not_mem_nil, fun _ hnone => nomatch hnone⟩

/-- Closing blocks keeps to normal form. -/
theorem everywhereAll_close {P : Statement → Prop} {blocks : List OpenBlock}
    (hblocks : ∀ b ∈ blocks, P b.head ∧ EverywhereAll P b.before) (hds : EverywhereAll P ds) :
    EverywhereAll P (close blocks ds) := by
  induction blocks generalizing ds with
  | nil => exact everywhereAll_reverse.mpr hds
  | cons b blocks ih =>
    obtain ⟨⟨hhead, hbefore⟩, hrest⟩ := List.forall_mem_cons.mp hblocks
    exact ih hrest ⟨⟨hhead, everywhereAll_reverse.mpr hds⟩, hbefore⟩

/-- Wherever the stream ends, the result is in normal form. -/
theorem IsNormal.result (h : p.IsNormal) : EverywhereAll Statement.IsNormal p.result := by
  unfold Parser.result
  split
  · exact everywhereAll_close h.blocks h.done
  · next draft hd => exact everywhereAll_close h.blocks ⟨h.draft draft hd, h.done⟩

theorem everywhereAll_of_parseFrom {source : String} {tokens : List Token}
    (h : parseFrom t s source tokens = .ok ds) : EverywhereAll Statement.IsNormal ds := by
  obtain ⟨q, hq, _, rfl⟩ := run_eq_ok_iff.mp (run_of_parseFrom h)
  exact (isNormal_of_reaches hq).result

/-! ## 2. The height of a tree that is read -/

/-- The blocks of a tree that is read, empty ones too, are no deeper than allowed. -/
theorem heightAll_le_of_parseFrom {source : String} {tokens : List Token}
    (h : parseFrom t s source tokens = .ok ds) : heightAll ds ≤ s.limits.blockDepth := by
  have hwithin : (usage t s (ofTokens t source tokens)).Within s.limits :=
    (limited_parseFrom h).eq_ok_iff.mp h
  calc
    heightAll ds = max (heightAll []) (usage t s (ofTokens t source tokens)).blockDepth :=
      heightAll_of_run (run_of_parseFrom h)
    _ = (usage t s (ofTokens t source tokens)).blockDepth := Nat.zero_max _
    _ ≤ s.limits.blockDepth := hwithin.2.1

end Normal

end Parser

/-! ## 3. However a tree is read -/

/-- The directives are read in some way: from the bytes of a text, from a file of the
tree, or from tokens. -/
inductive IsParsed (t : FileTree) (s : Settings) (ds : List Directive) : Prop
  | text {bytes : List UInt8} : parse t s bytes = .ok ds → IsParsed t s ds
  | file {p : Path} : parseFile t s p = .ok ds → IsParsed t s ds
  | tokens {tokens : List Token} : parseTokens t s tokens = .ok ds → IsParsed t s ds

namespace IsParsed

variable {t : FileTree} {s : Settings} {ds : List Directive}

theorem exists_parseFrom (h : IsParsed t s ds) :
    ∃ source tokens, parseFrom t s source tokens = .ok ds := by
  cases h with
  | text h => exact ⟨_, _, parseFrom_of_parse h⟩
  | file h =>
    obtain ⟨tokens, _, h⟩ := bind_eq_ok_iff.mp h
    exact ⟨_, tokens, h⟩
  | tokens h => exact ⟨_, _, h⟩

/-- However a tree is read, and whatever its includes are and wherever its text breaks
off, all its statements are in normal form. Its own tokens, each at the place of its
statement, are read as the same tree with all its places, in every file tree, under
the same limit on blocks and any limit on tokens that leaves room for them. -/
theorem isNormal_and_reread (h : IsParsed t s ds) :
    (∀ x ∈ outline ds, x.2.head.IsNormal) ∧
      ∀ (t' : FileTree) (s' : Settings), s.limits.blockDepth ≤ s'.limits.blockDepth →
        (tokensAll ds).length ≤ s'.limits.tokens → parseTokens t' s' (tokensAll ds) = .ok ds := by
  obtain ⟨source, tokens, hread⟩ := h.exists_parseFrom
  have hnormal := Parser.everywhereAll_of_parseFrom hread
  refine ⟨Directive.everywhereAll_iff_outline.mp hnormal, fun t' s' hdepth hlength => ?_⟩
  have hreadable : Directive.isReadableAll ds = true :=
    (Directive.isReadableAll_iff ds).mpr hnormal
  have hheight : heightAll ds ≤ s'.limits.blockDepth :=
    Nat.le_trans (Parser.heightAll_le_of_parseFrom hread) hdepth
  exact (parseFrom_tokensAll hreadable hlength hheight).1

/-- A file in the root that opens a block and does not close it: `b {`. -/
def openFile : FileTree where
  nodes := [([⟨"o", by decide⟩], .file (.ofBytes [0x62, 0x20, 0x7b]) false)]
  nodup := by decide
  workingDir := []

/-- A text that includes this file, and breaks off in the block: `include o y`. -/
def openText : List Token := ["include", "o", "y"].map fun text => ⟨"top", 1, text⟩

/-- The block comes from the file, and what is in it from the text. -/
def openTree : List Directive := [.block (oneWord "/o" "b") [.simple (oneWord "top" "y")]]

theorem importTokens_openFile (c : Trail) (hc : c.mentions (openFile.identity ⟨"/o"⟩) = false)
    (hdepth : c.depth < rootSettings.limits.includeDepth) :
    Include.importTokens openFile rootSettings "o" c =
      .ok ([⟨"/o", 1, "b"⟩, ⟨"/o", 1, "\x7b"⟩].map fun token =>
        { token, trail := c.extend (openFile.identity ⟨"/o"⟩) }) := by
  have hfiles : Include.resolve openFile rootSettings.layout "o" = .ok [⟨"/o"⟩] := by cbv
  have hload : load openFile rootSettings.limits ⟨"/o"⟩ =
      .ok [⟨"/o", 1, "b"⟩, ⟨"/o", 1, "\x7b"⟩] := by cbv
  rw [Include.importTokens, hfiles]
  change Include.importFiles _ _ _ _ = _
  rw [Include.importFiles, Include.importFile_eq_ok hc hdepth hload]
  rfl

theorem parseTokens_openText : parseTokens openFile rootSettings openText = .ok openTree := by
  have hnew := importTokens_openFile (.ofSource openFile ⟨"top"⟩) (by cbv) (by decide)
  have hmove : Parser.Move openFile rootSettings (Parser.ofTokens openFile "top" openText) _ :=
    .splice rfl ⟨rfl, rfl⟩ rfl hnew (by decide)
  have htakes : Parser.TakesAll rootSettings.limits.blockDepth
      [⟨"/o", 1, "b"⟩, ⟨"/o", 1, "\x7b"⟩, ⟨"top", 1, "y"⟩] .blank _ :=
    .cons (.start rfl rfl rfl) (.cons (.enter rfl rfl (by decide)) (.cons (.start rfl rfl rfl) .nil))
  have hread := (Parser.run_of_move hmove).trans (Parser.run_of_takesAll (htakes.withStream _ _))
  exact (parseTokens_eq_run (by decide)).trans hread

/-- The tree of this text is in normal form and is read again without the file. -/
theorem isNormal_and_reread_openTree :
    IsParsed openFile rootSettings openTree ∧ (∀ x ∈ outline openTree, x.2.head.IsNormal) ∧
      parseTokens .empty {} (tokensAll openTree) = .ok openTree := by
  have hparsed : IsParsed openFile rootSettings openTree := .tokens parseTokens_openText
  obtain ⟨hnormal, hreread⟩ := isNormal_and_reread hparsed
  exact ⟨hparsed, hnormal, hreread .empty {} (by decide) (by decide)⟩

end IsParsed

end ConfTree
