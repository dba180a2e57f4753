import ConfTree.Proofs.Directive.Census
import ConfTree.Proofs.Parser.Normal

/-!
# A tree is no larger than its text

Every directive has a first word of its own in the text it is read from, and every block
a brace that opens it. So there are no more of both than the text has tokens once its
includes are expanded, wherever it breaks off.

1. `Grammar.Cut.census_le`: the bound for texts of the grammar.
2. `census_le_of_parseTokens`: the bound for a text with includes.
   `census_counts`: all that a census says.
-/

namespace ConfTree

open Census (ofTree ofTree_append ofTree_simple ofTree_block)

/-! ## 1. Texts of the grammar -/

namespace Grammar

variable {ts : List Token} {ds : List Directive}

/-- A complete text has a token for each directive and one for each block. -/
theorem Items.census_le (h : Items ts ds) :
    (ofTree ds).directives + (ofTree ds).blocks ≤ ts.length := by
  induction h with
  | nil => exact Nat.zero_le _
  | blank _ _ ih => exact Nat.le_succ_of_le ih
  | @simple first mark args ts ds _ _ _ ih =>
    obtain ⟨hdirectives, hblocks, -⟩ := ofTree_append [.simple (head first args)] ds
    obtain ⟨hone, hnone⟩ := ofTree_simple (head first args)
    rw [List.singleton_append] at hdirectives hblocks
    simp only [List.length_append, List.length_cons]
    omega
  | @block first opening closing args inner ts body ds _ _ _ _ _ ihInner ih =>
    obtain ⟨hdirectives, hblocks, -⟩ := ofTree_append [.block (head first args) body] ds
    obtain ⟨hmore, hblock⟩ := ofTree_block (head first args) body
    rw [List.singleton_append] at hdirectives hblocks
    simp only [List.length_append, List.length_cons]
    omega

/-- So does a text that breaks off: it has begun each of them. -/
theorem Cut.census_le (h : Cut ts ds) :
    (ofTree ds).directives + (ofTree ds).blocks ≤ ts.length := by
  induction h with
  | items h => exact h.census_le
  | @simple first args ts ds h _ =>
    have hitems := h.census_le
    obtain ⟨hdirectives, hblocks, -⟩ := ofTree_append ds [.simple (head first args)]
    obtain ⟨hone, hnone⟩ := ofTree_simple (head first args)
    simp only [List.length_append, List.length_cons]
    omega
  | @block first opening args inner ts body ds h _ _ _ ih =>
    have hitems := h.census_le
    obtain ⟨hdirectives, hblocks, -⟩ := ofTree_append ds [.block (head first args) body]
    obtain ⟨hmore, hblock⟩ := ofTree_block (head first args) body
    simp only [List.length_append, List.length_cons]
    omega

end Grammar

/-! ## 2. Texts with includes -/

/-- What is read from a text is a tree of the grammar for the expanded text. -/
theorem cut_of_parseTokens {t : FileTree} {s : Settings} {tokens : List Token}
    {ds : List Directive} (h : parseTokens t s tokens = .ok ds) :
    ∃ flat, Include.expand t s (Parser.ofTokens t s.sourceName tokens).pending = some flat ∧
      Grammar.Cut (flat.map Tracked.token) ds := by
  obtain ⟨hle, flat, q, hexpand, hq, rfl⟩ := takesAll_of_parseFrom h
  have hbuilds : Grammar.Builds [] Parser.blank := .between rfl (.top .nil)
  refine ⟨flat, ?_, (hbuilds.takesAll hq).cut⟩
  rw [Include.expand, if_neg (by simpa using hle)]
  exact hexpand

/-- A census counts what stands at the positions of a tree: all directives, those with a
block, empty ones too, and the files they come from; the depth that it finds is the
greatest number of blocks around a directive. The counts of two lists of directives, one
behind the other, are the sums of theirs, the greater depth and the files of both, in
whichever order they stand. And of a tree that is read from tokens there are no more
directives and blocks than there are tokens once all includes are expanded. -/
theorem census_counts (ds : List Directive) :
    Census.IsCensus ds (ofTree ds) ∧
    (∀ es, ofTree (ds ++ es) = ofTree (es ++ ds) ∧
      (ofTree (ds ++ es)).directives = (ofTree ds).directives + (ofTree es).directives ∧
      (ofTree (ds ++ es)).blocks = (ofTree ds).blocks + (ofTree es).blocks ∧
      (ofTree (ds ++ es)).maxDepth = max (ofTree ds).maxDepth (ofTree es).maxDepth ∧
      ∀ file, file ∈ (ofTree (ds ++ es)).files ↔
        file ∈ (ofTree ds).files ∨ file ∈ (ofTree es).files) ∧
    ∀ t s tokens, parseTokens t s tokens = .ok ds →
      ∃ flat, Include.expand t s (Parser.ofTokens t s.sourceName tokens).pending = some flat ∧
        (ofTree ds).directives + (ofTree ds).blocks ≤ flat.length := by
  refine ⟨Census.isCensus_ofTree ds,
    fun es => ⟨Census.ofTree_append_comm ds es, ofTree_append ds es⟩, fun t s tokens h => ?_⟩
  obtain ⟨flat, hexpand, hcut⟩ := cut_of_parseTokens h
  exact ⟨flat, hexpand, by simpa using hcut.census_le⟩

open IsParsed (openFile openText openTree parseTokens_openText) in
/-- The tree of `include o y` has two directives and a block, and the three tokens
`b`, `{` and `y` once its include is expanded. -/
theorem census_counts_openTree :
    parseTokens openFile rootSettings openText = .ok openTree ∧
      ofTree openTree = { directives := 2, blocks := 1, maxDepth := 1, files := ["/o", "top"] } ∧
      ∃ flat, Include.expand openFile rootSettings
          (Parser.ofTokens openFile "top" openText).pending = some flat ∧ 2 + 1 ≤ flat.length := by
  obtain ⟨-, -, hbound⟩ := census_counts openTree
  exact ⟨parseTokens_openText, by decide, hbound _ _ _ parseTokens_openText⟩

end ConfTree
