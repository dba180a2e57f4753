import Mathlib
import ConfTree.Proofs.Include.Limits
import ConfTree.Proofs.Parser.Descent

/-!
# All ways to read a text agree

A text is given as tokens or as bytes, or its bytes come from a source in pieces, as
those of a file do.

1. `Source.read_min`: a source need not be asked for more bytes than can be counted.
2. `Parser.run_withName`: the name of a text matters only for its tokens and for the
   trail of its includes.
3. `entry_points_agree`: sources, bytes, tokens and files are read alike.
-/

namespace ConfTree

/-! ## 1. Sources -/

/-- A source that delivers fewer than `most` bytes need not be asked for more than
that to tell how it ends. -/
theorem Source.read_min {source : Source} {most : Nat} (h : source.bytes.length < most)
    (wanted : Nat) : source.read (min wanted most) = source.read wanted := by
  rcases Nat.le_total wanted most with hle | hle
  · rw [Nat.min_eq_left hle]
  · rw [Nat.min_eq_right hle, read_of_lt h, read_of_lt (Nat.lt_of_lt_of_le h hle)]

/-! ## 2. Names -/

namespace Parser

variable (t : FileTree) (s : Settings) (sourceName : String)

/-- The name is on the trails of the tokens already, where a step reads it. -/
theorem step_withName (p : Parser) : step t { s with sourceName } p = step t s p := by
  unfold step stepAtStart stepInside expand Include.importTokens
  rfl

theorem run_withName (p : Parser) : run t { s with sourceName } p = run t s p := by
  induction p using stream_induction t s with
  | h p ih =>
    have hname := step_withName t s sourceName p
    cases hs : step t s p with
    | more q =>
      rw [run_of_step hs, run_of_step (hname.trans hs)]
      exact ih q (step_eq_more_iff.mp hs)
    | finished ds =>
      obtain ⟨hp, -⟩ := step_eq_finished_iff.mp hs
      rw [run_of_nil hp, run_of_nil hp]
    | failed f => rw [run_of_failed hs, run_of_failed (hname.trans hs)]

end Parser

/-- The tokens of a text are read alike, whether its name is given with them or is that
of the settings. -/
theorem parseFrom_eq_parseTokens (t : FileTree) (s : Settings) (source : String)
    (tokens : List Token) :
    parseFrom t s source tokens = parseTokens t { s with sourceName := source } tokens := by
  have hrun := Parser.run_withName t s source (Parser.ofTokens t source tokens)
  rw [parseTokens, parseFrom_eq_run, parseFrom_eq_run, hrun]

/-! ## 3. Entry points -/

section EntryPoints

variable {t : FileTree} {s : Settings} {p : Path} {content : Source} {executable : Bool}

theorem load_of_stat (hstat : t.stat p = .ok (.file content executable))
    (hnone : content.failure = none) (hlen : content.bytes.length ≤ s.limits.fileSize) :
    load t s.limits p = .ok (tokenize p.text content.bytes) := by
  simp only [load, hstat, readTokens_of_le hnone hlen]

/-- Bytes are read as their tokens are. -/
theorem parse_eq_parseTokens {bytes : List UInt8} (hlen : bytes.length ≤ s.limits.fileSize) :
    parse t s bytes = parseTokens t s (tokenize s.sourceName bytes) :=
  if_neg (Nat.not_lt.mpr hlen)

/-- A file is read as its bytes are under the name of its path. -/
theorem parseFile_eq_parse (hstat : t.stat p = .ok (.file content executable))
    (hnone : content.failure = none) (hlen : content.bytes.length ≤ s.limits.fileSize) :
    parseFile t s p = parse t { s with sourceName := p.text } content.bytes := by
  rw [parseFile, load_of_stat hstat hnone hlen]
  show parseFrom t s p.text (tokenize p.text content.bytes) = _
  rw [parseFrom_eq_parseTokens]
  exact (parse_eq_parseTokens (s := { s with sourceName := p.text }) hlen).symm

/-- All ways to read a text agree, however its bytes arrive.

From any source, read under any name and under any limits, the tokens are those of its
bytes if there are not too many. If there are too many the fault is that a limit was
exceeded, whether or not the source would fail behind them, and if the source fails
before that the fault is one of reading bytes. A source of fewer bytes than can be
counted is not asked for more than that, which makes no difference.

And if it is a file of the tree that can be read and is not too long, then the file, its
bytes under the name of its path, and the tokens of these bytes under that name are all
read as the same tree, or not read for the same fault. -/
theorem entry_points_agree (t : FileTree) (s : Settings) (p : Path) (content : Source) :
    (readTokens p.text content s.limits =
      if s.limits.fileSize < content.bytes.length then
        .error { cause := .readTooLong s.limits.fileSize, place := { file := p.text } }
      else match content.failure with
        | none => .ok (tokenize p.text content.bytes)
        | some reason => .error { cause := .unreadable reason, place := { file := p.text } }) ∧
    (content.bytes.length < Limits.maxWord →
      content.read (min (s.limits.fileSize + 1) Limits.maxWord) =
        content.read (s.limits.fileSize + 1)) ∧
    ∀ executable, t.stat p = .ok (.file content executable) → content.failure = none →
      content.bytes.length ≤ s.limits.fileSize →
      parseFile t s p = parse t { s with sourceName := p.text } content.bytes ∧
      parse t { s with sourceName := p.text } content.bytes =
        parseTokens t { s with sourceName := p.text } (tokenize p.text content.bytes) := by
  refine ⟨readTokens_eq _ _ _, fun hcount => Source.read_min hcount _, ?_⟩
  intro executable hstat hnone hlen
  exact ⟨parseFile_eq_parse hstat hnone hlen, parse_eq_parseTokens hlen⟩

/-- A file that includes itself, and that arrives in pieces: `include self`. -/
def selfFile : Source where
  chunks := [[0x69, 0x6e, 0x63], [0x6c, 0x75, 0x64, 0x65, 0x20, 0x73, 0x65], [0x6c, 0x66]]

/-- The tree with this file alone, in the root. -/
def selfTree : FileTree where
  nodes := [([⟨"self", by decide⟩], .file selfFile false)]
  nodup := by decide
  workingDir := []

/-- The file, its bytes and its tokens are read alike, includes and all. -/
theorem entry_points_agree_selfTree :
    let s : Settings := { layout := { root := ⟨"/"⟩, subdirs := [], standardFiles := [] } }
    let named : Settings := { s with sourceName := "/self" }
    readTokens "/self" selfFile s.limits =
      .ok [⟨"/self", 1, "include"⟩, ⟨"/self", 1, "self"⟩] ∧
    parseFile selfTree s ⟨"/self"⟩ = parse selfTree named selfFile.bytes ∧
    parse selfTree named selfFile.bytes =
      parseTokens selfTree named [⟨"/self", 1, "include"⟩, ⟨"/self", 1, "self"⟩] := by
  intro s named
  have htokens : tokenize "/self" selfFile.bytes =
      [⟨"/self", 1, "include"⟩, ⟨"/self", 1, "self"⟩] := by cbv
  have hstat : selfTree.stat ⟨"/self"⟩ = .ok (.file selfFile false) := by cbv
  obtain ⟨hread, -, hparse⟩ := entry_points_agree selfTree s ⟨"/self"⟩ selfFile
  obtain ⟨hfile, hbytes⟩ := hparse false hstat rfl (by decide)
  rw [htokens] at hread hbytes
  exact ⟨hread, hfile, hbytes⟩

end EntryPoints

end ConfTree
