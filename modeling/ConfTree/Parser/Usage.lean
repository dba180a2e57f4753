import ConfTree.Parser

/-!
# What a reading takes

The usage of a reading is what it needs of each limit: the size of the largest
text, the depth of the deepest block, the length of the longest trail, the number
of files of the widest include, and the length of the stream when it is longest.
It is collected step by step along the way that the reading takes.
-/

namespace ConfTree

/-- How many bytes a file has, if the path leads to one. -/
def FileTree.size (t : FileTree) (p : Path) : Nat :=
  match t.stat p with
  | .ok (.file content _) => content.bytes.length
  | _ => 0

/-- What an include takes, the length of the stream apart. -/
def Include.usage (t : FileTree) (s : Settings) (argument : String) (trail : Trail) : Limits :=
  match Include.resolve t s.layout argument with
  | .error _ => .zero
  | .ok files => { Limits.zero with
      fileSize := (files.map t.size).foldl max 0
      includeDepth := if files.isEmpty then 0 else trail.depth + 1
      includeFiles := files.length }

namespace Parser

/-- What the parser takes to be where it is. -/
def standing (p : Parser) : Limits :=
  { Limits.zero with blockDepth := p.blocks.length, tokens := p.total }

/-- What the next step takes, the place that it leads to apart. -/
def stepUsage (t : FileTree) (s : Settings) (p : Parser) : Limits :=
  match p.argument?, p.pending with
  | some argument, first :: _ => Include.usage t s argument first.trail
  | _, _ => .zero

/-- What it takes to read the stream to its end. -/
def usage (t : FileTree) (s : Settings) (p : Parser) : Limits :=
  match _h : step t s p with
  | .more q => (p.standing.either (stepUsage t s p)).either (usage t s q)
  | _ => p.standing.either (stepUsage t s p)
termination_by (⟨p.pending⟩ : Stream t)
decreasing_by exact step_consumes _h

end Parser

/-- What it takes to read directives from a text. -/
def parseUsage (t : FileTree) (s : Settings) (bytes : List UInt8) : Limits :=
  let tokens := tokenize s.sourceName bytes
  { Limits.zero with fileSize := bytes.length }.either
    (Parser.usage t s (Parser.ofTokens t s.sourceName tokens))

end ConfTree
