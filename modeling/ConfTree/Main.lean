import ConfTree.Dump

/-!
# The command

The command shows the configuration in a file. All decisions are made on a file
tree: what the configuration can ask about is copied from the disk first, include
by include, and the command then runs on the copy.
-/

namespace ConfTree.Command

/-- A path that leads nowhere, for links that do. -/
def nowhere : Path := ⟨"\x00"⟩

/-- What a file on the disk delivers. -/
def content (p : Path) : IO Source := do
  try
    return Source.ofBytes (← IO.FS.readBinFile p.text).toList
  catch _ => return { chunks := [], failure := some SystemError.readFailed.message }

/-- Copies what stands at the path, but not what is in a directory. -/
partial def copyEntry (t : FileTree) (p : Path) : IO FileTree := do
  let place := (← IO.currentDir) / p.text
  let found ← try pure (some (← place.symlinkMetadata).type) catch _ => pure none
  match found with
  | some .dir => return t.placeDir p
  | some .file => return t.place p (.file (← content p) false)
  | some .symlink =>
    try
      let target : Path := ⟨toString (← IO.FS.realPath place)⟩
      copyEntry (t.place p (.link target)) target
    catch
      | .noFileOrDirectory .. => return t.place p (.link nowhere)
      | _ => return t.place p (.link p)
  | _ => return t

/-- The names in a directory on the disk, with the special ones. -/
def namesIn (p : Path) : IO (List String) := do
  try
    let entries ← ((← IO.currentDir) / p.text).readDir
    return "." :: ".." :: entries.toList.map fun e => e.fileName
  catch _ => return []

/-- Copies what the pieces of a pattern can stand for below a path. -/
def copyPieces (t : FileTree) (reached : Path) : List Glob.Pattern → IO FileTree
  | [] => return t
  | pattern :: patterns => do
    let names ← match pattern.literal? with
      | some name => pure [String.ofList name]
      | none => do pure ((← namesIn reached).filter fun name => pattern.matches name.toList)
    let mut t := t
    for name in names do
      let p := reached.join ⟨name⟩
      t ← copyEntry t p
      t ← copyPieces t p patterns
    return t

/-- Copies what a pattern can stand for. -/
def copyPattern (t : FileTree) (pattern : String) : IO FileTree := do
  match Glob.Query.ofText pattern with
  | .error _ => return t
  | .ok q => copyPieces t q.scope q.pieces

/-- Copies what the includes that the parser has yet to expand can stand for. -/
partial def copyIncludes (t : FileTree) (s : Settings) (p : Parser) : IO FileTree := do
  let mut t := t
  if let some argument := p.argument? then
    for pattern in Include.allPatterns s.layout argument do
      t ← copyPattern t pattern
  match p.step t s with
  | .more q => copyIncludes t s q
  | _ => return t

/-- Copies what a command with these arguments can ask about. -/
def copyFor (args : List String) : IO FileTree := do
  let t := FileTree.empty.enterDir ⟨toString (← IO.FS.realPath ".")⟩
  match Dump.request? args with
  | none => return t
  | some (file, s) => do
    let t ← copyPattern t (Glob.escape file.text)
    match load t s.limits file with
    | .error _ => return t
    | .ok tokens => copyIncludes t s (Parser.ofTokens t file.text tokens)

end ConfTree.Command

def main (args : List String) : IO UInt32 := do
  let t ← ConfTree.Command.copyFor args
  let outcome := ConfTree.Dump.run t args
  IO.print outcome.output
  IO.eprint outcome.errors
  return outcome.code.toUInt32
