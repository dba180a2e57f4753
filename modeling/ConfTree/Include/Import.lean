import ConfTree.Include.Load
import ConfTree.Include.Resolve
import ConfTree.Include.Trail
import ConfTree.Settings

/-!
# The tokens that an include stands for

Every token of the stream carries the trail of files that led to it. The tokens
of an included file carry the trail of the include, one file longer.
-/

namespace ConfTree

/-- A token of the stream. -/
structure Tracked where
  token : Token
  /-- The files through which it came, its own at the end. -/
  trail : Trail
  deriving DecidableEq

namespace Include

def importFile (t : FileTree) (limits : Limits) (trail : Trail) (p : Path) :
    Except Fault (List Tracked) := do
  let inner ← trail.enter t p limits.includeDepth
  let tokens ← load t limits p
  return tokens.map fun token => { token, trail := inner }

def importFiles (t : FileTree) (limits : Limits) (trail : Trail) :
    List Path → Except Fault (List Tracked)
  | [] => .ok []
  | p :: ps => do
    return (← importFile t limits trail p) ++ (← importFiles t limits trail ps)

/-- The tokens that an include with this argument stands for; `trail` is that of
the include itself. -/
def importTokens (t : FileTree) (s : Settings) (argument : String) (trail : Trail) :
    Except Fault (List Tracked) := do
  let files ← resolve t s.layout argument
  if s.limits.includeFiles < files.length then
    throw { cause := .tooManyFiles argument files.length s.limits.includeFiles }
  importFiles t s.limits trail files

end Include

end ConfTree
