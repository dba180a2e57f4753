import ConfTree.Glob.Search
import ConfTree.Include.Argument
import ConfTree.Include.Layout

/-!
# The files that an include stands for

The argument is cleaned and then looked up as a pattern. An absolute argument is
first taken as it is. If that gives nothing, or if the argument is relative, it
is looked up below the root of the layout and behind that below each of its
subdirectories, where a standard file is taken to exist. A pattern may stand for
no file, a plain path may not.

In the patterns handed to the search, root and subdirectories stand for
themselves; only the argument is a pattern.
-/

namespace ConfTree.Include

/-- The patterns that a path below the root is looked up by, in order. -/
def searchPatterns (l : Layout) (relative : Path) : List String :=
  let root : Path := ⟨Glob.escape l.root.text⟩
  (root.join relative).text ::
    l.subdirs.map fun dir => ((root.join ⟨Glob.escape dir⟩).join relative).text

/-- All patterns that an argument may be looked up by, in whatever tree. -/
def allPatterns (l : Layout) (argument : String) : List String :=
  let cleaned := Path.clean ⟨argument⟩
  let relative := cleaned.stripRoot
  cleaned.text :: Glob.escape (l.root.join relative).text :: searchPatterns l relative

/-- The files that one pattern stands for. -/
def find (t : FileTree) (pattern : String) : Except Fault (List Path) :=
  match Glob.findFiles t pattern with
  | .ok files => .ok files
  | .error e => .error { cause := .badClass pattern e }

/-- The files that several patterns stand for, one pattern after the other. -/
def findAll (t : FileTree) : List String → Except Fault (List Path)
  | [] => .ok []
  | pattern :: patterns => do return (← find t pattern) ++ (← findAll t patterns)

/-- The files below the root that a path without its root stands for. -/
def findBelow (t : FileTree) (l : Layout) (relative : Path) : Except Fault (List Path) :=
  if l.isStandard relative.text then .ok [l.root.join relative]
  else findAll t (searchPatterns l relative)

/-- The files that an argument stands for once it is cleaned and screened. -/
def findCleaned (t : FileTree) (l : Layout) (cleaned : Path) : Except Fault (List Path) := do
  let direct ← if cleaned.isAbsolute then find t cleaned.text else pure []
  if direct.isEmpty then findBelow t l cleaned.stripRoot else return direct

/-- The files that the argument of an include stands for, in the order in which
they are included. -/
def resolve (t : FileTree) (l : Layout) (argument : String) : Except Fault (List Path) := do
  let cleaned := Path.clean ⟨argument⟩
  screen cleaned.text
  let files ← findCleaned t l cleaned
  if files.isEmpty && !hasWildcards cleaned.text then
    throw { cause := .noMatch argument l.root }
  return files

end ConfTree.Include
