import ConfTree.Walk

/-!
# Counting a tree

A census counts the directives and the blocks of a tree, finds how deep blocks
are nested, and lists the files that directives come from. It is taken in one
walk.
-/

namespace ConfTree

/-- The counts of a tree. -/
structure Census where
  directives : Nat := 0
  blocks : Nat := 0
  /-- The greatest number of blocks around a directive. -/
  maxDepth : Nat := 0
  /-- The files that directives come from, each once, in ascending order. -/
  files : List String := []
  deriving DecidableEq, Inhabited

namespace Census

/-- Adds a text to a list in ascending order, unless it is there. -/
def insertFile (file : String) : List String → List String
  | [] => [file]
  | other :: others =>
    if file = other then other :: others
    else if file < other then file :: other :: others
    else other :: insertFile file others

def addDirective (c : Census) (d : Directive) (depth : Nat) : Census :=
  { c with
    directives := c.directives + 1
    maxDepth := max c.maxDepth depth
    files := insertFile d.file c.files }

def addBlock (c : Census) : Census := { c with blocks := c.blocks + 1 }

def visitor : Visitor (StateM Census) :=
  { Visitor.idle (StateM Census) with
    visit := fun d c => modify fun census => census.addDirective d c.depth
    beginBlock := fun _ _ => modify addBlock }

def ofTree (ds : List Directive) : Census :=
  ((Directive.walkTree visitor ds).run {}).2

end Census

end ConfTree
