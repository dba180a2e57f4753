import ConfTree.Directive

/-!
# Walking through a tree

A visitor is told about the directives of a tree one after the other: about each
directive, then about its block and what is in it, then that the block ends. It
works in a monad of its own, so it can keep a state and stop the walk.

`events` lists what a visitor is told, in order.
-/

namespace ConfTree

/-- The blocks around a directive. -/
structure Surroundings where
  /-- How many blocks there are. -/
  depth : Nat := 0
  /-- The names of the directives whose blocks they are, the outermost first. -/
  path : List String := []
  deriving DecidableEq

namespace Surroundings

/-- Inside the block of the directive `name`. -/
def inside (c : Surroundings) (name : String) : Surroundings where
  depth := c.depth + 1
  path := c.path ++ [name]

def describe (c : Surroundings) : String :=
  if c.path.isEmpty then "main" else "/".intercalate c.path

end Surroundings

/-- What to do at each point of a walk. -/
structure Visitor (m : Type → Type) where
  beginTree : List Directive → m Unit
  endTree : List Directive → m Unit
  visit : Directive → Surroundings → m Unit
  beginBlock : Directive → Surroundings → m Unit
  endBlock : Directive → Surroundings → m Unit

/-- A visitor that does nothing. -/
def Visitor.idle (m : Type → Type) [Monad m] : Visitor m where
  beginTree _ := pure ()
  endTree _ := pure ()
  visit _ _ := pure ()
  beginBlock _ _ := pure ()
  endBlock _ _ := pure ()

namespace Directive

mutual

/-- Tells the visitor about a directive and what is in its block. -/
def walk {m : Type → Type} [Monad m] (v : Visitor m) (c : Surroundings) : Directive → m Unit
  | simple head => v.visit (simple head) c
  | block head body => do
    v.visit (block head body) c
    v.beginBlock (block head body) c
    walkAll v (c.inside (block head body).name) body
    v.endBlock (block head body) c

/-- Tells the visitor about several directives in turn. -/
def walkAll {m : Type → Type} [Monad m] (v : Visitor m) (c : Surroundings) :
    List Directive → m Unit
  | [] => pure ()
  | d :: ds => do
    walk v c d
    walkAll v c ds

end

def walkTree {m : Type → Type} [Monad m] (v : Visitor m) (ds : List Directive) : m Unit := do
  v.beginTree ds
  walkAll v {} ds
  v.endTree ds

end Directive

/-- One thing that a visitor is told. -/
inductive Event where
  | beginTree (ds : List Directive)
  | endTree (ds : List Directive)
  | visit (d : Directive) (c : Surroundings)
  | beginBlock (d : Directive) (c : Surroundings)
  | endBlock (d : Directive) (c : Surroundings)
  deriving DecidableEq

/-- What the visitor does about an event. -/
def Visitor.handle {m : Type → Type} (v : Visitor m) : Event → m Unit
  | .beginTree ds => v.beginTree ds
  | .endTree ds => v.endTree ds
  | .visit d c => v.visit d c
  | .beginBlock d c => v.beginBlock d c
  | .endBlock d c => v.endBlock d c

namespace Directive

mutual

/-- What a visitor is told about a directive and what is in its block. -/
def events (c : Surroundings) : Directive → List Event
  | simple head => [.visit (simple head) c]
  | block head body =>
    [.visit (block head body) c, .beginBlock (block head body) c] ++
      eventsAll (c.inside (block head body).name) body ++ [.endBlock (block head body) c]

/-- What a visitor is told about several directives. -/
def eventsAll (c : Surroundings) : List Directive → List Event
  | [] => []
  | d :: ds => events c d ++ eventsAll c ds

end

def treeEvents (ds : List Directive) : List Event :=
  [.beginTree ds] ++ eventsAll {} ds ++ [.endTree ds]

end Directive

end ConfTree
