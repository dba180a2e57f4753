import ConfTree.Walk

/-!
# What is told on a walk

The events of a tree are told to a visitor one after the other, up to the first
failure. They say where each directive stands: `Closes` relates events to the blocks
that are open when they are told, and `Alike` relates trees that are told apart by
their names and blocks only.
-/

namespace ConfTree

namespace Visitor

variable {σ ε : Type}

/-- Tells a visitor events one after the other, from a state, up to the first failure;
the state that the failure leaves is kept. -/
def tellAll (v : Visitor (ExceptT ε (StateM σ))) : List Event → σ → Except ε Unit × σ
  | [], state => (.ok (), state)
  | event :: events, state =>
    match (v.handle event).run.run state with
    | (.ok (), state) => tellAll v events state
    | (.error failure, state) => (.error failure, state)

end Visitor

/-- The surroundings name the directives whose blocks are open, which are listed with
the innermost first. -/
structure Surroundings.Names (c : Surroundings) (opened : List Directive) : Prop where
  path_eq : c.path = opened.reverse.map Directive.name
  depth_eq : c.depth = c.path.length

/-- `Closes opened events`: the events can be told when the blocks of the directives
`opened` are open, the innermost first, and close them all.

* `nil`: no block is left open.
* `visit`: a directive without a block is visited where it stands.
* `enter`: a directive with a block is visited, and its block begins.
* `leave`: the innermost block ends, where its directive stands. -/
inductive Closes : List Directive → List Event → Prop
  | nil : Closes [] []
  | visit {opened : List Directive} {d : Directive} {c : Surroundings} {events : List Event} :
      c.Names opened → d.isBlock = false → Closes opened events →
      Closes opened (.visit d c :: events)
  | enter {opened : List Directive} {d : Directive} {c : Surroundings} {events : List Event} :
      c.Names opened → d.isBlock = true → Closes (d :: opened) events →
      Closes opened (.visit d c :: .beginBlock d c :: events)
  | leave {opened : List Directive} {d : Directive} {c : Surroundings} {events : List Event} :
      c.Names opened → Closes opened events →
      Closes (d :: opened) (.endBlock d c :: events)

/-- The directive that is visited, if one is. -/
def Event.visited? : Event → Option Directive
  | visit d _ => some d
  | _ => none

/-- Which of the five events it is, with the name of its directive. -/
inductive Cue where
  | beginTree
  | endTree
  | visit (name : String)
  | beginBlock (name : String)
  | endBlock (name : String)
  deriving DecidableEq

def Event.cue : Event → Cue
  | beginTree _ => .beginTree
  | endTree _ => .endTree
  | visit d _ => .visit d.name
  | beginBlock d _ => .beginBlock d.name
  | endBlock d _ => .endBlock d.name

/-- The trees have the same names, and the same of their directives have blocks. -/
inductive Alike : List Directive → List Directive → Prop
  | nil : Alike [] []
  | simple {head head' : Statement} {ds es : List Directive} :
      (Directive.simple head).name = (Directive.simple head').name → Alike ds es →
      Alike (.simple head :: ds) (.simple head' :: es)
  | block {head head' : Statement} {body body' ds es : List Directive} :
      (Directive.block head body).name = (Directive.block head' body').name →
      Alike body body' → Alike ds es →
      Alike (.block head body :: ds) (.block head' body' :: es)

namespace Directive

/-- The directives that are visited on a walk, in order. -/
def visits (ds : List Directive) : List Directive := (treeEvents ds).filterMap Event.visited?

mutual

/-- The positions of the directives in the block of a directive, as `at?` reads them,
each before those in its block. -/
def positions : Directive → List (List Nat)
  | simple _ => []
  | block _ body => positionsAll 0 body

/-- The positions of several directives and of those in their blocks, the first of
which has the position `first`. -/
def positionsAll (first : Nat) : List Directive → List (List Nat)
  | [] => []
  | d :: ds => [first] :: ((positions d).map (first :: ·) ++ positionsAll (first + 1) ds)

end

end Directive

end ConfTree
