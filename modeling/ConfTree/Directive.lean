import ConfTree.Token

/-!
# Directives

A configuration is a list of directives. A directive is a statement, and a block
directive holds a list of directives besides; an empty block is still a block.

`Directive.beq_eq_true_iff` makes equality of trees decidable.
`Directive.tokens` writes a tree as the tokens it is read from, and
`Directive.isReadable` tells for which trees these are read as the same tree.
-/

namespace ConfTree

/-- The words of a statement, with the place of the first. -/
structure Statement where
  /-- The name of the directive and its arguments. -/
  params : List String
  /-- The text that the statement stands in. -/
  file : String
  /-- The line of its first word, counted from one. -/
  line : Nat
  deriving DecidableEq, Inhabited

/-- A node of a configuration tree. -/
inductive Directive where
  /-- A statement by itself. -/
  | simple (head : Statement)
  /-- A statement with the directives of its block. -/
  | block (head : Statement) (body : List Directive)
  deriving Inhabited

namespace Directive

def head : Directive → Statement
  | simple head => head
  | block head _ => head

/-- The directives of the block, if there is one. -/
def body? : Directive → Option (List Directive)
  | simple _ => none
  | block _ body => some body

/-- A directive from a statement and the directives of its block, if there is
one. -/
def ofBody? (head : Statement) : Option (List Directive) → Directive
  | none => simple head
  | some body => block head body

/-- The directives of the block; none if there is no block. -/
def body (d : Directive) : List Directive := d.body?.getD []

def isBlock (d : Directive) : Bool := d.body?.isSome

def params (d : Directive) : List String := d.head.params

/-- The text that the directive stands in. -/
def file (d : Directive) : String := d.head.file

def line (d : Directive) : Nat := d.head.line

/-- The word at a position; the name stands at zero. -/
def param? (d : Directive) (position : Nat) : Option String := d.params[position]?

/-- The first word; empty if there is none. -/
def name (d : Directive) : String := (d.param? 0).getD ""

def args (d : Directive) : List String := d.params.drop 1

def find? (ds : List Directive) (name : String) : Option Directive :=
  ds.find? fun d => d.name == name

def findAll (ds : List Directive) (name : String) : List Directive :=
  ds.filter fun d => d.name == name

def child? (d : Directive) (name : String) : Option Directive := find? d.body name

def children (d : Directive) (name : String) : List Directive := findAll d.body name

/-- The directive that a list of positions leads to, from the outside inwards. -/
def at? (ds : List Directive) : List Nat → Option Directive
  | [] => none
  | [position] => ds[position]?
  | position :: positions => do at? (← ds[position]?).body positions

/-! ## Listing a tree -/

mutual

/-- The directive and those in its block, each with the number of blocks around
it, in front of the list `rest`. -/
def outlineOnto (depth : Nat) (rest : List (Nat × Directive)) :
    Directive → List (Nat × Directive)
  | simple head => (depth, simple head) :: rest
  | block head body => (depth, block head body) :: outlineAllOnto (depth + 1) rest body

/-- The directives and those in their blocks, in front of the list `rest`. -/
def outlineAllOnto (depth : Nat) (rest : List (Nat × Directive)) :
    List Directive → List (Nat × Directive)
  | [] => rest
  | d :: ds => outlineOnto depth (outlineAllOnto depth rest ds) d

end

/-- All directives of a tree, each before those in its block, with the number of
blocks around each. -/
def outline (ds : List Directive) : List (Nat × Directive) := outlineAllOnto 0 [] ds

/-! ## Forgetting places -/

mutual

def unplaced : Directive → Directive
  | simple head => simple { head with file := "", line := 0 }
  | block head body => block { head with file := "", line := 0 } (unplacedAll body)

def unplacedAll : List Directive → List Directive
  | [] => []
  | d :: ds => unplaced d :: unplacedAll ds

end

/-! ## Equality -/

mutual

def beq : Directive → Directive → Bool
  | simple a, simple b => a == b
  | block a as, block b bs => a == b && beqAll as bs
  | _, _ => false

def beqAll : List Directive → List Directive → Bool
  | [], [] => true
  | a :: as, b :: bs => beq a b && beqAll as bs
  | _, _ => false

end

mutual

theorem beq_eq_true_iff : ∀ a b : Directive, beq a b = true ↔ a = b
  | simple a, simple b => by simp [beq]
  | simple a, block b bs => by simp [beq]
  | block a as, simple b => by simp [beq]
  | block a as, block b bs => by simp [beq, beqAll_eq_true_iff as bs]

theorem beqAll_eq_true_iff : ∀ as bs : List Directive, beqAll as bs = true ↔ as = bs
  | [], [] => by simp [beqAll]
  | [], b :: bs => by simp [beqAll]
  | a :: as, [] => by simp [beqAll]
  | a :: as, b :: bs => by simp [beqAll, beq_eq_true_iff a b, beqAll_eq_true_iff as bs]

end

instance : DecidableEq Directive := fun a b =>
  decidable_of_iff (beq a b = true) (beq_eq_true_iff a b)

/-! ## Writing a tree as tokens -/

/-- The text as a token at the place of the statement. -/
def token (head : Statement) (text : String) : Token :=
  { file := head.file, line := head.line, text }

mutual

/-- The tokens that the directive is read from, all at the place of its
statement. -/
def tokens : Directive → List Token
  | simple head => head.params.map (token head) ++ [token head ";"]
  | block head body =>
    head.params.map (token head) ++ [token head "\x7b"] ++ tokensAll body ++
      [token head "\x7d"]

def tokensAll : List Directive → List Token
  | [] => []
  | d :: ds => tokens d ++ tokensAll ds

end

/-! ## Trees that can be read -/

/-- The words can be those of a statement that is not an include: none of them
would end it earlier. -/
def isReadableHead (head : Statement) : Bool :=
  match head.params.map (token head) with
  | [] => false
  | first :: args =>
    !first.isMark && !first.isInclude && args.all fun a => !a.endsStatement && !a.opensBlock

mutual

/-- The tokens of the directive are read as the directive. -/
def isReadable : Directive → Bool
  | simple head => isReadableHead head
  | block head body => isReadableHead head && isReadableAll body

/-- The tokens of the directives are read as the directives. -/
def isReadableAll : List Directive → Bool
  | [] => true
  | d :: ds => isReadable d && isReadableAll ds

end

mutual

/-- How many blocks the directive opens one inside the other, empty ones too. -/
def height : Directive → Nat
  | simple _ => 0
  | block _ body => heightAll body + 1

def heightAll : List Directive → Nat
  | [] => 0
  | d :: ds => max (height d) (heightAll ds)

end

end Directive

end ConfTree
