import ConfTree.FileTree
import ConfTree.Glob.Pattern

/-!
# Searching a file tree for a pattern

The pieces of a pattern are tried one after the other, depth first. A piece
without a choice is taken as it is, and no directory is listed for it; any other
piece is compared with the entries of the directory reached, in ascending order.
A piece that starts with a dot is compared with `..` and `.` too, and these come
before the entries.

The pattern is read twice: as a whole, and then piece by piece, since a class may
not span a separator. Positions in errors count from the start of what was read.
-/

namespace ConfTree.Glob

/-- A pattern in pieces. -/
structure Query where
  /-- Where the search starts: the root, or the working directory. -/
  scope : Path
  pieces : List Pattern
  /-- The pattern ends in a separator, so only directories will do. -/
  wantsDirectory : Bool

/-- The pieces of the text behind the root: one separator at the end starts no
piece, and nothing at all is one empty piece. -/
def splitPieces (text : List Char) : List (List Char) :=
  let pieces := text.splitOn '/'
  if text.isEmpty then [[]]
  else if pieces.getLast? = some [] then pieces.dropLast
  else pieces

def Query.ofText (text : String) : Except BadClass Query := do
  let chars := text.toList
  let _ ← compile chars
  let absolute := chars.head? == some '/'
  let pieces ← (splitPieces (if absolute then chars.drop 1 else chars)).mapM compile
  return {
    scope := ⟨if absolute then "/" else "."⟩
    pieces
    wantsDirectory := chars.getLast? == some '/' }

/-- The entry `name` as seen from the path reached; the working directory is not
written in front of a name. -/
def child (reached : Path) (name : String) : Path :=
  if reached.same ⟨"."⟩ then ⟨name⟩ else reached.join ⟨name⟩

/-- The special entries that the pattern stands for, in the order in which they
are tried. Only a dot that is written stands for the dot in front of them. -/
def specialEntries (pattern : Pattern) : List String :=
  if pattern.head? = some (.char '.') then
    ["..", "."].filter fun name => pattern.matches name.toList
  else []

/-- The paths to be tried next for a piece without a choice: the path to the
entry of that name, if there is one. -/
def literalStep (t : FileTree) (reached : Path) (name : String) : List Path :=
  let next := child reached name
  let ok :=
    if name == "." || name == ".." then t.isDirectory reached else t.present next
  if ok then [next] else []

/-- The paths to be tried next for a piece that leaves a choice. -/
def listingStep (t : FileTree) (reached : Path) (pattern : Pattern) : List Path :=
  if t.isDirectory reached then
    (specialEntries pattern).map (fun name => reached.join ⟨name⟩) ++
      ((t.entries reached).filter fun n => pattern.matches n.text.toList).map
        fun n => child reached n.text
  else []

/-- The paths to be tried next for the piece. -/
def pieceStep (t : FileTree) (reached : Path) (pattern : Pattern) : List Path :=
  match pattern.literal? with
  | some name => literalStep t reached (String.ofList name)
  | none => listingStep t reached pattern

/-- The paths below the path reached that the pieces stand for. -/
def search (t : FileTree) : List Pattern → Path → List Path
  | [], reached => [reached]
  | pattern :: patterns, reached =>
    (pieceStep t reached pattern).flatMap (search t patterns)

/-- The paths of the tree that the pattern stands for. -/
def Query.run (t : FileTree) (q : Query) : List Path :=
  (search t q.pieces q.scope).filter fun p => !q.wantsDirectory || t.isDirectory p

/-- The files of the tree that the pattern stands for, through links. -/
def findFiles (t : FileTree) (text : String) : Except BadClass (List Path) := do
  let q ← Query.ofText text
  return (q.run t).filter t.isFile

end ConfTree.Glob
