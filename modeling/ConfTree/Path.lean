/-!
# Paths

A path keeps its text as it was written. What it means is the list of its
components: a leading `/` is the root, names and `..` count, and of `.` only the
one in front of a relative path does. Repeated and trailing separators count for
nothing, so paths are compared by their components (`Path.same`).

Operations on the text:
* `join` puts a path behind another, unless it is absolute;
* `parent` drops the last component and what surrounds it;
* `clean` resolves `.` and `..` without looking at any file;
* `stripRoot` makes a path relative.
-/

namespace ConfTree

/-- The text can name an entry of a directory. -/
def isName (text : String) : Bool :=
  text != "" && text != "." && text != ".." && !text.toList.contains '/'

/-- The name of an entry of a directory. -/
structure Name where
  text : String
  /-- It is neither empty nor `.` nor `..`, and free of separators. -/
  isName : ConfTree.isName text = true
  deriving DecidableEq

namespace Name

def ofString? (text : String) : Option Name :=
  if h : ConfTree.isName text = true then some ⟨text, h⟩ else none

theorem ofString?_text (n : Name) : ofString? n.text = some n := by
  simp [ofString?, n.isName]

theorem text_of_ofString? {text : String} {n : Name} (h : ofString? text = some n) :
    n.text = text := by
  unfold ofString? at h
  split at h
  · cases h; rfl
  · cases h

end Name

/-- A step that a path prescribes. -/
inductive Component where
  | root
  | here
  | up
  | name (n : Name)
  deriving DecidableEq

namespace Component

def text : Component → String
  | root => "/"
  | here => "."
  | up => ".."
  | name n => n.text

/-- Reads what stands between two separators; nothing and `.` prescribe no
step. -/
def ofPiece? (piece : List Char) : Option Component :=
  if String.ofList piece = ".." then some up
  else (Name.ofString? (String.ofList piece)).map name

end Component

/-- The path of a file, as it was written. -/
structure Path where
  text : String
  deriving DecidableEq, Inhabited

namespace Path

instance : ToString Path := ⟨Path.text⟩

/-- What stands between the separators of the path. -/
def pieces (p : Path) : List (List Char) :=
  p.text.toList.splitOn '/'

def isAbsolute (p : Path) : Bool :=
  p.text.toList.head? == some '/'

/-- The steps that the path prescribes. -/
def components (p : Path) : List Component :=
  let body := p.pieces.filterMap Component.ofPiece?
  if p.isAbsolute then .root :: body
  else if p.pieces.head? = some ['.'] then .here :: body
  else body

/-- The paths prescribe the same steps. -/
def same (p q : Path) : Bool :=
  p.components == q.components

/-- The path `child` as seen from `base`. -/
def join (base child : Path) : Path :=
  if child.isAbsolute || base.text == "" then child
  else if base.text.toList.getLast? == some '/' then ⟨base.text ++ child.text⟩
  else ⟨base.text ++ "/" ++ child.text⟩

/-- The path that goes on from another by a list of components. -/
def extend (base : Path) (cs : List Component) : Path :=
  cs.foldl (fun p c => p.join ⟨c.text⟩) base

/-- The plain text of a list of components. -/
def ofComponents (cs : List Component) : Path := extend ⟨""⟩ cs

/-- Takes one more component onto those kept so far, the last of which comes
first: `..` cancels a name, and is nothing right behind the root. -/
def settle (kept : List Component) : Component → List Component
  | .here => kept
  | .up =>
    match kept with
    | .name _ :: before => before
    | .root :: _ => kept
    | _ => .up :: kept
  | c => c :: kept

/-- The components of the path with `.` and `..` resolved as far as its text
allows. -/
def settled (p : Path) : List Component :=
  (p.components.foldl settle []).reverse

/-- The path with `.` and `..` resolved as far as its text allows; `.` if nothing
is left. -/
def clean (p : Path) : Path :=
  if p.settled.isEmpty then ⟨"."⟩ else ofComponents p.settled

def stripRoot (p : Path) : Path :=
  ofComponents (p.components.filter (· != .root))

/-- The piece stands for no component, unless it is a `.` in front. -/
def isIdle (piece : List Char) : Bool :=
  piece.isEmpty || piece == ['.']

/-- The pieces up to the last that stands for a component. -/
def trimEnd : List (List Char) → List (List Char)
  | [] => []
  | first :: others =>
    match (others.reverse.dropWhile isIdle).reverse with
    | [] => if first.isEmpty then [] else [first]
    | others => first :: others

/-- The path without its last component; none for the root and the empty
path. -/
def parent? (p : Path) : Option Path :=
  match trimEnd p.pieces with
  | [] => none
  | pieces =>
    match trimEnd pieces.dropLast with
    | [] => some ⟨if p.isAbsolute then "/" else ""⟩
    | above => some ⟨String.ofList (['/'].intercalate above)⟩

end Path

end ConfTree
