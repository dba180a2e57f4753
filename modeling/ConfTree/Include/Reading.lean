import ConfTree.Include.Expansion
import ConfTree.Walk.Trace

/-!
# Where the tokens of an expanded stream were read

A text is read when it is given to the parser, and a file each time that an include leads
to it. Readings are numbered in the order in which they are made, and every token of a
stream keeps the number of the reading that it comes from, whatever other tokens it
stands between once all includes are expanded.

`starters` picks the tokens that start the statements of a stream.
-/

namespace ConfTree

namespace Include

/-- A text that is read. -/
structure Reading where
  /-- The name that its tokens carry. -/
  file : String
  bytes : List UInt8
  deriving DecidableEq

namespace Reading

def tokens (r : Reading) : List Token := tokenize r.file r.bytes

/-- The reading of a file, which goes by the path that leads to it. -/
def ofFile? (t : FileTree) (p : Path) : Option Reading :=
  match t.stat p with
  | .ok (.file content _) => some { file := p.text, bytes := content.bytes }
  | _ => none

end Reading

/-- A token and the number of the reading that it comes from. -/
structure Numbered where
  token : Token
  reading : Nat
  deriving DecidableEq

/-- The tokens of several readings, the first of which has the number `first`. -/
def number (first : Nat) : List Reading → List Numbered
  | [] => []
  | r :: rs => r.tokens.map (fun token => { token, reading := first }) ++ number (first + 1) rs

/-- `Unfolds t s made atStart pending all flat`: when the readings `made` have been made,
expanding the includes of `pending` gives `flat`, and all readings are then `all`.

* `nil`: nothing is left to expand.
* `pass`: a token that is no include where a statement starts stays.
* `splice`: an include gives way to the tokens of the files that its argument stands for,
  each of which is read anew. -/
inductive Unfolds (t : FileTree) (s : Settings) :
    List Reading → Bool → List Numbered → List Reading → List Numbered → Prop
  | nil {made : List Reading} {atStart : Bool} : Unfolds t s made atStart [] made []
  | pass {made all : List Reading} {atStart : Bool} {first : Numbered}
      {rest flat : List Numbered} :
      (atStart && first.token.isInclude) = false →
      Unfolds t s made (startsBehind atStart first.token) rest all flat →
      Unfolds t s made atStart (first :: rest) all (first :: flat)
  | splice {made new all : List Reading} {first argument : Numbered}
      {rest flat : List Numbered} {files : List Path} :
      first.token.isInclude = true → argument.token.isMark = false →
      resolve t s.layout argument.token.text = .ok files →
      files.mapM (Reading.ofFile? t) = some new →
      Unfolds t s (made ++ new) true (number made.length new ++ rest) all flat →
      Unfolds t s made true (first :: argument :: rest) all flat

/-- What starts a statement in a stream, from whether a statement starts at its front. -/
def starters {α : Type} (token : α → Token) (atStart : Bool) : List α → List α
  | [] => []
  | x :: xs =>
    let behind := starters token (startsBehind atStart (token x)) xs
    if atStart && !(token x).isMark then x :: behind else behind

end Include

/-- The first word of the directive, as the token it was. -/
def Directive.opening (d : Directive) : Token := token d.head d.name

/-- The directives that are visited on a walk and start with a token of the reading `n`, when
their first words are what starts statements in the stream. -/
def Include.visitsOf (n : Nat) (flat : List Numbered) (ds : List Directive) : List Directive :=
  (((Directive.visits ds).zip (starters Numbered.token true flat)).filter
    fun x => x.2.reading == n).map Prod.fst

/-- The directives come in the order of their lines in the text of the reading, and go by
its name. -/
structure Include.Reading.Orders (r : Reading) (ds : List Directive) : Prop where
  sorted : ds.Pairwise fun first second => first.line ≤ second.line
  file_eq : ∀ d ∈ ds, d.file = r.file
  line_pos : ∀ d ∈ ds, 1 ≤ d.line
  line_le : ∀ d ∈ ds, d.line ≤ 1 + r.bytes.count 0x0A

end ConfTree
