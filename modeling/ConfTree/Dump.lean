import ConfTree.Census
import ConfTree.Parser
import ConfTree.Text.Literal

/-!
# Showing a configuration

The tree of a configuration is shown with one statement per line, indented by its
blocks, and behind each statement a comment with the place it comes from. Below
the tree stand its counts and its files. A fault is shown by all its parts.
-/

namespace ConfTree.Dump

def indentStep : Nat := 4

def spaces (n : Nat) : String := String.ofList (List.replicate n ' ')

def origin (head : Statement) : String := s!"    # {head.file}:{head.line}"

mutual

def lines (indent : Nat) : Directive → List String
  | .simple head => [spaces indent ++ " ".intercalate head.params ++ ";" ++ origin head]
  | .block head body =>
    [spaces indent ++ " ".intercalate head.params ++ " \x7b" ++ origin head] ++
      linesAll (indent + indentStep) body ++ [spaces indent ++ "\x7d"]

def linesAll (indent : Nat) : List Directive → List String
  | [] => []
  | d :: ds => lines indent d ++ linesAll indent ds

end

def unlines (ls : List String) : String := String.join (ls.map (· ++ "\n"))

def treeText (ds : List Directive) : String := unlines (linesAll 0 ds)

def censusLines (c : Census) : List String :=
  [s!"directives: {c.directives}", s!"blocks:     {c.blocks}", s!"max depth:  {c.maxDepth}",
   s!"files:      {c.files.length}"] ++ c.files.map ("  " ++ ·)

def optional : Option String → String
  | none => "None"
  | some text => "Some(" ++ Literal.encode text ++ ")"

def record (f : Fault) : String :=
  "ConfError \x7b kind: " ++ f.kind.name ++ ", message: " ++ Literal.encode f.message ++
    ", location: Location \x7b file: " ++ Literal.encode f.place.file ++
    ", line: " ++ toString f.place.line ++ " \x7d, context: " ++ optional f.context ++ " \x7d"

/-- What a command leaves behind. -/
structure Outcome where
  output : String := ""
  errors : String := ""
  /-- The exit code; zero if all went well. -/
  code : Nat := 0
  deriving DecidableEq

def Outcome.failed (error : String) : Outcome :=
  { errors := "Error: " ++ error ++ "\n", code := 1 }

def usage : String := "usage: dump_config <file> [root]"

/-- Where includes of the file are looked for if nothing else is said. -/
def defaultRoot (file : Path) : Path := file.parent?.getD ⟨""⟩

/-- What the arguments of the command ask for: a file and, if it is not the
directory of the file, a root. -/
def request? : (args : List String) → Option (Path × Settings)
  | [] => none
  | [file] => some (⟨file⟩, { layout := Layout.ofRoot (defaultRoot ⟨file⟩) })
  | file :: root :: _ => some (⟨file⟩, { layout := Layout.ofRoot ⟨root⟩ })

def showTree (ds : List Directive) : String :=
  treeText ds ++ unlines ("" :: censusLines (Census.ofTree ds))

def run (t : FileTree) (args : List String) : Outcome :=
  match request? args with
  | none => .failed (Literal.encode usage)
  | some (file, s) =>
    match parseFile t s file with
    | .error f => .failed (record f)
    | .ok ds => { output := showTree ds }

end ConfTree.Dump
