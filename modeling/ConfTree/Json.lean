import ConfTree.Directive

/-!
# Tokens and directives as JSON

A token is an object with the fields `file`, `line` and `text`, a directive one
with `params`, `block`, `file` and `line`, where the `block` of a simple
directive is null. When they are read, other fields are passed over, and a
missing `block` is null; a list of the values of all fields, in this order, is
accepted in place of the object. Lines are whole numbers that fit a machine word.
-/

namespace ConfTree

/-- A JSON value. -/
inductive Json where
  | null
  | bool (value : Bool)
  /-- A number without a fraction and without an exponent. -/
  | integer (value : Int)
  /-- Any other number, as it is written. -/
  | decimal (text : String)
  | string (text : String)
  | array (items : List Json)
  | object (fields : List (String × Json))
  deriving Inhabited

namespace Json

/-- The greatest line that can be read. -/
def maxLine : Nat := 18446744073709551615

def field? (fields : List (String × Json)) (key : String) : Option Json := fields.lookup key

def text? : Json → Option String
  | string text => some text
  | _ => none

def line? : Json → Option Nat
  | integer (.ofNat line) => if line ≤ maxLine then some line else none
  | _ => none

def texts? : Json → Option (List String)
  | array items => items.mapM text?
  | _ => none

def ofTexts (texts : List String) : Json := array (texts.map string)

def ofToken (t : Token) : Json :=
  object [("file", string t.file), ("line", integer t.line), ("text", string t.text)]

def tokenOfParts? (file line text : Json) : Option Token := do
  return { file := ← file.text?, line := ← line.line?, text := ← text.text? }

def token? : Json → Option Token
  | object fields => do
    tokenOfParts? (← field? fields "file") (← field? fields "line") (← field? fields "text")
  | array [file, line, text] => tokenOfParts? file line text
  | _ => none

mutual

def ofDirective : Directive → Json
  | .simple head =>
    object [("params", ofTexts head.params), ("block", null), ("file", string head.file),
      ("line", integer head.line)]
  | .block head body =>
    object [("params", ofTexts head.params), ("block", array (ofDirectives body)),
      ("file", string head.file), ("line", integer head.line)]

def ofDirectives : List Directive → List Json
  | [] => []
  | d :: ds => ofDirective d :: ofDirectives ds

end

def statementOfParts? (params file line : Json) : Option Statement := do
  return { params := ← params.texts?, file := ← file.text?, line := ← line.line? }

mutual

def directive? : Json → Option Directive
  | object fields => do
    let head ← statementOfParts? (← field? fields "params") (← field? fields "file")
      (← field? fields "line")
    let body ← blockField? fields
    return .ofBody? head body
  | array [params, block, file, line] => do
    let head ← statementOfParts? params file line
    let body ← block? block
    return .ofBody? head body
  | _ => none

/-- Reads the block of a directive from its fields; it may be missing. -/
def blockField? : List (String × Json) → Option (Option (List Directive))
  | [] => some none
  | (key, value) :: fields => if key = "block" then block? value else blockField? fields

def block? : Json → Option (Option (List Directive))
  | null => some none
  | array items => (directives? items).map some
  | _ => none

def directives? : List Json → Option (List Directive)
  | [] => some []
  | item :: items => do return (← directive? item) :: (← directives? items)

end

/-- Reads a tree, which is a list of directives. -/
def tree? : Json → Option (List Directive)
  | array items => directives? items
  | _ => none

end Json

end ConfTree
