import ConfTree.Directive
import ConfTree.Lexer

/-!
# Writing a configuration

A word is written as it is if it is plain: not empty, without blanks, `;` and
`#`, and with no quote in front. Any other word is written between quotes, with a
backslash before every quote of that kind. Not every text can be written so: a
backslash before a quote would be read as its escape, so the backslashes right
before a quote, or before the end, must come in pairs.
-/

namespace ConfTree.Writer

/-- The text can be written as it is. -/
def isPlain (text : List Char) : Bool :=
  match text with
  | [] => false
  | first :: _ => !Lexer.isQuote first && text.all fun c => !isBlank c && c != ';' && c != '#'

/-- The text can be written between two quotes of this kind; `odd` if an odd
number of backslashes stands right in front of it. -/
def isQuotable (quote : Char) (odd : Bool) : List Char → Bool
  | [] => !odd
  | c :: rest =>
    if c = '\\' then isQuotable quote (!odd) rest
    else !(odd && c == quote) && isQuotable quote false rest

/-- The text with a backslash before every quote of this kind. -/
def escape (quote : Char) (text : List Char) : List Char :=
  text.flatMap fun c => if c = quote then ['\\', c] else [c]

def quoted (quote : Char) (text : List Char) : List Char :=
  quote :: escape quote text ++ [quote]

/-- The written form of a word: plain if possible, and between double quotes
rather than between single ones. None if the word cannot be written. -/
def word? (text : List Char) : Option (List Char) :=
  if isPlain text then some text
  else if isQuotable '\x22' false text then some (quoted '\x22' text)
  else if isQuotable '\x27' false text then some (quoted '\x27' text)
  else none

/-- The written form of words, set apart by spaces. -/
def words? (params : List String) : Option (List Char) := do
  return [' '].intercalate (← params.mapM fun p => word? p.toList)

mutual

def directive? : Directive → Option (List Char)
  | .simple head => do return (← words? head.params) ++ [';']
  | .block head body => do
    return (← words? head.params) ++ [' ', '\x7b', '\n'] ++ (← directives? body) ++ ['\x7d']

/-- The written form of directives, each on a line of its own. -/
def directives? : List Directive → Option (List Char)
  | [] => some []
  | d :: ds => do return (← directive? d) ++ ['\n'] ++ (← directives? ds)

end

end ConfTree.Writer
