/-!
# Tokens

A token is a word, a quoted text or a lone `;`, with the place it was read at.
Quotes leave no mark on a token, so the marks that close a statement or delimit
a block are recognised by their text alone.
-/

namespace ConfTree

/-- A piece of a configuration text, stamped with the place of its first
character (the opening quote of a quoted text). -/
structure Token where
  /-- The name of the text it was read from. -/
  file : String
  /-- Its line, counted from one. -/
  line : Nat
  /-- What it says, without quotes and without the escapes of quotes. -/
  text : String
  deriving DecidableEq, Inhabited

namespace Token

def endsStatement (t : Token) : Bool := t.text == ";"

def opensBlock (t : Token) : Bool := t.text == "\x7b"

/-- The token closes a block, where a statement may start. -/
def closesBlock (t : Token) : Bool := t.text == "\x7d"

/-- The token asks for other files, where a statement starts. -/
def isInclude (t : Token) : Bool := t.text == "include"

def isMark (t : Token) : Bool := t.endsStatement || t.opensBlock || t.closesBlock

end Token

end ConfTree
