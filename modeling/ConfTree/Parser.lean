import ConfTree.Parser.Descent

/-!
# Reading a configuration

A configuration is read from tokens, from bytes or from a file. In each case its
text has a name, which starts the trail of its includes.
-/

namespace ConfTree

/-- Reads directives from tokens that belong to a text named `source`. -/
def parseFrom (t : FileTree) (s : Settings) (source : String) (tokens : List Token) :
    Except Fault (List Directive) :=
  if s.limits.tokens < tokens.length then
    .error { cause := .tooManyTokens tokens.length s.limits.tokens }
  else (Descent.run t s (Descent.ofTokens t source tokens)).answer

def parseTokens (t : FileTree) (s : Settings) (tokens : List Token) :
    Except Fault (List Directive) :=
  parseFrom t s s.sourceName tokens

def parse (t : FileTree) (s : Settings) (bytes : List UInt8) : Except Fault (List Directive) :=
  if s.limits.fileSize < bytes.length then
    .error
      { cause := .inputTooLong bytes.length s.limits.fileSize, place := { file := s.sourceName } }
  else parseFrom t s s.sourceName (tokenize s.sourceName bytes)

/-- Reads directives from a file of the tree. -/
def parseFile (t : FileTree) (s : Settings) (p : Path) : Except Fault (List Directive) := do
  parseFrom t s p.text (← load t s.limits p)

end ConfTree
