import ConfTree.Lexer

/-!
# Reading a text in one pass

A scan takes a text character by character, and its state says all that the
characters so far have decided. It makes the same tokens as a lexer, which stops
at each token and starts anew behind it.

`Scan.quote` tells whether a text breaks off inside a quoted text.
-/

namespace ConfTree

/-- What the characters of a text have decided so far. -/
structure Scan where
  file : String
  /-- The line of the next character, counted from one. -/
  line : Nat := 1
  /-- Whether the next character is inside a comment. -/
  inComment : Bool := false
  /-- The quote that the next character is inside of. -/
  quote : Option Char := none
  /-- Whether a backslash inside quotes is not counted in yet. -/
  escaped : Bool := false
  /-- The line on which the word began. -/
  start : Nat := 1
  /-- The word, its last character first. -/
  word : List Char := []
  /-- The tokens, the last one first. -/
  done : List Token := []
  deriving DecidableEq

namespace Scan

/-- Ends the word, if there is one. -/
def flush (s : Scan) : Scan :=
  match Lexer.wordToken? s.file s.start s.word with
  | none => s
  | some t => { s with word := [], done := t :: s.done }

def pushQuoted (s : Scan) (quote c : Char) : Scan :=
  if !s.escaped && c == '\\' then { s with escaped := true }
  else if !s.escaped && c == quote then
    { s with
      quote := none
      word := []
      done := ⟨s.file, s.start, String.ofList s.word.reverse⟩ :: s.done }
  else
    let word := if s.escaped && c != quote then '\\' :: s.word else s.word
    { s with escaped := false, line := Lexer.lineAfter s.line c, word := c :: word }

def pushBare (s : Scan) (c : Char) : Scan :=
  if isBlank c then
    if c = '\r' then s
    else
      flush { s with
        line := Lexer.lineAfter s.line c
        inComment := s.inComment && c != '\n' }
  else if s.inComment then s
  else if c = ';' then
    let s := s.flush
    { s with done := ⟨s.file, s.line, ";"⟩ :: s.done }
  else if c = '#' then { s with inComment := true }
  else if s.word.isEmpty then
    if Lexer.isQuote c then { s with quote := some c, start := s.line }
    else { s with start := s.line, word := [c] }
  else { s with word := c :: s.word }

def push (s : Scan) (c : Char) : Scan :=
  match s.quote with
  | some quote => s.pushQuoted quote c
  | none => s.pushBare c

def pushAll (s : Scan) (text : List Char) : Scan := text.foldl push s

/-- The tokens if the text ends here. -/
def tokens (s : Scan) : List Token := s.flush.done.reverse

def ofText (file : String) (text : List Char) : Scan := pushAll { file } text

theorem pushAll_append (s : Scan) (u v : List Char) :
    s.pushAll (u ++ v) = (s.pushAll u).pushAll v := by
  simp [pushAll]

end Scan

end ConfTree
