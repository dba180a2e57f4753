import ConfTree.Text.Blank
import ConfTree.Text.Utf8
import ConfTree.Token

/-!
# Reading tokens

A lexer hands out the tokens of a text one by one. Between two tokens it keeps
the text still to be read, the line reached, and whether it is inside a comment;
a word and a quoted text always end within one call.

* Blanks end a word; a carriage return does not.
* `#` starts a comment, which lasts to the end of the line. A word that it
  touches goes on until the next blank, without what the comment holds.
* `;` ends a word and is a token itself.
* A quote where a word would start opens a quoted text, which its like closes.
  Inside, a backslash before that quote escapes it and any other backslash
  stays.
* Braces are ordinary characters.

`next_rest_suffix`, `next_rest_lt`: a call takes characters from the front of the
text, and at least one if it returns a token, so that collecting the tokens
(`tokens`) comes to an end.
-/

namespace ConfTree

/-- The state between two tokens. -/
structure Lexer where
  file : String
  rest : List Char
  /-- The line of the next character, counted from one. -/
  line : Nat := 1
  /-- Whether the next character is inside a comment. -/
  inComment : Bool := false
  deriving DecidableEq

namespace Lexer

/-- The character opens a quoted text where a word would start. -/
def isQuote (c : Char) : Bool := c == '\x22' || c == '\x27'

def lineAfter (line : Nat) (c : Char) : Nat := if c = '\n' then line + 1 else line

/-- The token whose characters were read last first, or nothing if there are
none. -/
def wordToken? (file : String) (start : Nat) (word : List Char) : Option Token :=
  if word.isEmpty then none else some ⟨file, start, String.ofList word.reverse⟩

/-- Reads on inside a text quoted by `quote`, which began on line `start` and so
far has the characters `word`, last first; `escaped` after a backslash that is
not yet counted in. A text that is never closed counts unless it is empty, and a
backslash at its very end is lost. -/
def quoted (file : String) (quote : Char) (start : Nat) :
    (line : Nat) → (escaped : Bool) → (word : List Char) → List Char → Option Token × Lexer
  | line, _, word, [] => (wordToken? file start word, { file, rest := [], line })
  | line, escaped, word, c :: rest =>
    if !escaped && c == '\\' then quoted file quote start line true word rest
    else if !escaped && c == quote then
      (some ⟨file, start, String.ofList word.reverse⟩, { file, rest, line })
    else
      let word := if escaped && c != quote then '\\' :: word else word
      quoted file quote start (lineAfter line c) false (c :: word) rest

/-- Reads on outside quotes. The word that is being read began on line `start`
and so far has the characters `word`, last first. -/
def bare (file : String) :
    (line : Nat) → (inComment : Bool) → (start : Nat) → (word : List Char) → List Char →
      Option Token × Lexer
  | line, inComment, start, word, [] =>
    (wordToken? file start word, { file, rest := [], line, inComment })
  | line, inComment, start, word, c :: rest =>
    if isBlank c then
      if c = '\r' then bare file line inComment start word rest
      else
        let after := lineAfter line c
        let inComment := inComment && c != '\n'
        if word.isEmpty then bare file after inComment start word rest
        else (wordToken? file start word, { file, rest, line := after, inComment })
    else if inComment then bare file line inComment start word rest
    else if c = ';' then
      if word.isEmpty then (some ⟨file, line, ";"⟩, { file, rest, line, inComment })
      else (wordToken? file start word, { file, rest := c :: rest, line, inComment })
    else if c = '#' then bare file line true start word rest
    else if word.isEmpty then
      if isQuote c then quoted file c line line false [] rest
      else bare file line inComment line [c] rest
    else bare file line inComment start (c :: word) rest

/-- The next token, if there is one, and the lexer behind it. -/
def next (l : Lexer) : Option Token × Lexer :=
  bare l.file l.line l.inComment l.line [] l.rest

/-- A call takes characters from the front of the text only. -/
theorem quoted_rest_suffix (file : String) (quote : Char) (start line : Nat) (escaped : Bool)
    (word rest : List Char) :
    (quoted file quote start line escaped word rest).2.rest <:+ rest := by
  fun_induction quoted file quote start line escaped word rest with
  | case1 => exact List.suffix_rfl
  | case2 _ _ _ _ _ _ ih => exact ih.trans (List.suffix_cons ..)
  | case3 => exact List.suffix_cons ..
  | case4 _ _ _ _ _ _ _ _ ih => exact ih.trans (List.suffix_cons ..)

theorem bare_rest_suffix (file : String) (line : Nat) (inComment : Bool) (start : Nat)
    (word rest : List Char) :
    (bare file line inComment start word rest).2.rest <:+ rest := by
  fun_induction bare file line inComment start word rest with
  | case1 | case7 => exact List.suffix_rfl
  | case4 | case6 => exact List.suffix_cons ..
  | case9 => exact (quoted_rest_suffix ..).trans (List.suffix_cons ..)
  | case2 | case3 | case5 | case8 | case10 | case11 =>
    rename_i ih
    exact ih.trans (List.suffix_cons ..)

theorem next_rest_suffix (l : Lexer) : l.next.2.rest <:+ l.rest := bare_rest_suffix ..

theorem bare_rest_length_lt {file : String} {line : Nat} {inComment : Bool} {start : Nat}
    {word rest : List Char} {t : Token} (hw : word.isEmpty = true)
    (h : (bare file line inComment start word rest).1 = some t) :
    (bare file line inComment start word rest).2.rest.length < rest.length := by
  fun_induction bare file line inComment start word rest with
  | case1 => simp [wordToken?, hw] at h
  | case2 _ _ _ _ _ _ ih => exact Nat.lt_succ_of_lt (ih hw h)
  | case3 _ _ _ _ _ _ _ _ _ _ _ ih => exact Nat.lt_succ_of_lt (ih hw h)
  | case4 => exact absurd hw (by assumption)
  | case5 _ _ _ _ _ _ ih => exact Nat.lt_succ_of_lt (ih hw h)
  | case6 => exact Nat.lt_succ_self _
  | case7 => exact absurd hw (by assumption)
  | case8 _ _ _ _ _ _ _ _ ih => exact Nat.lt_succ_of_lt (ih hw h)
  | case9 => exact Nat.lt_succ_of_le (quoted_rest_suffix ..).length_le
  | case10 => exact Nat.lt_succ_of_le (bare_rest_suffix ..).length_le
  | case11 => exact absurd hw (by assumption)

/-- A call that returns a token leaves less text to be read. -/
theorem next_rest_lt {l : Lexer} {t : Token} (h : l.next.1 = some t) :
    l.next.2.rest.length < l.rest.length :=
  bare_rest_length_lt rfl h

/-- Collects the tokens that remain behind those in `read`, whose last token
comes first; the lexer returned has none left. -/
def drainOnto (read : List Token) (l : Lexer) : List Token × Lexer :=
  match _h : l.next.1 with
  | none => (read.reverse, l.next.2)
  | some t => drainOnto (t :: read) l.next.2
termination_by l.rest.length
decreasing_by exact next_rest_lt _h

/-- Collects the tokens that remain; the lexer returned has none left. -/
def drain (l : Lexer) : List Token × Lexer :=
  drainOnto [] l

def tokens (l : Lexer) : List Token :=
  l.drain.1

def ofText (file : String) (text : List Char) : Lexer :=
  { file, rest := text }

/-- A lexer at the start of a text given as bytes. -/
def ofBytes (file : String) (bytes : List UInt8) : Lexer :=
  ofText file (Utf8.decode bytes)

end Lexer

/-- The tokens of a text that goes by the name `file`. -/
def tokenize (file : String) (bytes : List UInt8) : List Token :=
  (Lexer.ofBytes file bytes).tokens

end ConfTree
