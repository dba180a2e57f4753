import ConfTree.Text.Hidden

/-!
# Texts in quotes

A text is shown between double quotes, with a backslash before a quote and before
a backslash, with the usual letters for tab, line feed, carriage return and NUL,
and with the code points of characters that could not be told apart by eye.
-/

namespace ConfTree.Literal

/-- The digits of the number in base sixteen. -/
def hex (n : Nat) : List Char := Nat.toDigits 16 n

def encodeChar (c : Char) : List Char :=
  if c = '\x00' then ['\\', '0']
  else if c = '\t' then ['\\', 't']
  else if c = '\n' then ['\\', 'n']
  else if c = '\r' then ['\\', 'r']
  else if c = '\x22' then ['\\', '\x22']
  else if c = '\\' then ['\\', '\\']
  else if isHidden c then ['\\', 'u', '\x7b'] ++ hex c.toNat ++ ['\x7d']
  else [c]

def encode (text : String) : String :=
  String.ofList ('\x22' :: text.toList.flatMap encodeChar ++ ['\x22'])

end ConfTree.Literal
