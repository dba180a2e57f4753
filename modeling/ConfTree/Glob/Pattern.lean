/-!
# Glob patterns

In a pattern `?` stands for any character, `*` for any text, and a class in
brackets for one character that is in it (or, after `!`, not in it); all else
stands for itself. A bracket that opens no class is an error.

`escape` writes a text so that it stands for itself, with every character that
could have a meaning in a class of its own.
-/

namespace ConfTree.Glob

/-- Part of a class. -/
inductive Member where
  | single (c : Char)
  /-- The characters between two, by code point. -/
  | range (first last : Char)
  deriving DecidableEq

def Member.contains : Member → Char → Bool
  | single d, c => c == d
  | range first last, c => first ≤ c && c ≤ last

/-- Part of a pattern. -/
inductive Item where
  | char (c : Char)
  | any
  | many
  /-- A character of the class, or if `negated` one outside it. -/
  | oneOf (negated : Bool) (members : List Member)
  deriving DecidableEq

/-- A pattern in parts. -/
abbrev Pattern := List Item

/-- Where a pattern has a bracket that opens no class, in characters from the
start. -/
structure BadClass where
  position : Nat
  deriving DecidableEq

def BadClass.message (e : BadClass) : String :=
  s!"Pattern syntax error near position {e.position}: invalid range pattern"

/-- Reads the inside of a class: three characters with `-` in the middle are a
range. -/
def members : List Char → List Member
  | a :: '-' :: b :: rest => .range a b :: members rest
  | a :: rest => .single a :: members rest
  | [] => []

/-- The text up to the first `]`, and the text behind it. -/
def uptoBracket : List Char → Option (List Char × List Char)
  | [] => none
  | ']' :: rest => some ([], rest)
  | c :: rest => (uptoBracket rest).map fun r => (c :: r.1, r.2)

theorem uptoBracket_length {text inside rest : List Char}
    (h : uptoBracket text = some (inside, rest)) :
    text.length = inside.length + 1 + rest.length := by
  fun_induction uptoBracket text generalizing inside rest with
  | case1 => cases h
  | case2 r => cases h; simp [Nat.add_comm]
  | case3 c r _ ih =>
    obtain ⟨⟨i, s⟩, hr, he⟩ := Option.map_eq_some_iff.mp h
    cases he
    simp [ih hr]
    omega

/-- Reads a class behind its opening bracket: the item and the text behind the
closing bracket. The class holds at least one character, so that a `]` in front
is part of it. -/
def classItem? : List Char → Option (Item × List Char)
  | '!' :: c :: rest =>
    (uptoBracket rest).map fun r => (.oneOf true (members (c :: r.1)), r.2)
  | '!' :: [] => none
  | c :: rest => (uptoBracket rest).map fun r => (.oneOf false (members (c :: r.1)), r.2)
  | [] => none

theorem classItem?_length {text rest : List Char} {item : Item}
    (h : classItem? text = some (item, rest)) : rest.length < text.length := by
  unfold classItem? at h
  split at h
  · obtain ⟨r, hr, he⟩ := Option.map_eq_some_iff.mp h
    cases he
    have := uptoBracket_length hr
    simp; omega
  · cases h
  · obtain ⟨r, hr, he⟩ := Option.map_eq_some_iff.mp h
    cases he
    have := uptoBracket_length hr
    simp; omega
  · cases h

/-- Reads a pattern that starts `position` characters into its text. -/
def compileAt (position : Nat) : List Char → Except BadClass Pattern
  | [] => .ok []
  | c :: rest =>
    if c = '?' then do return .any :: (← compileAt (position + 1) rest)
    else if c = '*' then do return .many :: (← compileAt (position + 1) rest)
    else if c = '[' then
      match _h : classItem? rest with
      | none => .error ⟨position⟩
      | some (item, behind) => do
        return item :: (← compileAt (position + 1 + (rest.length - behind.length)) behind)
    else do return .char c :: (← compileAt (position + 1) rest)
termination_by text => text.length
decreasing_by
  · exact Nat.lt_succ_self _
  · exact Nat.lt_succ_self _
  · exact Nat.lt_succ_of_lt (classItem?_length _h)
  · exact Nat.lt_succ_self _

def compile (text : List Char) : Except BadClass Pattern :=
  compileAt 0 text

/-- The test holds of what is left of the text after some number of
characters. -/
def anySuffix (test : List Char → Bool) : List Char → Bool
  | [] => test []
  | c :: rest => test (c :: rest) || anySuffix test rest

/-- The item stands for the one character. -/
def Item.admits : Item → Char → Bool
  | char d, c => c == d
  | any, _ => true
  | many, _ => true
  | oneOf negated members, c => (members.any fun m => m.contains c) != negated

/-- The pattern stands for the text. -/
def Pattern.matches : Pattern → List Char → Bool
  | [], text => text.isEmpty
  | .many :: items, text => anySuffix (Pattern.matches items) text
  | _ :: _, [] => false
  | item :: items, c :: text => item.admits c && Pattern.matches items text

/-- The text that the pattern stands for, if no item leaves a choice. -/
def Pattern.literal? : Pattern → Option (List Char)
  | [] => some []
  | .char c :: items => (Pattern.literal? items).map (c :: ·)
  | _ :: _ => none

/-- The character can have a meaning in a pattern. -/
def isMeta (c : Char) : Bool :=
  c == '?' || c == '*' || c == '[' || c == ']'

/-- Writes the text so that it stands for itself. -/
def escape (text : String) : String :=
  String.ofList (text.toList.flatMap fun c => if isMeta c then ['[', c, ']'] else [c])

end ConfTree.Glob
