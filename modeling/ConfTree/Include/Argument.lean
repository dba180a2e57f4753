import ConfTree.Fault

/-!
# Arguments of includes

The argument of an include is a path that may be a pattern. It is refused if
looking it up could take very long: at most one `*`, at most one `?`, and a
class only by itself.
-/

namespace ConfTree.Include

/-- The text is more than a plain path. -/
def hasWildcards (pattern : String) : Bool :=
  pattern.toList.any fun c => c == '*' || c == '?' || c == '['

/-- Both brackets of a class occur, in whatever order. -/
def hasBrackets (pattern : String) : Bool :=
  pattern.toList.contains '[' && pattern.toList.contains ']'

/-- Why the pattern is refused, if it is. -/
def refusal? (pattern : String) : Option Cause :=
  let stars := pattern.toList.count '*'
  let questionMarks := pattern.toList.count '?'
  if 1 < stars then some (.secondStar pattern)
  else if 1 < questionMarks then some (.secondQuestionMark pattern)
  else if hasBrackets pattern && (0 < stars || 0 < questionMarks) then
    some (.classAndWildcard pattern)
  else none

/-- Refuses patterns that could take very long to look up. -/
def screen (pattern : String) : Except Fault Unit :=
  match refusal? pattern with
  | some cause => .error { cause }
  | none => .ok ()

end ConfTree.Include
