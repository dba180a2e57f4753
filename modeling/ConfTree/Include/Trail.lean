import ConfTree.Fault

/-!
# Trails

A trail lists the files that an include leads through: the first text, the file
that its include names, a file that this one includes, and so on. Files are listed
by identity. So a file is known again whatever path leads to it, unless it has no
canonical path from there.

`enter_eq_ok_iff`: exactly the files that are not on the trail can be entered,
as long as the trail is not too long.
-/

namespace ConfTree

/-- What a path stands for: its canonical path if there is one, and otherwise
itself, be it that it leads nowhere or too deep. -/
def FileTree.identity (t : FileTree) (p : Path) : Path :=
  (t.canonical? p).getD p

/-- The files that an include leads through, from the outermost inwards. -/
structure Trail where
  /-- The text that was read first. -/
  source : Path
  /-- The files that were entered since. -/
  entered : List Path := []
  deriving DecidableEq

namespace Trail

/-- The trail of a text that is read first. -/
def ofSource (t : FileTree) (source : Path) : Trail :=
  { source := t.identity source }

def files (c : Trail) : List Path := c.source :: c.entered

def depth (c : Trail) : Nat := c.entered.length

def mentions (c : Trail) (key : Path) : Bool := c.files.any fun file => file.same key

/-- The trails lead through the same files. -/
def same (c d : Trail) : Bool :=
  c.files.map Path.components == d.files.map Path.components

def describe (c : Trail) : String := " -> ".intercalate (c.files.map Path.text)

/-- The trail that leads one file further. -/
def extend (c : Trail) (key : Path) : Trail := { c with entered := c.entered ++ [key] }

/-- Enters a file: it must not be on the trail, which must not exceed `maxDepth`
entered files. -/
def enter (t : FileTree) (c : Trail) (p : Path) (maxDepth : Nat) : Except Fault Trail :=
  let key := t.identity p
  if c.mentions key then .error { cause := .alreadyIncluded p c.describe key }
  else if maxDepth ≤ c.depth then .error { cause := .includesTooDeep p maxDepth }
  else .ok (c.extend key)

theorem enter_eq_ok_iff {t : FileTree} {c d : Trail} {p : Path} {maxDepth : Nat} :
    c.enter t p maxDepth = .ok d ↔
      c.mentions (t.identity p) = false ∧ c.depth < maxDepth ∧ d = c.extend (t.identity p) := by
  unfold enter
  by_cases hm : c.mentions (t.identity p) = true
  · simp [hm]
  · by_cases hd : maxDepth ≤ c.depth
    · simp [hm, hd, Nat.not_lt.mpr hd]
    · simp [hm, hd, Nat.not_le.mp hd, eq_comm]

theorem mentions_extend {c : Trail} {key other : Path} :
    (c.extend key).mentions other = (c.mentions other || key.same other) := by
  simp [mentions, files, extend, List.any_append, Bool.or_assoc]

end Trail

end ConfTree
