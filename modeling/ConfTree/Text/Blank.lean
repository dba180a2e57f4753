/-!
# Blank characters

The blanks that separate words are the characters with the Unicode property
`White_Space`: six ASCII controls and spaces, and nineteen others. The table
lists them as ranges of code points.
-/

namespace ConfTree

/-- The code points with the property `White_Space`, as closed ranges in
ascending order. -/
def blankRanges : List (Nat × Nat) :=
  [(0x9, 0xD), (0x20, 0x20), (0x85, 0x85), (0xA0, 0xA0), (0x1680, 0x1680),
   (0x2000, 0x200A), (0x2028, 0x2029), (0x202F, 0x202F), (0x205F, 0x205F),
   (0x3000, 0x3000)]

/-- The character separates words. -/
def isBlank (c : Char) : Bool :=
  blankRanges.any fun r => r.1 ≤ c.toNat && c.toNat ≤ r.2

end ConfTree
