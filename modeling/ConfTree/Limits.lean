/-!
# Limits

How much one reading of a configuration may take. Each limit is the greatest
value that is still allowed.
-/

namespace ConfTree

/-- The greatest sizes and counts that are allowed. -/
structure Limits where
  /-- Bytes of a text or of a file. -/
  fileSize : Nat := 16777216
  /-- Blocks around a directive. -/
  blockDepth : Nat := 64
  /-- Files that an include leads through, the first text not counted. -/
  includeDepth : Nat := 32
  /-- Files that one include stands for. -/
  includeFiles : Nat := 1024
  /-- Tokens of the text with its includes expanded. -/
  tokens : Nat := 10000000
  deriving DecidableEq, Inhabited

namespace Limits

/-- The greatest count that a machine word of 64 bits holds. -/
def maxWord : Nat := 18446744073709551615

/-- Limits that nothing in memory can reach. -/
def unlimited : Limits :=
  { fileSize := maxWord, blockDepth := maxWord, includeDepth := maxWord,
    includeFiles := maxWord, tokens := maxWord }

/-- No limit of the first is greater than that of the second. -/
def Within (l m : Limits) : Prop :=
  l.fileSize ≤ m.fileSize ∧ l.blockDepth ≤ m.blockDepth ∧ l.includeDepth ≤ m.includeDepth ∧
    l.includeFiles ≤ m.includeFiles ∧ l.tokens ≤ m.tokens

instance (l m : Limits) : Decidable (Within l m) := by
  unfold Within
  infer_instance

def zero : Limits :=
  { fileSize := 0, blockDepth := 0, includeDepth := 0, includeFiles := 0, tokens := 0 }

/-- Limits that allow what either allows. -/
def either (l m : Limits) : Limits where
  fileSize := max l.fileSize m.fileSize
  blockDepth := max l.blockDepth m.blockDepth
  includeDepth := max l.includeDepth m.includeDepth
  includeFiles := max l.includeFiles m.includeFiles
  tokens := max l.tokens m.tokens

theorem zero_within (l : Limits) : zero.Within l := by
  simp [Within, zero]

theorem either_within {l m n : Limits} : (l.either m).Within n ↔ l.Within n ∧ m.Within n := by
  simp only [Within, either, Nat.max_le]
  grind

def describe (l : Limits) : String :=
  "Limits \x7b max_file_size: " ++ toString l.fileSize ++
    ", max_block_depth: " ++ toString l.blockDepth ++
    ", max_include_depth: " ++ toString l.includeDepth ++
    ", max_include_files: " ++ toString l.includeFiles ++
    ", max_tokens: " ++ toString l.tokens ++ " \x7d"

end Limits

end ConfTree
