/-!
# Bytes that arrive in pieces

A source delivers bytes in chunks and then either ends or fails. A reader that
wants only so many bytes never learns what happens behind them.
-/

namespace ConfTree

/-- Where bytes come from. -/
structure Source where
  /-- The bytes, as they arrive. -/
  chunks : List (List UInt8)
  /-- Why nothing can be read behind them; none if they are all there is. -/
  failure : Option String := none
  deriving DecidableEq

namespace Source

/-- The source delivers the bytes at once and ends. -/
def ofBytes (bytes : List UInt8) : Source :=
  { chunks := [bytes] }

/-- All bytes that the source delivers. -/
def bytes (s : Source) : List UInt8 :=
  s.chunks.flatten

/-- Reads chunk by chunk until `wanted` bytes have arrived. -/
def readChunks (failure : Option String) :
    (wanted : Nat) → List (List UInt8) → Except String (List UInt8)
  | 0, _ => .ok []
  | _ + 1, [] =>
    match failure with
    | none => .ok []
    | some reason => .error reason
  | wanted + 1, chunk :: chunks => do
    let later ← readChunks failure (wanted + 1 - chunk.length) chunks
    return chunk.take (wanted + 1) ++ later

/-- Reads the first `wanted` bytes, or all if there are fewer. -/
def read (s : Source) (wanted : Nat) : Except String (List UInt8) :=
  readChunks s.failure wanted s.chunks

end Source

end ConfTree
