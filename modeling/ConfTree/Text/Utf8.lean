/-!
# Reading bytes as UTF-8 text

`decode` reads any byte sequence. A well-formed sequence of bytes becomes its
character; where no character can be read, the longest run of bytes that begins
some character is read as one replacement character, and a byte that begins
none is read as a replacement character by itself. `encode` writes the bytes of a
text.
-/

namespace ConfTree.Utf8

/-- Stands for bytes that are no character. -/
def replacement : Char := '\uFFFD'

/-- What the first byte of a character of several bytes promises. The second
byte lies between `low` and `high`, which rules out overlong forms, surrogates
and code points above the last one. -/
structure Lead where
  /-- How many bytes follow. -/
  more : Nat
  /-- The bits that the first byte contributes. -/
  bits : Nat
  /-- The least second byte. -/
  low : UInt8 := 0x80
  /-- The greatest second byte. -/
  high : UInt8 := 0xBF
  deriving DecidableEq

/-- Reads a first byte; `none` for a byte that begins no character of several
bytes. -/
def lead? (b : UInt8) : Option Lead :=
  if b < 0xC2 then none
  else if b < 0xE0 then some { more := 1, bits := b.toNat - 0xC0 }
  else if b = 0xE0 then some { more := 2, bits := 0, low := 0xA0 }
  else if b = 0xED then some { more := 2, bits := 0xD, high := 0x9F }
  else if b < 0xF0 then some { more := 2, bits := b.toNat - 0xE0 }
  else if b = 0xF0 then some { more := 3, bits := 0, low := 0x90 }
  else if b < 0xF4 then some { more := 3, bits := b.toNat - 0xF0 }
  else if b = 0xF4 then some { more := 3, bits := 4, high := 0x8F }
  else none

/-- Reads `more` following bytes, the first between `low` and `high`, and adds
their six bits each to `bits`. The character is a replacement if a byte does
not fit, and that byte is left to be read again. -/
def follow : (more : Nat) → (bits : Nat) → (low high : UInt8) → List UInt8 → Char × List UInt8
  | 0, bits, _, _, rest => (Char.ofNat bits, rest)
  | _ + 1, _, _, _, [] => (replacement, [])
  | more + 1, bits, low, high, b :: rest =>
    if low ≤ b ∧ b ≤ high then follow more (bits * 64 + (b.toNat - 0x80)) 0x80 0xBF rest
    else (replacement, b :: rest)

theorem follow_length_le (more bits : Nat) (low high : UInt8) (bytes : List UInt8) :
    (follow more bits low high bytes).2.length ≤ bytes.length := by
  fun_induction follow more bits low high bytes with
  | case1 => exact Nat.le_refl _
  | case2 => exact Nat.le_refl _
  | case3 more bits low high b rest hfit ih => exact Nat.le_succ_of_le ih
  | case4 => exact Nat.le_refl _

/-- The character that starts with the byte `b`, and the bytes behind it. -/
def first (b : UInt8) (rest : List UInt8) : Char × List UInt8 :=
  if b < 0x80 then (Char.ofNat b.toNat, rest)
  else match lead? b with
    | none => (replacement, rest)
    | some l => follow l.more l.bits l.low l.high rest

theorem first_length_le (b : UInt8) (rest : List UInt8) :
    (first b rest).2.length ≤ rest.length := by
  unfold first
  split
  · exact Nat.le_refl _
  · split
    · exact Nat.le_refl _
    · exact follow_length_le ..

/-- Reads the bytes behind the text `read`, whose last character comes first. -/
def decodeOnto (read : List Char) : List UInt8 → List Char
  | [] => read.reverse
  | b :: rest => decodeOnto ((first b rest).1 :: read) (first b rest).2
termination_by bytes => bytes.length
decreasing_by exact Nat.lt_succ_of_le (first_length_le b rest)

/-- Reads all bytes as text. -/
def decode (bytes : List UInt8) : List Char :=
  decodeOnto [] bytes

/-- Writes a text as bytes. -/
def encode (text : List Char) : List UInt8 :=
  text.flatMap String.utf8EncodeChar

/-- What holds of no bytes, and of bytes if it does of those behind their first
character, holds of all bytes. -/
theorem decode_induction {P : List UInt8 → Prop} (nil : P [])
    (cons : ∀ b rest, P (first b rest).2 → P (b :: rest)) : ∀ bytes, P bytes
  | [] => nil
  | b :: rest => cons b rest (decode_induction nil cons (first b rest).2)
termination_by bytes => bytes.length
decreasing_by exact Nat.lt_succ_of_le (first_length_le b rest)

theorem decodeOnto_eq (bytes : List UInt8) :
    ∀ read, decodeOnto read bytes = read.reverse ++ decode bytes := by
  induction bytes using decode_induction with
  | nil =>
    intro read
    simp [decode, decodeOnto]
  | cons b rest ih =>
    intro read
    rw [decode, decodeOnto, decodeOnto, ih, ih]
    simp

theorem decode_nil : decode [] = [] := by
  simp [decode, decodeOnto]

theorem decode_cons (b : UInt8) (rest : List UInt8) :
    decode (b :: rest) = (first b rest).1 :: decode (first b rest).2 := by
  rw [decode, decodeOnto, decodeOnto_eq]
  rfl

end ConfTree.Utf8
