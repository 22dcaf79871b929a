import Mathlib

/-!
# UTF-8 on byte lists

Encoding, strict decoding and lossy decoding of texts, over the character codec of the core
library. A text is a list of characters, so that every text has an encoding; a list of
bytes need not have a decoding. The lossy decoder puts the replacement character in the
place of each longest piece that starts a character and does not end one, and goes on after
it.
-/

namespace Utf8

/-- The encoding of a text. -/
def encode (s : List Char) : List UInt8 := s.flatMap String.utf8EncodeChar

variable (bytes : List UInt8)

/-- The character the bytes start with, if they start with one. -/
def decodeFirst : Option Char := bytes.toByteArray.utf8DecodeChar? 0

/-! ### Strict decoding -/

/-- Decode as many characters as there may be. -/
def decodeUpTo : ℕ → List UInt8 → Option (List Char)
  | _, [] => some []
  | 0, _ :: _ => none
  | n + 1, b :: bytes =>
    match decodeFirst (b :: bytes) with
    | none => none
    | some c => (decodeUpTo n ((b :: bytes).drop c.utf8Size)).map (c :: ·)

/-- The text the bytes encode, if they encode one. -/
def decode : Option (List Char) := decodeUpTo bytes.length bytes

/-! ### Lossy decoding -/

/-- A byte in the middle of a character. -/
def isContinuation (b : UInt8) : Bool := b &&& 0xC0 == 0x80

/-- Whether a second byte may follow the first byte of a three-byte character. -/
def secondOfThree (a b : UInt8) : Bool :=
  if a == 0xE0 then 0xA0 ≤ b && b ≤ 0xBF
  else if a == 0xED then 0x80 ≤ b && b ≤ 0x9F
  else 0x80 ≤ b && b ≤ 0xBF

/-- Whether a second byte may follow the first byte of a four-byte character. -/
def secondOfFour (a b : UInt8) : Bool :=
  if a == 0xF0 then 0x90 ≤ b && b ≤ 0xBF
  else if a == 0xF4 then 0x80 ≤ b && b ≤ 0x8F
  else 0x80 ≤ b && b ≤ 0xBF

/-- The length of the piece, at the front of bytes that start no character, that one
replacement character stands for. -/
def badPrefixLength : List UInt8 → ℕ
  | a :: b :: rest =>
    if 0xE0 ≤ a && a ≤ 0xEF then if secondOfThree a b then 2 else 1
    else if 0xF0 ≤ a && a ≤ 0xF4 then
      if secondOfFour a b then
        match rest with
        | c :: _ => if isContinuation c then 3 else 2
        | [] => 2
      else 1
    else 1
  | _ => 1

/-- `U+FFFD`. -/
def replacement : Char := '�'

/-- Decode as many characters as there may be, with replacements. -/
def decodeLossyUpTo : ℕ → List UInt8 → List Char
  | _, [] => []
  | 0, _ :: _ => []
  | n + 1, b :: bytes =>
    match decodeFirst (b :: bytes) with
    | none =>
      replacement :: decodeLossyUpTo n ((b :: bytes).drop (badPrefixLength (b :: bytes)))
    | some c => c :: decodeLossyUpTo n ((b :: bytes).drop c.utf8Size)

/-- The text the bytes encode, with replacements where they encode none. -/
def decodeLossy : List Char := decodeLossyUpTo bytes.length bytes

end Utf8
