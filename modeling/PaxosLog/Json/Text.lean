/-!
# The text of a string

`decode` turns what stands between the quotes of a JSON string into characters: escapes are
replaced by what they stand for, two escapes that form a surrogate pair by one character, and the
other bytes are read as UTF-8. Halves of surrogate pairs and bytes that are not UTF-8 have no text.

Names of fields and of variants are read as texts, and so is a string that an error shows. The slots
in a promise are not: they are numerals between quotes (`keyWord`).

Out of scope: the writing of texts with escapes. The names that are written need none.
-/

namespace PaxosLog.Json.Text

/-- The value of a hexadecimal digit. -/
def hexValue (b : UInt8) : Nat :=
  if b ≤ 0x39 then b.toNat - 0x30
  else if b ≤ 0x46 then b.toNat - 0x37
  else b.toNat - 0x57

/-- The value of four hexadecimal digits. -/
def hex4 (a b c d : UInt8) : Nat :=
  ((hexValue a * 16 + hexValue b) * 16 + hexValue c) * 16 + hexValue d

/-- The character that a backslash and `b` stand for. -/
def shortEscape? (b : UInt8) : Option Char :=
  if b = 0x22 then some '"'
  else if b = 0x5c then some '\\'
  else if b = 0x2f then some '/'
  else if b = 0x62 then some '\x08'
  else if b = 0x66 then some '\x0c'
  else if b = 0x6e then some '\n'
  else if b = 0x72 then some '\r'
  else if b = 0x74 then some '\t'
  else none

/-- A byte that goes on with a character. -/
def isTail (b : UInt8) : Bool := 0x80 ≤ b && b ≤ 0xbf

/-- The low six bits of a byte that goes on with a character. -/
def tailBits (b : UInt8) : Nat := b.toNat % 64

/-- The character of two bytes. -/
def twoBytes? (a b : UInt8) : Option Char :=
  let n := (a.toNat - 0xc0) * 64 + tailBits b
  if 0xc0 ≤ a && a ≤ 0xdf && isTail b && 0x80 ≤ n then some (Char.ofNat n) else none

/-- The character of three bytes. -/
def threeBytes? (a b c : UInt8) : Option Char :=
  let n := ((a.toNat - 0xe0) * 64 + tailBits b) * 64 + tailBits c
  if 0xe0 ≤ a && a ≤ 0xef && isTail b && isTail c && 0x800 ≤ n && (n < 0xd800 || 0xdfff < n) then
    some (Char.ofNat n)
  else none

/-- The character of four bytes. -/
def fourBytes? (a b c d : UInt8) : Option Char :=
  let n := (((a.toNat - 0xf0) * 64 + tailBits b) * 64 + tailBits c) * 64 + tailBits d
  if 0xf0 ≤ a && a ≤ 0xf7 && isTail b && isTail c && isTail d && 0x10000 ≤ n && n ≤ 0x10ffff then
    some (Char.ofNat n)
  else none

/-- The characters of the text between the quotes of a string, behind those already read, which
come last first. -/
def decodeAfter (read : List Char) : List UInt8 → Option (List Char)
  | [] => some read.reverse
  | 0x5c :: 0x75 :: a :: b :: c :: d :: rest =>
    let n := hex4 a b c d
    if n < 0xd800 || 0xdfff < n then decodeAfter (Char.ofNat n :: read) rest
    else if 0xdc00 ≤ n then none
    else
      match rest with
      | 0x5c :: 0x75 :: e :: f :: g :: h :: rest =>
        let low := hex4 e f g h
        if 0xdc00 ≤ low && low ≤ 0xdfff then
          decodeAfter (Char.ofNat (0x10000 + (n - 0xd800) * 0x400 + (low - 0xdc00)) :: read) rest
        else none
      | _ => none
  | 0x5c :: e :: rest =>
    match shortEscape? e with
    | some c => decodeAfter (c :: read) rest
    | none => none
  | a :: rest =>
    if a < 0x80 then decodeAfter (Char.ofNat a.toNat :: read) rest
    else
      match rest with
      | [] => none
      | b :: rest =>
        match twoBytes? a b with
        | some c => decodeAfter (c :: read) rest
        | none =>
          match rest with
          | [] => none
          | c :: rest =>
            match threeBytes? a b c with
            | some ch => decodeAfter (ch :: read) rest
            | none =>
              match rest with
              | [] => none
              | d :: rest =>
                match fourBytes? a b c d with
                | some ch => decodeAfter (ch :: read) rest
                | none => none

/-- The characters of the text between the quotes of a string. -/
def decode (body : List UInt8) : Option (List Char) := decodeAfter [] body

end PaxosLog.Json.Text
