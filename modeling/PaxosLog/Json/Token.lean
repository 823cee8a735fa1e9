import PaxosLog.Json.Numeral

/-!
# Tokens

A JSON text is a sequence of tokens with blanks between them. `Token.bytes` writes one token,
`render` a sequence of them without blanks, and `scan` reads a text into its tokens.

Texts that are not JSON are scanned up to the first place that no token can start with. What stands
there is the last token of the sequence: `unclosed` for a string that does not end or holds what no
string may hold, `garbage` for anything else. A reader that meets one of them fails, so a mistake
that comes earlier in the text is reported before it.

Out of scope: where in the text a token stood. No error says so.
-/

namespace PaxosLog.Json

/-- A token of a JSON text. -/
inductive Token where
  | leftBrace
  | rightBrace
  | leftBracket
  | rightBracket
  | comma
  | colon
  | null
  | boolean (b : Bool)
  | number (n : Numeral)
  /-- A string, given by the text between its quotes. -/
  | string (body : List UInt8)
  /-- A string that is cut off, given by the text from its quote to where it goes wrong. -/
  | unclosed (body : List UInt8)
  /-- Something that starts no token. -/
  | garbage
deriving DecidableEq, Repr

/-- The bytes of a text of ASCII characters. -/
def ascii (text : String) : List UInt8 := text.toList.map fun c => c.toNat.toUInt8

namespace Token

/-- The text of a token. -/
def bytes : Token → List UInt8
  | .leftBrace => [0x7b]
  | .rightBrace => [0x7d]
  | .leftBracket => [0x5b]
  | .rightBracket => [0x5d]
  | .comma => [0x2c]
  | .colon => [0x3a]
  | .null => ascii "null"
  | .boolean true => ascii "true"
  | .boolean false => ascii "false"
  | .number n => n.bytes
  | .string body => 0x22 :: body ++ [0x22]
  | .unclosed body => 0x22 :: body
  | .garbage => []

end Token

/-- The text of a sequence of tokens. -/
def render (tokens : List Token) : List UInt8 := tokens.flatMap Token.bytes

/-! ## Scanning -/

/-- Space, tab, line feed and carriage return stand between tokens. -/
def isBlank (b : UInt8) : Bool := b = 0x20 || b = 0x09 || b = 0x0a || b = 0x0d

/-- A hexadecimal digit. -/
def isHex (b : UInt8) : Bool :=
  (0x30 ≤ b && b ≤ 0x39) || (0x41 ≤ b && b ≤ 0x46) || (0x61 ≤ b && b ≤ 0x66)

/-- A byte that makes an escape of one character behind a backslash. -/
def isShortEscape (b : UInt8) : Bool := b ∈ ascii "\"\\/bfnrt"

/-- Scans a string behind its quote, after the part already read, which comes last byte first.
Escapes must be complete, and control characters must be escaped. -/
def scanString (read : List UInt8) : List UInt8 → Token × List UInt8
  | [] => (.unclosed read.reverse, [])
  | 0x22 :: rest => (.string read.reverse, rest)
  | 0x5c :: 0x75 :: a :: b :: c :: d :: rest =>
    if isHex a && isHex b && isHex c && isHex d then
      scanString (d :: c :: b :: a :: 0x75 :: 0x5c :: read) rest
    else (.unclosed read.reverse, [])
  | 0x5c :: e :: rest =>
    if isShortEscape e then scanString (e :: 0x5c :: read) rest
    else (.unclosed read.reverse, [])
  | b :: rest =>
    if b < 0x20 || b = 0x5c then (.unclosed read.reverse, []) else scanString (b :: read) rest

/-- Scans a word that must stand at the start of a text. -/
def scanWord (word : String) (token : Token) (text : List UInt8) : Token × List UInt8 :=
  if ascii word <+: text then (token, text.drop word.length) else (.garbage, [])

/-- Scans the token that a text starts with. Nothing is left behind one that goes wrong. -/
def scanToken : List UInt8 → Token × List UInt8
  | [] => (.garbage, [])
  | b :: rest =>
    if b = 0x7b then (.leftBrace, rest)
    else if b = 0x7d then (.rightBrace, rest)
    else if b = 0x5b then (.leftBracket, rest)
    else if b = 0x5d then (.rightBracket, rest)
    else if b = 0x2c then (.comma, rest)
    else if b = 0x3a then (.colon, rest)
    else if b = 0x22 then scanString [] rest
    else if b = 0x6e then scanWord "null" .null (b :: rest)
    else if b = 0x74 then scanWord "true" (.boolean true) (b :: rest)
    else if b = 0x66 then scanWord "false" (.boolean false) (b :: rest)
    else
      match Numeral.scan? (b :: rest) with
      | some (n, rest) => (.number n, rest)
      | none => (.garbage, [])

/-- Scans at most `count` tokens, after those already read, which come last first. -/
def scanUpTo (read : List Token) : (count : Nat) → List UInt8 → List Token
  | 0, _ => read.reverse
  | count + 1, text =>
    match text.dropWhile isBlank with
    | [] => read.reverse
    | b :: rest =>
      let (token, rest) := scanToken (b :: rest)
      scanUpTo (token :: read) count rest

/-- The tokens of a text. Each takes at least one byte. -/
def scan (text : List UInt8) : List Token := scanUpTo [] text.length text

end PaxosLog.Json
