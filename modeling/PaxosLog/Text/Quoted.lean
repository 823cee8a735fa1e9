import PaxosLog.Text.Hidden

/-!
# Quoted text

How a text is shown inside a message: between double quotes, with quotes and backslashes escaped,
the usual letters for tab, line ends and the null character, and every other character that would
not show written as its code point.

Error messages quote what they found in this way (`Found.text`).
-/

namespace PaxosLog.Text

/-- The lower-case hexadecimal digits of a code point. -/
def hex (n : Nat) : List Char := Nat.toDigits 16 n

/-- A character as it is written between the quotes. -/
def quotedChar (c : Char) : List Char :=
  if c = '\x00' then ['\\', '0']
  else if c = '\t' then ['\\', 't']
  else if c = '\r' then ['\\', 'r']
  else if c = '\n' then ['\\', 'n']
  else if c = '\\' then ['\\', '\\']
  else if c = '"' then ['\\', '"']
  else if isHidden c then ['\\', 'u', '\x7b'] ++ hex c.toNat ++ ['\x7d']
  else [c]

/-- A text between quotes. -/
def quoted (text : List Char) : String :=
  String.ofList (['"'] ++ text.flatMap quotedChar ++ ['"'])

end PaxosLog.Text
