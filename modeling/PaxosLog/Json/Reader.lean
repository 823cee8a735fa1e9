import PaxosLog.Json.Number
import PaxosLog.Json.Text
import PaxosLog.Json.Token
import PaxosLog.Number.Shortest
import PaxosLog.Text.Quoted

/-!
# Readers

A reader takes a value of some type off a sequence of tokens, from left to right, and stops at the
first thing that is wrong. There are two kinds of mistakes. A text that is not JSON is `malformed`,
and nothing more is said about it. A text that is JSON but does not have the shape of the type is
reported with what was found and what was expected.

Objects may hold fields that the type does not know. `skipValue` passes over their values without
looking into strings and numbers, and without a limit on their depth.

`readAll` is how the codec reads a text: one value, and nothing but blanks behind it. There is one
reader for each kind of value that the wire format has: numbers that fit a type (`readNatural`),
truth values, null, values that may be null, lists, and the keys of objects.
`DecodeError.message` is the wording of an error without the line and the column that follow it.

Out of scope: the wording of errors about texts that are not JSON.
-/

namespace PaxosLog.Json

/-- A value of the wrong shape. -/
inductive Found where
  | null
  | boolean (b : Bool)
  | number (n : Number)
  | string (text : List Char)
  | sequence
  | map
  /-- The name of a variant, where a variant with content was expected. -/
  | unitVariant
deriving DecidableEq, Repr

/-- What a value was expected to be. -/
inductive Shape where
  /-- A whole number below `2 ^ 64`. -/
  | word
  /-- A whole number below `2 ^ 64` that counts something. -/
  | size
  /-- A whole number below 256. -/
  | byte
  | boolean
  | sequence
  | map
  /-- Null, which stands for having no content. -/
  | unit
  /-- A record with a name. -/
  | record (name : String)
  /-- A record with a name and a number of fields. -/
  | fields (name : String) (count : Nat)
  /-- A variant with content. -/
  | contentVariant
deriving DecidableEq, Repr

/-- Why a text cannot be read. -/
inductive DecodeError where
  /-- The text is not JSON, or ends too early or too late. -/
  | malformed
  /-- A value of another type. -/
  | invalidType (found : Found) (expected : Shape)
  /-- A whole number out of range. -/
  | invalidValue (found : Found) (expected : Shape)
  /-- A record given as a list that is too short. -/
  | invalidLength (length : Nat) (expected : Shape)
  /-- A field that must be there is not. -/
  | missingField (name : String)
  /-- A field that is there twice. -/
  | duplicateField (name : String)
  /-- A variant that does not exist. -/
  | unknownVariant (name : List Char) (known : List String)
deriving DecidableEq, Repr

/-! ## Wording -/

/-- Floating-point numbers in messages: all places are written up to 16 digits before the point and
5 places behind it, and exponents with a sign. -/
def realLayout : DecimalLayout := ⟨-5, 15⟩

/-- A number between backquotes. -/
def Number.text : Number → String
  | .natural n => "integer `" ++ toString n.toNat ++ "`"
  | .negative n => "integer `-" ++ toString n.toNat ++ "`"
  | .real bits =>
    let x := BinaryFraction.ofBits bits
    "floating point `" ++ realLayout.text x.negative x.shortest ++ "`"

/-- What was found, in words. -/
def Found.text : Found → String
  | .null => "null"
  | .boolean true => "boolean `true`"
  | .boolean false => "boolean `false`"
  | .number n => n.text
  | .string text => "string " ++ Text.quoted text
  | .sequence => "sequence"
  | .map => "map"
  | .unitVariant => "unit variant"

/-- What was expected, in words. -/
def Shape.text : Shape → String
  | .word => "u64"
  | .size => "usize"
  | .byte => "u8"
  | .boolean => "a boolean"
  | .sequence => "a sequence"
  | .map => "a map"
  | .unit => "unit"
  | .record name => "struct " ++ name
  | .fields name count => "struct " ++ name ++ " with " ++ toString count ++ " elements"
  | .contentVariant => "newtype variant"

/-- A name between backquotes. -/
def ticked (name : String) : String := "`" ++ name ++ "`"

/-- A choice of names. -/
def choice : List String → String
  | [a, b] => "expected " ++ ticked a ++ " or " ++ ticked b
  | [a] => "expected " ++ ticked a
  | names => "expected one of " ++ ", ".intercalate (names.map ticked)

/-- What is said about a text that cannot be read. Nothing is said about one that is not JSON. -/
def DecodeError.message : DecodeError → Option String
  | .malformed => none
  | .invalidType found expected =>
    some ("invalid type: " ++ found.text ++ ", expected " ++ expected.text)
  | .invalidValue found expected =>
    some ("invalid value: " ++ found.text ++ ", expected " ++ expected.text)
  | .invalidLength length expected =>
    some ("invalid length " ++ toString length ++ ", expected " ++ expected.text)
  | .missingField name => some ("missing field " ++ ticked name)
  | .duplicateField name => some ("duplicate field " ++ ticked name)
  | .unknownVariant name known =>
    some ("unknown variant " ++ ticked (String.ofList name) ++ ", " ++ choice known)

/-! ## Simple values -/

/-- Takes a value off a sequence of tokens. -/
abbrev Reader (α : Type) := List Token → Except DecodeError (α × List Token)

/-- What a token shows of the value that it starts. -/
def Token.found? : Token → Option Found
  | .null => some .null
  | .boolean b => some (.boolean b)
  | .number n => n.toNumber?.map .number
  | .string body => (Text.decode body).map .string
  | .leftBracket => some .sequence
  | .leftBrace => some .map
  | _ => none

/-- The mistake of finding these tokens where something else was expected. -/
def mismatch (expected : Shape) : List Token → DecodeError
  | [] => .malformed
  | t :: _ =>
    match t.found? with
    | none => .malformed
    | some found => .invalidType found expected

/-- A whole number below `limit`, out of what a numeral stands for. -/
def natural (expected : Shape) (limit : Nat) : Option Number → Except DecodeError UInt64
  | none => .error .malformed
  | some (.natural n) =>
    if n.toNat < limit then .ok n
    else .error (.invalidValue (.number (.natural n)) expected)
  | some (.negative n) => .error (.invalidValue (.number (.negative n)) expected)
  | some (.real bits) => .error (.invalidType (.number (.real bits)) expected)

/-- Reads a whole number below `limit`. -/
def readNatural (expected : Shape) (limit : Nat) : Reader UInt64
  | .number n :: rest => (natural expected limit n.toNumber?).map (·, rest)
  | ts => .error (mismatch expected ts)

/-- Reads a whole number of 64 bits. -/
def readWord : Reader UInt64 := readNatural .word UInt64.size

/-- Reads a count of 64 bits. -/
def readSize : Reader UInt64 := readNatural .size UInt64.size

/-- Reads a byte. -/
def readByte : Reader UInt8 := fun ts =>
  (readNatural .byte 256 ts).map fun (n, rest) => (n.toUInt8, rest)

/-- Reads a truth value. -/
def readBoolean : Reader Bool
  | .boolean b :: rest => .ok (b, rest)
  | ts => .error (mismatch .boolean ts)

/-- Reads null. -/
def readUnit : Reader Unit
  | .null :: rest => .ok ((), rest)
  | ts => .error (mismatch .unit ts)

/-- Reads null as nothing, and everything else as a value. -/
def readOption {α : Type} (r : Reader α) : Reader (Option α)
  | .null :: rest => .ok (none, rest)
  | ts => (r ts).map fun (a, rest) => (some a, rest)

/-- Takes the colon behind the name of a field or variant. -/
def readColon : Reader Unit
  | .colon :: rest => .ok ((), rest)
  | _ => .error .malformed

/-! ## Sequences -/

/-- Moves to the next element of a list, or behind its closing bracket: whether there is an
element. A comma separates elements and does not close them. -/
def nextElement (first : Bool) : Reader Bool
  | .rightBracket :: rest => .ok (false, rest)
  | .comma :: rest =>
    if first then .ok (true, .comma :: rest)
    else
      match rest with
      | .rightBracket :: _ => .error .malformed
      | [] => .error .malformed
      | rest => .ok (true, rest)
  | [] => .error .malformed
  | t :: rest => if first then .ok (true, t :: rest) else .error .malformed

/-- Reads at most `count` elements of a list, and its closing bracket, behind the elements already
read, which come last first. -/
def readElements {α : Type} (r : Reader α) (read : List α) :
    (count : Nat) → Reader (List α)
  | 0, _ => .error .malformed
  | count + 1, ts => do
    let (more, ts) ← nextElement read.isEmpty ts
    if more then
      let (a, ts) ← r ts
      readElements r (a :: read) count ts
    else return (read.reverse, ts)

/-- Reads a list. -/
def readList {α : Type} (r : Reader α) : Reader (List α)
  | .leftBracket :: rest => readElements r [] (rest.length + 1) rest
  | ts => .error (mismatch .sequence ts)

/-! ## Keys -/

/-- Moves to the next key of an object, or behind its closing brace: the text of the key, if there
is one, and whether its string is cut off. -/
def nextKey (first : Bool) : Reader (Option (List UInt8 × Bool))
  | .rightBrace :: rest => .ok (none, rest)
  | .comma :: rest =>
    if first then .error .malformed
    else
      match rest with
      | .string body :: rest => .ok (some (body, false), rest)
      | .unclosed body :: rest => .ok (some (body, true), rest)
      | _ => .error .malformed
  | .string body :: rest => if first then .ok (some (body, false), rest) else .error .malformed
  | .unclosed body :: rest => if first then .ok (some (body, true), rest) else .error .malformed
  | _ => .error .malformed

/-- The name that a key stands for. -/
def keyName (key : List UInt8 × Bool) : Except DecodeError (List Char) :=
  match Text.decode key.1 with
  | some name => if key.2 then .error .malformed else .ok name
  | none => .error .malformed

/-- The whole number that a key stands for: a numeral in quotes, with nothing before or behind
it. -/
def keyWord (key : List UInt8 × Bool) : Except DecodeError UInt64 :=
  match Numeral.scan? key.1 with
  | none => .error .malformed
  | some (n, rest) => do
    let k ← natural .word UInt64.size n.toNumber?
    if rest = [] ∧ key.2 = false then return k else throw .malformed

/-! ## Values that are passed over -/

/-- What an unfinished value is part of. -/
inductive Level where
  | list
  | object
deriving DecidableEq, Repr

/-- Where the passing stands: in front of a value, or behind one. -/
inductive Place where
  | before
  | behind
deriving DecidableEq, Repr

/-- Passes over the rest of a value that is part of `levels`, innermost first. -/
def skip : List Level → Place → List Token → Option (List Token)
  | [], .behind, ts => some ts
  | levels, .before, .leftBracket :: .rightBracket :: rest => skip levels .behind rest
  | levels, .before, .leftBracket :: rest => skip (.list :: levels) .before rest
  | levels, .before, .leftBrace :: .rightBrace :: rest => skip levels .behind rest
  | levels, .before, .leftBrace :: .string _ :: .colon :: rest =>
    skip (.object :: levels) .before rest
  | levels, .before, .null :: rest => skip levels .behind rest
  | levels, .before, .boolean _ :: rest => skip levels .behind rest
  | levels, .before, .number _ :: rest => skip levels .behind rest
  | levels, .before, .string _ :: rest => skip levels .behind rest
  | .list :: levels, .behind, .comma :: rest => skip (.list :: levels) .before rest
  | .list :: levels, .behind, .rightBracket :: rest => skip levels .behind rest
  | .object :: levels, .behind, .comma :: .string _ :: .colon :: rest =>
    skip (.object :: levels) .before rest
  | .object :: levels, .behind, .rightBrace :: rest => skip levels .behind rest
  | _, _, _ => none

/-- Passes over a value. -/
def skipValue : Reader Unit := fun ts =>
  match skip [] .before ts with
  | some rest => .ok ((), rest)
  | none => .error .malformed

/-! ## Whole texts -/

/-- Reads a value that takes up a whole text. -/
def readAll {α : Type} (r : Reader α) (text : List UInt8) : Except DecodeError α := do
  let (a, rest) ← r (scan text)
  if rest = [] then return a else throw .malformed

end PaxosLog.Json
