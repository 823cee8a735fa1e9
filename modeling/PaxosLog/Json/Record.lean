import PaxosLog.Json.Reader

/-!
# Records and variants

A record is written as an object, with its fields in any order, or as the list of its fields in
their own order. In an object, unknown fields are passed over, a field must not come twice, and a
field that has a value for being absent may be left out. A list must hold all fields, unless the
record is `lenient`.

A variant is written as an object with one field, named for the variant and holding its content. A
variant without content may be written as its bare name.

These are the rules that reading is derived by for every record and every variant of the wire
format. `readRecord2` and `readRecord3` read the records, `readLenient4` the configuration, whose
fields all have values for being absent, and `readVariant` messages and commands.

Out of scope: rules that no type of the wire format makes use of, such as other names for fields and
variants without names.
-/

namespace PaxosLog.Json

/-! ## Records -/

/-- A field of a record. -/
structure RecordField (α : Type) where
  name : String
  read : Reader α
  /-- The value that stands for a missing field, if it may be missing. -/
  absent : Option α

/-- A field as part of the fields read so far, which are kept in `σ`. -/
structure Cell (σ : Type) where
  name : String
  isSet : σ → Bool
  read : σ → Reader σ
  /-- Sets the field to its value for being absent, if it has one. -/
  fill : σ → Option σ

/-- Which cells a record has. -/
structure Record (σ : Type) where
  name : String
  cells : List (Cell σ)
  lenient : Bool

namespace Record

variable {σ : Type}

/-- The shape that is expected where the record is. -/
def shape (r : Record σ) : Shape := .record r.name

/-- Fills the cells that were not set, in their order. -/
def finish (cells : List (Cell σ)) (s : σ) : Except DecodeError σ :=
  cells.foldlM
    (fun s cell =>
      if cell.isSet s then .ok s
      else
        match cell.fill s with
        | some s => .ok s
        | none => .error (.missingField cell.name))
    s

/-- Reads the value of the field with a given name, or passes over it if there is none. -/
def readField (r : Record σ) (name : List Char) (s : σ) : Reader σ := fun ts =>
  match r.cells.find? fun cell => cell.name.toList = name with
  | none => do
    let ((), ts) ← readColon ts
    let ((), ts) ← skipValue ts
    return (s, ts)
  | some cell =>
    if cell.isSet s then .error (.duplicateField cell.name)
    else do
      let ((), ts) ← readColon ts
      cell.read s ts

/-- Reads at most `count` fields of an object, and its closing brace. -/
def readFields (r : Record σ) (first : Bool) (s : σ) : (count : Nat) → Reader σ
  | 0, _ => .error .malformed
  | count + 1, ts => do
    match ← nextKey first ts with
    | (none, ts) =>
      let s ← finish r.cells s
      return (s, ts)
    | (some key, ts) =>
      let name ← keyName key
      let (s, ts) ← r.readField name s ts
      r.readFields false s count ts

/-- Reads the cells that are left as the elements of a list, the first of them being number
`index`, and the closing bracket. -/
def readPlaces (r : Record σ) (index : Nat) (s : σ) : List (Cell σ) → Reader σ
  | [], ts =>
    match ts with
    | .rightBracket :: rest => .ok (s, rest)
    | _ => .error .malformed
  | cell :: cells, ts => do
    let (more, ts) ← nextElement (index = 0) ts
    if more then
      let (s, ts) ← cell.read s ts
      r.readPlaces (index + 1) s cells ts
    else if r.lenient then
      let s ← finish (cell :: cells) s
      return (s, ts)
    else throw (.invalidLength index (.fields r.name r.cells.length))

/-- Reads a record into its cells. -/
def readCells (r : Record σ) (s : σ) : Reader σ
  | .leftBrace :: rest => r.readFields true s (rest.length + 1) rest
  | .leftBracket :: rest => r.readPlaces 0 s r.cells rest
  | ts => .error (mismatch r.shape ts)

/-- Reads a record and builds the value of its cells. -/
def read {α : Type} (r : Record σ) (s : σ) (build : σ → Option α) : Reader α := fun ts => do
  let (s, ts) ← r.readCells s ts
  match build s with
  | some a => return (a, ts)
  | none => throw .malformed

end Record

/-- The cell of a field, in a state from which it can be taken and in which it can be put. -/
def RecordField.cell {α σ : Type} (f : RecordField α) (get : σ → Option α)
    (put : α → σ → σ) : Cell σ where
  name := f.name
  isSet s := (get s).isSome
  read s := fun ts => (f.read ts).map fun (a, rest) => (put a s, rest)
  fill s := f.absent.map (put · s)

/-- Reads a record of two fields. -/
def readRecord2 {α β γ : Type} (name : String) (f : RecordField α) (g : RecordField β)
    (build : α → β → γ) : Reader γ :=
  Record.read
    ⟨name, [f.cell (·.1) fun a s => (some a, s.2), g.cell (·.2) fun b s => (s.1, some b)], false⟩
    ((none, none) : Option α × Option β)
    fun s => do return build (← s.1) (← s.2)

/-- Reads a record of three fields. -/
def readRecord3 {α β γ δ : Type} (name : String) (f : RecordField α) (g : RecordField β)
    (h : RecordField γ) (build : α → β → γ → δ) : Reader δ :=
  Record.read
    ⟨name,
      [f.cell (·.1) fun a s => (some a, s.2), g.cell (·.2.1) fun b s => (s.1, some b, s.2.2),
        h.cell (·.2.2) fun c s => (s.1, s.2.1, some c)],
      false⟩
    ((none, none, none) : Option α × Option β × Option γ)
    fun s => do return build (← s.1) (← s.2.1) (← s.2.2)

/-- Reads a record of four fields, of which a list may leave out the last ones. -/
def readLenient4 {α β γ δ ε : Type} (name : String) (f : RecordField α) (g : RecordField β)
    (h : RecordField γ) (i : RecordField δ) (build : α → β → γ → δ → ε) : Reader ε :=
  Record.read
    ⟨name,
      [f.cell (·.1) fun a s => (some a, s.2), g.cell (·.2.1) fun b s => (s.1, some b, s.2.2),
        h.cell (·.2.2.1) fun c s => (s.1, s.2.1, some c, s.2.2.2),
        i.cell (·.2.2.2) fun d s => (s.1, s.2.1, s.2.2.1, some d)],
      true⟩
    ((none, none, none, none) : Option α × Option β × Option γ × Option δ)
    fun s => do return build (← s.1) (← s.2.1) (← s.2.2.1) (← s.2.2.2)

/-! ## Variants -/

/-- A variant of a type. -/
structure Variant (α : Type) where
  name : String
  read : Reader α
  /-- The value that the bare name stands for, if the variant has no content. -/
  alone : Option α

/-- The variant with a given name. -/
def findVariant {α : Type} (variants : List (Variant α)) (name : List Char) :
    Except DecodeError (Variant α) :=
  match variants.find? fun v => v.name.toList = name with
  | some v => .ok v
  | none => .error (.unknownVariant name (variants.map (·.name)))

/-- Reads one of several variants. -/
def readVariant {α : Type} (variants : List (Variant α)) : Reader α
  | .leftBrace :: .string body :: rest => do
    let name ← keyName (body, false)
    let v ← findVariant variants name
    let ((), rest) ← readColon rest
    match ← v.read rest with
    | (a, .rightBrace :: rest) => return (a, rest)
    | _ => throw .malformed
  | .string body :: rest => do
    let name ← keyName (body, false)
    let v ← findVariant variants name
    match v.alone with
    | some a => return (a, rest)
    | none => throw (.invalidType .unitVariant .contentVariant)
  | _ => .error .malformed

end PaxosLog.Json
