import Chomsky.Config
import Chomsky.Json.Number
import Chomsky.Json.Skim

/-!
# Configurations as JSON

A configuration is an object with members for the start symbol, the null marker and the order of
output, in any order; what is missing has its usual value, and other members are skimmed.  An array
of up to three values, in that order, is accepted as well.

* `Field` — the three fields; `Fields` — those read so far.
* `readObject`, `readArray` — the two forms of a configuration.
* `Config.ofJson` — the configuration that a text spells, checked.
* `Config.jsonText` — the text of a configuration, on one line.

Errors come in reading order.
-/

namespace Chomsky

open Json (skipSpace readString expectWord skimValue numberFault)

/-- A field of a configuration. -/
inductive Field where
  | start
  | marker
  | sorted
  deriving DecidableEq, Repr

/-- The key a field is written under. -/
def Field.key : Field → Text
  | start => "start_symbol".toList
  | marker => "null_marker".toList
  | sorted => "sorted_output".toList

/-- The field that a key names. -/
def Field.ofKey? (t : Text) : Option Field :=
  [start, marker, sorted].find? (·.key == t)

/-- The fields read so far. -/
structure Fields where
  start : Option Char := none
  marker : Option Char := none
  sorted : Option Bool := none
  deriving DecidableEq, Repr

namespace Fields

def has (f : Fields) : Field → Bool
  | .start => f.start.isSome
  | .marker => f.marker.isSome
  | .sorted => f.sorted.isSome

/-- The configuration in which the missing fields have their usual values. -/
def toConfig (f : Fields) : Config :=
  let usual : Config := {}
  { start := f.start.getD usual.start
    marker := f.marker.getD usual.marker
    sorted := f.sorted.getD usual.sorted }

/-- What is wrong with a value that is not of the expected kind.  Words, numbers and strings are
read to their end before they are refused. -/
def mistypedFault : Text → JsonFault
  | [] => .truncated
  | c :: t =>
    let word (letters : Text) : JsonFault :=
      match expectWord letters t with
      | .error f => f
      | .ok _ => .mistyped
    if c = 'n' then word ['u', 'l', 'l']
    else if c = 't' then word ['r', 'u', 'e']
    else if c = 'f' then word ['a', 'l', 's', 'e']
    else if c = '"' then
      match readString t with
      | .error f => f
      | .ok _ => .mistyped
    else if c = '[' ∨ c = '{' then .mistyped
    else if c = '-' then numberFault t
    else if c.isDigit then numberFault (c :: t)
    else .malformed

/-- Reads a string of one character. -/
def readChar (t : Text) : Except JsonFault (Char × Text) :=
  match skipSpace t with
  | '"' :: t =>
    match readString t with
    | .error e => .error e
    | .ok ([c], t) => .ok (c, t)
    | .ok _ => .error .mistyped
  | t => .error (mistypedFault t)

/-- Reads `true` or `false`. -/
def readBool (t : Text) : Except JsonFault (Bool × Text) :=
  match skipSpace t with
  | 't' :: t =>
    match expectWord ['r', 'u', 'e'] t with
    | .error e => .error e
    | .ok t => .ok (true, t)
  | 'f' :: t =>
    match expectWord ['a', 'l', 's', 'e'] t with
    | .error e => .error e
    | .ok t => .ok (false, t)
  | t => .error (mistypedFault t)

/-- Reads the value of a field. -/
def readField (f : Fields) (field : Field) (t : Text) : Except JsonFault (Fields × Text) :=
  match field with
  | .start =>
    match readChar t with
    | .error e => .error e
    | .ok (c, t) => .ok ({ f with start := some c }, t)
  | .marker =>
    match readChar t with
    | .error e => .error e
    | .ok (c, t) => .ok ({ f with marker := some c }, t)
  | .sorted =>
    match readBool t with
    | .error e => .error e
    | .ok (b, t) => .ok ({ f with sorted := some b }, t)

/-- Reads the colon between a key and its value. -/
def readColon (t : Text) : Except JsonFault Text :=
  match skipSpace t with
  | [] => .error .truncated
  | ':' :: t => .ok t
  | _ => .error .malformed

/-- Reads the value that belongs to a key; a field may not come twice. -/
def readValue (f : Fields) (key t : Text) : Except JsonFault (Fields × Text) :=
  match Field.ofKey? key with
  | some field =>
    if f.has field then .error .mistyped
    else
      match readColon t with
      | .error e => .error e
      | .ok t => readField f field t
  | none =>
    match readColon t with
    | .error e => .error e
    | .ok t =>
      match skimValue t with
      | .error e => .error e
      | .ok t => .ok (f, t)

/-- Reads a key and its value. -/
def readMember (f : Fields) (t : Text) : Except JsonFault (Fields × Text) :=
  match skipSpace t with
  | [] => .error .truncated
  | '"' :: t =>
    match readString t with
    | .error e => .error e
    | .ok (key, t) => readValue f key t
  | _ => .error .malformed

/-- Reads members up to the closing brace, at most `limit` of them. -/
def readMembers (f : Fields) (t : Text) : (limit : Nat) → Except JsonFault (Fields × Text)
  | 0 => .error .malformed
  | limit + 1 =>
    match readMember f t with
    | .error e => .error e
    | .ok (f, t) =>
      match skipSpace t with
      | [] => .error .truncated
      | '}' :: t => .ok (f, t)
      | ',' :: t => readMembers f t limit
      | _ => .error .malformed

/-- Reads an object whose opening brace has been read.  There are no more members than
characters. -/
def readObject (t : Text) : Except JsonFault (Fields × Text) :=
  match skipSpace t with
  | '}' :: t => .ok ({}, t)
  | t => readMembers {} t (t.length + 1)

/-- Reads the items that follow the first one, for the given fields. -/
def readItems (f : Fields) (t : Text) : List Field → Except JsonFault (Fields × Text)
  | [] =>
    match skipSpace t with
    | [] => .error .truncated
    | ']' :: t => .ok (f, t)
    | _ => .error .malformed
  | field :: fields =>
    match skipSpace t with
    | [] => .error .truncated
    | ']' :: t => .ok (f, t)
    | ',' :: t =>
      if (skipSpace t).head? = some ']' then .error .malformed
      else
        match readField f field t with
        | .error e => .error e
        | .ok (f, t) => readItems f t fields
    | _ => .error .malformed

/-- Reads an array whose opening bracket has been read. -/
def readArray (t : Text) : Except JsonFault (Fields × Text) :=
  match skipSpace t with
  | ']' :: t => .ok ({}, t)
  | t =>
    match readField {} .start t with
    | .error e => .error e
    | .ok (f, t) => readItems f t [.marker, .sorted]

/-- Reads an object or an array. -/
def read (t : Text) : Except JsonFault (Fields × Text) :=
  match skipSpace t with
  | '{' :: t => readObject t
  | '[' :: t => readArray t
  | t => .error (mistypedFault t)

/-- The fields that a text spells; nothing but white space may follow. -/
def ofJson (t : Text) : Except JsonFault Fields :=
  match read t with
  | .error e => .error e
  | .ok (f, t) => if (skipSpace t).isEmpty then .ok f else .error .malformed

end Fields

namespace Config

/-- The configuration that a text spells, if it is admissible. -/
def ofJson (t : Text) : Except GrammarError Config :=
  match Fields.ofJson t with
  | .error fault => .error (.json fault)
  | .ok f =>
    match f.toConfig.validate with
    | .error e => .error e
    | .ok () => .ok f.toConfig

/-- A configuration as an object with all three members. -/
def toJson (c : Config) : Json :=
  .object [(Field.start.key, .string [c.start]), (Field.marker.key, .string [c.marker]),
    (Field.sorted.key, .bool c.sorted)]

/-- The JSON text of a configuration. -/
def jsonText (c : Config) : Text := c.toJson.write .compact 0

end Config

end Chomsky
