import Chomsky.Json.Scanner

/-!
# Skimming JSON

A value that nobody asks for is skimmed: its syntax is checked to any depth, but strings are not
decoded and numbers may have any size.

* `Nest` — an array or an object that is still open.
* `Skim` — what may come next inside the innermost of them.
* `Skim.step` — what one character does.
* `skimFrom`, `skimValue` — skims up to the end of the value; what is left comes back.
-/

namespace Chomsky.Json

/-- An array or an object that is still open. -/
inductive Nest where
  | array
  | object
  deriving DecidableEq, Repr

/-- What may come next. -/
inductive Skim where
  | value
  /-- The first item of an array, or its end. -/
  | firstItem
  /-- The first key of an object, or its end. -/
  | firstKey
  /-- A key. -/
  | key
  /-- The colon after a key. -/
  | colon
  /-- A comma or the closing bracket. -/
  | next
  /-- The inside of a string. -/
  | text (isKey : Bool)
  /-- The character after a backslash. -/
  | escape (isKey : Bool)
  /-- A hexadecimal digit, with `more` of them after it. -/
  | hex (isKey : Bool) (more : Nat)
  /-- The remaining letters of a word. -/
  | word (letters : Text)
  /-- The first digit after a minus sign. -/
  | minus
  /-- What follows a leading zero. -/
  | zero
  | integer
  /-- The first digit after the decimal point. -/
  | point
  | fraction
  /-- A sign or the first digit of an exponent. -/
  | exponent
  /-- The first digit after the sign of an exponent. -/
  | exponentSign
  | exponentDigits
  deriving DecidableEq, Repr

/-- What one character leads to. -/
inductive SkimStep where
  | more (nest : List Nest) (state : Skim)
  /-- The value ends with this character. -/
  | done
  /-- The value ended before this character. -/
  | past
  | fault (f : JsonFault)
  deriving DecidableEq, Repr

namespace Skim

/-- A value inside `nest` is complete. -/
def finish : List Nest → SkimStep
  | [] => .done
  | nest => .more nest .next

/-- A string is complete. -/
def finishString (nest : List Nest) (isKey : Bool) : SkimStep :=
  if isKey then .more nest .colon else finish nest

/-- The first character of a value. -/
def start (nest : List Nest) (c : Char) : SkimStep :=
  if c = '"' then .more nest (.text false)
  else if c = '[' then .more (.array :: nest) .firstItem
  else if c = '{' then .more (.object :: nest) .firstKey
  else if c = 't' then .more nest (.word ['r', 'u', 'e'])
  else if c = 'f' then .more nest (.word ['a', 'l', 's', 'e'])
  else if c = 'n' then .more nest (.word ['u', 'l', 'l'])
  else if c = '-' then .more nest .minus
  else if c = '0' then .more nest .zero
  else if c.isDigit then .more nest .integer
  else .fault .malformed

/-- A character after a value. -/
def following (nest : List Nest) (c : Char) : SkimStep :=
  if isSpace c then .more nest .next
  else
    match nest with
    | .array :: outer =>
      if c = ',' then .more nest .value
      else if c = ']' then finish outer
      else .fault .malformed
    | .object :: outer =>
      if c = ',' then .more nest .key
      else if c = '}' then finish outer
      else .fault .malformed
    | [] => .fault .malformed

/-- A character that is no part of the number before it. -/
def afterNumber (nest : List Nest) (c : Char) : SkimStep :=
  if nest.isEmpty then .past else following nest c

/-- The first digit of the whole part of a number. -/
def firstDigit (nest : List Nest) (c : Char) : SkimStep :=
  if c = '0' then .more nest .zero
  else if c.isDigit then .more nest .integer
  else .fault .malformed

/-- A character after the whole part of a number. -/
def afterInteger (nest : List Nest) (c : Char) : SkimStep :=
  if c = '.' then .more nest .point
  else if c = 'e' ∨ c = 'E' then .more nest .exponent
  else afterNumber nest c

/-- What a character leads to; `rest` is the text after it. -/
def step (nest : List Nest) (state : Skim) (c : Char) (rest : Text) : SkimStep :=
  match state with
  | value => if isSpace c then .more nest value else start nest c
  | firstItem =>
    if isSpace c then .more nest firstItem
    else if c = ']' then finish nest.tail
    else start nest c
  | firstKey =>
    if isSpace c then .more nest firstKey
    else if c = '}' then finish nest.tail
    else if c = '"' then .more nest (.text true)
    else .fault .malformed
  | key =>
    if isSpace c then .more nest key
    else if c = '"' then .more nest (.text true)
    else .fault .malformed
  | colon =>
    if isSpace c then .more nest colon
    else if c = ':' then .more nest .value
    else .fault .malformed
  | next => following nest c
  | text isKey =>
    if c = '"' then finishString nest isKey
    else if c = '\\' then .more nest (.escape isKey)
    else if c.toNat < 0x20 then .fault .malformed
    else .more nest (.text isKey)
  | escape isKey =>
    if c = 'u' then .more nest (.hex isKey 3)
    else if (unescape? c).isSome then .more nest (.text isKey)
    else .fault .malformed
  | hex isKey more =>
    match hexValue? c, more with
    | none, _ => .fault (hexFault (more + 1) (c :: rest))
    | some _, 0 => .more nest (.text isKey)
    | some _, more + 1 => .more nest (.hex isKey more)
  | word letters =>
    match letters with
    | [] => .fault .malformed
    | [l] => if c = l then finish nest else .fault .malformed
    | l :: ls => if c = l then .more nest (.word ls) else .fault .malformed
  | minus => firstDigit nest c
  | zero => if c.isDigit then .fault .malformed else afterInteger nest c
  | integer => if c.isDigit then .more nest integer else afterInteger nest c
  | point => if c.isDigit then .more nest .fraction else .fault .malformed
  | fraction =>
    if c.isDigit then .more nest fraction
    else if c = 'e' ∨ c = 'E' then .more nest .exponent
    else afterNumber nest c
  | exponent =>
    if c = '+' ∨ c = '-' then .more nest .exponentSign
    else if c.isDigit then .more nest .exponentDigits
    else .fault .malformed
  | exponentSign => if c.isDigit then .more nest .exponentDigits else .fault .malformed
  | exponentDigits => if c.isDigit then .more nest exponentDigits else afterNumber nest c

/-- What the end of the text means: a number may end there if nothing is open. -/
def atEnd (nest : List Nest) (state : Skim) : Except JsonFault Text :=
  match state with
  | zero | integer | fraction | exponentDigits =>
    if nest.isEmpty then .ok [] else .error .truncated
  | minus | point | exponent | exponentSign => .error .malformed
  | _ => .error .truncated

end Skim

/-- Skims the rest of a value from a given state. -/
def skimFrom (nest : List Nest) (state : Skim) : Text → Except JsonFault Text
  | [] => state.atEnd nest
  | c :: t =>
    match state.step nest c t with
    | .more nest state => skimFrom nest state t
    | .done => .ok t
    | .past => .ok (c :: t)
    | .fault f => .error f

/-- Skims one value, white space before it included. -/
def skimValue (t : Text) : Except JsonFault Text := skimFrom [] .value t

end Chomsky.Json
