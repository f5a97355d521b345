import Chomsky.Text.Lines

/-!
# JSON values and their text

* `Json` — the values.  A number is kept as it is spelled, an object as its members in order.
* `Json.encodeText` — a text between double quotes.
* `Json.Layout` — on one line, or one item a line with two blanks for each level.
* `Json.write` — the text of a value.

Principal result: `encodeChar_plain` — a character that needs no escape stands for itself.
-/

namespace Chomsky

/-- A JSON value. -/
inductive Json where
  | null
  | bool (b : Bool)
  | number (spelling : Text)
  | string (t : Text)
  | array (items : List Json)
  | object (members : List (Text × Json))

namespace Json

/-- A hexadecimal digit, in lower case. -/
def hexDigit (n : Nat) : Char := Nat.digitChar (n % 16)

/-- A character inside a string.  The quote, the backslash and the control characters below the
blank are escaped. -/
def encodeChar (c : Char) : Text :=
  if c = '"' then ['\\', '"']
  else if c = '\\' then ['\\', '\\']
  else if c = '\x08' then ['\\', 'b']
  else if c = '\x0C' then ['\\', 'f']
  else if c = '\n' then ['\\', 'n']
  else if c = '\r' then ['\\', 'r']
  else if c = '\t' then ['\\', 't']
  else if c.toNat < 0x20 then
    ['\\', 'u', '0', '0', hexDigit (c.toNat / 16), hexDigit c.toNat]
  else [c]

theorem encodeChar_plain {c : Char} (h : 0x20 ≤ c.toNat) (hq : c ≠ '"') (hb : c ≠ '\\') :
    encodeChar c = [c] := by
  have hlt : ¬ c.toNat < 0x20 := by omega
  have h8 : c ≠ '\x08' := by rintro rfl; exact absurd h (by decide)
  have hC : c ≠ '\x0C' := by rintro rfl; exact absurd h (by decide)
  have hn : c ≠ '\n' := by rintro rfl; exact absurd h (by decide)
  have hr : c ≠ '\r' := by rintro rfl; exact absurd h (by decide)
  have ht : c ≠ '\t' := by rintro rfl; exact absurd h (by decide)
  simp [encodeChar, hq, hb, h8, hC, hn, hr, ht, hlt]

/-- A text as a JSON string. -/
def encodeText (t : Text) : Text := '"' :: t.flatMap encodeChar ++ ['"']

/-- How the items of arrays and objects are set apart. -/
inductive Layout where
  | compact
  | indented
  deriving DecidableEq, Repr

namespace Layout

/-- What stands before an item, and before a closing bracket, at a depth. -/
def lineBreak : Layout → Nat → Text
  | compact, _ => []
  | indented, depth => '\n' :: List.replicate (2 * depth) ' '

/-- What stands between a key and its value. -/
def colon : Layout → Text
  | compact => [':']
  | indented => [':', ' ']

end Layout

mutual

/-- The text of a value at a depth. -/
def write (l : Layout) (depth : Nat) : Json → Text
  | null => ['n', 'u', 'l', 'l']
  | bool true => ['t', 'r', 'u', 'e']
  | bool false => ['f', 'a', 'l', 's', 'e']
  | number spelling => spelling
  | string t => encodeText t
  | array [] => ['[', ']']
  | array (x :: xs) =>
    '[' :: l.lineBreak (depth + 1) ++ write l (depth + 1) x ++ writeItems l (depth + 1) xs ++
      l.lineBreak depth ++ [']']
  | object [] => ['{', '}']
  | object (m :: ms) =>
    '{' :: l.lineBreak (depth + 1) ++ writeMember l (depth + 1) m ++
      writeMembers l (depth + 1) ms ++ l.lineBreak depth ++ ['}']

/-- The items that follow the first one. -/
def writeItems (l : Layout) (depth : Nat) : List Json → Text
  | [] => []
  | x :: xs => ',' :: l.lineBreak depth ++ write l depth x ++ writeItems l depth xs

def writeMember (l : Layout) (depth : Nat) : Text × Json → Text
  | (key, value) => encodeText key ++ l.colon ++ write l depth value

/-- The members that follow the first one. -/
def writeMembers (l : Layout) (depth : Nat) : List (Text × Json) → Text
  | [] => []
  | m :: ms => ',' :: l.lineBreak depth ++ writeMember l depth m ++ writeMembers l depth ms

end

end Json

end Chomsky
