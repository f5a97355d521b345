import Chomsky.Error
import Chomsky.Json.Printer

/-!
# Scanning JSON

The parts from which readers of JSON texts are made.  Each takes the text that is left and gives
back what is left after it.

* `skipSpace` — the white space between tokens.
* `expectWord` — the letters of `true`, `false` and `null`.
* `readString` — a string, with its escapes decoded.

Principal results: `expectWord_append` — a word that is there is read;
`readString_encodeText` — a written string is read back.
-/

namespace Chomsky.Json

/-- White space between tokens. -/
def isSpace (c : Char) : Bool := c == ' ' || c == '\n' || c == '\t' || c == '\r'

def skipSpace (t : Text) : Text := t.dropWhile isSpace

/-- Reads the given letters. -/
def expectWord : Text → Text → Except JsonFault Text
  | [], t => .ok t
  | _ :: _, [] => .error .truncated
  | w :: ws, c :: t => if c = w then expectWord ws t else .error .malformed

theorem expectWord_append (w t : Text) : expectWord w (w ++ t) = .ok t := by
  induction w with
  | nil => rfl
  | cons c w ih => simpa [expectWord] using ih

/-! ## Strings -/

/-- The value of a hexadecimal digit of either case. -/
def hexValue? (c : Char) : Option Nat :=
  if c.isDigit then some (c.toNat - 48)
  else if 'a' ≤ c ∧ c ≤ 'f' then some (c.toNat - 87)
  else if 'A' ≤ c ∧ c ≤ 'F' then some (c.toNat - 55)
  else none

/-- What is wrong where a hexadecimal digit is missing and `count` of them are still needed: the
text is cut short if that many bytes are not left. -/
def hexFault (count : Nat) (t : Text) : JsonFault :=
  if count ≤ (t.take count).foldl (· + ·.utf8Size) 0 then .malformed else .truncated

/-- The character that a backslash and one more character stand for. -/
def unescape? (c : Char) : Option Char :=
  if c = '"' ∨ c = '\\' ∨ c = '/' then some c
  else if c = 'b' then some '\x08'
  else if c = 'f' then some '\x0C'
  else if c = 'n' then some '\n'
  else if c = 'r' then some '\r'
  else if c = 't' then some '\t'
  else none

/-- Where a reader stands inside a string. -/
inductive StringState where
  | plain
  /-- After a backslash. -/
  | escape
  /-- In the hexadecimal digits of an escape: `more` digits follow the next one, `value` is that
  of the digits read, and `high` is the surrogate that waits for its partner. -/
  | hex (more value : Nat) (high : Option Nat)
  /-- After a leading surrogate: another escape must follow. -/
  | paired (high : Nat)
  /-- After a leading surrogate and a backslash. -/
  | pairedEscape (high : Nat)
  deriving DecidableEq, Repr

/-- What four hexadecimal digits amount to. -/
inductive CodeUnit where
  | character (c : Char)
  /-- The first half of a surrogate pair. -/
  | leading (high : Nat)
  /-- A surrogate without its partner. -/
  | unpaired
  deriving DecidableEq, Repr

/-- Combines a code unit with the leading surrogate before it, if there is one. -/
def codeUnit (value : Nat) : Option Nat → CodeUnit
  | some high =>
    if 0xDC00 ≤ value ∧ value ≤ 0xDFFF then
      .character (Char.ofNat (0x10000 + (high - 0xD800) * 0x400 + (value - 0xDC00)))
    else .unpaired
  | none =>
    if 0xD800 ≤ value ∧ value ≤ 0xDBFF then .leading value
    else if 0xDC00 ≤ value ∧ value ≤ 0xDFFF then .unpaired
    else .character (Char.ofNat value)

/-- Puts a character in front of what is read after it. -/
def prepend (c : Char) : Except JsonFault (Text × Text) → Except JsonFault (Text × Text)
  | .error e => .error e
  | .ok (s, t) => .ok (c :: s, t)

/-- Reads the rest of a string from a given state, up to its closing quote. -/
def readStringFrom : StringState → Text → Except JsonFault (Text × Text)
  | _, [] => .error .truncated
  | .plain, c :: t =>
    if c = '"' then .ok ([], t)
    else if c = '\\' then readStringFrom .escape t
    else if c.toNat < 0x20 then .error .malformed
    else prepend c (readStringFrom .plain t)
  | .escape, c :: t =>
    if c = 'u' then readStringFrom (.hex 3 0 none) t
    else
      match unescape? c with
      | none => .error .malformed
      | some d => prepend d (readStringFrom .plain t)
  | .hex more value high, c :: t =>
    match hexValue? c, more with
    | none, _ => .error (hexFault (more + 1) (c :: t))
    | some d, more + 1 => readStringFrom (.hex more (value * 16 + d) high) t
    | some d, 0 =>
      match codeUnit (value * 16 + d) high with
      | .character e => prepend e (readStringFrom .plain t)
      | .leading high => readStringFrom (.paired high) t
      | .unpaired => .error .malformed
  | .paired high, c :: t =>
    if c = '\\' then readStringFrom (.pairedEscape high) t else .error .malformed
  | .pairedEscape high, c :: t =>
    if c = 'u' then readStringFrom (.hex 3 0 (some high)) t else .error .malformed

/-- Reads a string whose opening quote has been read. -/
def readString (t : Text) : Except JsonFault (Text × Text) := readStringFrom .plain t

theorem hexValue?_hexDigit {n : Nat} : hexValue? (hexDigit n) = some (n % 16) := by
  have h : ∀ m < 16, hexValue? (Nat.digitChar m) = some m := by decide
  exact h (n % 16) (Nat.mod_lt _ (by decide))

theorem readString_encodeChar (c : Char) (t : Text) :
    readString (encodeChar c ++ t) = prepend c (readString t) := by
  unfold readString encodeChar
  split
  · subst_vars; rfl
  split
  · subst_vars; rfl
  split
  · subst_vars; rfl
  split
  · subst_vars; rfl
  split
  · subst_vars; rfl
  split
  · subst_vars; rfl
  split
  · subst_vars; rfl
  split
  · rename_i h
    have h16 : c.toNat / 16 % 16 * 16 + c.toNat % 16 = c.toNat := by omega
    have hu : codeUnit c.toNat none = .character c := by
      have h1 : ¬ (0xD800 ≤ c.toNat ∧ c.toNat ≤ 0xDBFF) := by omega
      have h2 : ¬ (0xDC00 ≤ c.toNat ∧ c.toNat ≤ 0xDFFF) := by omega
      simp only [codeUnit, h1, h2, if_false, Char.ofNat_toNat]
    have h0 : hexValue? '0' = some 0 := rfl
    simp [readStringFrom, hexValue?_hexDigit, h0, h16, hu]
  · rename_i hq hb _ _ _ _ _ hlt
    simp [readStringFrom, hq, hb, hlt]

/-- **A written string is read back.** -/
theorem readString_encodeText (s t : Text) :
    readString ((encodeText s).tail ++ t) = .ok (s, t) := by
  unfold encodeText
  simp only [List.cons_append, List.tail_cons, List.append_assoc]
  induction s with
  | nil => rfl
  | cons c s ih =>
    rw [List.flatMap_cons, List.append_assoc, readString_encodeChar, ih]
    rfl

end Chomsky.Json
