import Chomsky.Text.Lines
import Chomsky.Text.Visible

/-!
# Quoted texts

How a text or a character is shown inside a report, between quotes.

* `escaped quote c` — the character `c` between quotes of the kind `quote`: the quote itself, the
  backslash and the common control characters follow a backslash, other hidden characters stand
  as their code point in braces.
* `quoted`, `quotedString` — a text or a string between double quotes; `quotedChar` — a character
  between single ones.

Principal result: `escaped_of_isVisible` — a visible character other than the quote and the
backslash stands for itself.
-/

namespace Chomsky.Text

/-- A character as it stands between two quotes. -/
def escaped (quote c : Char) : Text :=
  if c = '\x00' then ['\\', '0']
  else if c = '\t' then ['\\', 't']
  else if c = '\r' then ['\\', 'r']
  else if c = '\n' then ['\\', 'n']
  else if c = '\\' ∨ c = quote then ['\\', c]
  else if isVisible c then [c]
  else ['\\', 'u', '{'] ++ Nat.toDigits 16 c.toNat ++ ['}']

theorem escaped_of_isVisible {quote c : Char} (hc : isVisible c = true) (hq : c ≠ quote)
    (hb : c ≠ '\\') : escaped quote c = [c] := by
  have h0 : c ≠ '\x00' := by rintro rfl; exact absurd hc (by decide)
  have ht : c ≠ '\t' := by rintro rfl; exact absurd hc (by decide)
  have hr : c ≠ '\r' := by rintro rfl; exact absurd hc (by decide)
  have hn : c ≠ '\n' := by rintro rfl; exact absurd hc (by decide)
  simp [escaped, h0, ht, hr, hn, hq, hb, hc]

/-- A text between double quotes. -/
def quoted (t : Text) : Text := '"' :: t.flatMap (escaped '"') ++ ['"']

/-- A string between double quotes. -/
def quotedString (s : String) : String := (quoted s.toList).string

/-- A character between single quotes. -/
def quotedChar (c : Char) : Text := '\'' :: escaped '\'' c ++ ['\'']

end Chomsky.Text
