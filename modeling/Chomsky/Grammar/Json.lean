import Chomsky.Grammar
import Chomsky.Json.Printer

/-!
# Grammars as JSON

* `Grammar.toJson` — the start symbol, and the rules as heads and written bodies.
* `Grammar.jsonText` — that value, set out over several lines.
-/

namespace Chomsky

/-- A rule as an object with head and written body. -/
def Rule.toJson (marker : Char) (r : Rule) : Json :=
  .object [("lhs".toList, .string [r.head]), ("rhs".toList, .string (r.bodyText marker))]

/-- A grammar as an object with start symbol and rules. -/
def Grammar.toJson (g : Grammar) : Json :=
  .object [("start_symbol".toList, .string [g.start]),
    ("rules".toList, .array (g.rules.map (·.toJson g.marker)))]

/-- The JSON text of a grammar. -/
def Grammar.jsonText (g : Grammar) : Text := g.toJson.write .indented 0

end Chomsky
