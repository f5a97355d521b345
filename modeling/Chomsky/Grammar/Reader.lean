import Chomsky.Grammar.Parser
import Chomsky.Text.Bytes

/-!
# Reading grammars from bytes

The bytes are read line by line, and no further than the grammar goes: what follows the blank
line after it is never decoded.

* `readLines` — the lines that belong to a grammar, decoded.
* `Grammar.read` — the grammar that bytes spell under a configuration.
-/

namespace Chomsky

/-- The decoded lines up to the first blank line after a rule line; `seen` tells whether there
was a rule line before. -/
def readLines (seen : Bool) : List Text.Bytes → Except FileFault (List Text)
  | [] => .ok []
  | bytes :: rest =>
    match Text.decode? bytes with
    | none => .error .notUtf8
    | some line =>
      if seen && line.trim.isEmpty then .ok []
      else
        match readLines (seen || isContent line.trim) rest with
        | .error e => .error e
        | .ok lines => .ok (line :: lines)

/-- The grammar that bytes spell.  A line that is not UTF-8 is reported before all else. -/
def Grammar.read (c : Config) (bytes : Text.Bytes) : Except GrammarError Grammar :=
  match readLines false (bytes.splitOnP (· == 10)) with
  | .error fault => .error (.file fault)
  | .ok lines => Grammar.parse c (lines.flatMap (· ++ ['\n']))

end Chomsky
