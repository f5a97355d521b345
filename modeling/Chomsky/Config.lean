import Chomsky.Error
import Chomsky.Text.Alphabetic

/-!
# Configurations

* `Config` — the start symbol and the null marker of a grammar, and whether its rules are printed
  sorted.
* `Config.validate` — refuses a start symbol that is not an upper-case letter and a marker that
  could be taken for something else in rule text.

Principal result: `validate_eq_ok` — what an admissible configuration is.
-/

namespace Chomsky

/-- How grammars are read and printed. -/
structure Config where
  start : Char := 'S'
  marker : Char := '\\'
  sorted : Bool := false
  deriving DecidableEq, Repr

namespace Config

/-- A marker may not be a letter, a blank or the bar between alternatives. -/
def isMarker (c : Char) : Bool := !(Text.isAlphabetic c || Text.isBlank c || c == '|')

/-- Start symbol first, then marker. -/
def validate (c : Config) : Except GrammarError Unit :=
  if !c.start.isUpper then .error (.config (.badStart c.start))
  else if !isMarker c.marker then .error (.config (.badMarker c.marker))
  else .ok ()

theorem validate_eq_ok {c : Config} :
    c.validate = .ok () ↔ c.start.isUpper = true ∧ isMarker c.marker = true := by
  unfold validate
  split
  · simp_all
  split <;> simp_all

end Config

end Chomsky
