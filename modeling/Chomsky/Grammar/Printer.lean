import Chomsky.Grammar

/-!
# Printing grammars

* `Grammar.text` — a grammar as it is written, one rule a line.

Principal result: `text_cons` — the text of a grammar is the text of its rules, line after line.
-/

namespace Chomsky.Grammar

/-- One line for each rule, in order. -/
def text (g : Grammar) : Text :=
  g.rules.flatMap fun r => r.text g.marker ++ ['\n']

@[simp] theorem text_nil (start marker : Char) : text ⟨[], start, marker⟩ = [] := rfl

@[simp] theorem text_cons (r : Rule) (rules : List Rule) (start marker : Char) :
    text ⟨r :: rules, start, marker⟩ =
      r.text marker ++ '\n' :: text ⟨rules, start, marker⟩ := by
  simp [text]

end Chomsky.Grammar
