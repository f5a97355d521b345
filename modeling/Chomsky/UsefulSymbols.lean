import Chomsky.Generating

/-!
# Useful symbols

* `Grammar.reachable` — the nonterminals that occur in what the start symbol turns into.
* `Grammar.eliminateUseless` — the rules with a reachable head and a productive body.  Both sets
  belong to the grammar as it is given, so the rules kept may leave a nonterminal unreachable.

Principal result: `mem_eliminateUseless` — which rules are kept.
-/

namespace Chomsky

/-- One pass over the rules: a known head makes the nonterminals of the body known. -/
def reachablePass (rules : List Rule) (s : CharSet) : CharSet :=
  rules.foldl (fun s r => if r.head ∈ s then s.insertAll r.bodyNonterminals else s) s

namespace Grammar

/-- The start symbol and the nonterminals that it reaches through rules.  A pass that changes
anything adds a nonterminal of the grammar. -/
def reachable (g : Grammar) : CharSet :=
  saturate (reachablePass g.rules) (g.nonterminals.size + 1) (.ofList [g.start])

/-- The rules with a reachable head whose body holds terminals and productive nonterminals
only. -/
def eliminateUseless (g : Grammar) : Grammar :=
  let reachable := g.reachable
  let productive := g.productive
  g.withRules (g.rules.filter fun r =>
    r.head ∈ reachable && r.body.all (·.generatesIn Symbol.isTerminal productive))

theorem mem_eliminateUseless {g : Grammar} {r : Rule} :
    r ∈ g.eliminateUseless.rules ↔
      r ∈ g.rules ∧ r.head ∈ g.reachable ∧
        ∀ s ∈ r.body, s.generatesIn Symbol.isTerminal g.productive = true := by
  simp [eliminateUseless]

end Grammar

end Chomsky
