import Chomsky.CharSet
import Chomsky.Config
import Chomsky.Deduplication
import Chomsky.Rule

/-!
# Grammars

* `Grammar` — a list of rules with a start symbol and the marker the null symbol is written as.
  Rules are kept in order, and nothing is said here about which rules are sensible.
* `Grammar.empty`, `Grammar.new` — grammars without rules.
* `withRules` — other rules under the same start symbol and marker, without duplicates.
* `nonterminals`, `terminals` — the symbols that occur.
* `sorted` — the rules in their order.

Principal results: `mem_nonterminals`, `mem_terminals`; `withRules_flatMap_eq_self` — rules that are
replaced by themselves change nothing; `sorted_perm` — sorting only moves rules.
-/

namespace Chomsky

/-- A context-free grammar over symbols of one character each. -/
structure Grammar where
  rules : List Rule
  start : Char
  marker : Char
  deriving DecidableEq, Repr

namespace Grammar

/-- The grammar without rules for a configuration that is taken to be admissible. -/
def empty (c : Config) : Grammar := ⟨[], c.start, c.marker⟩

/-- The grammar without rules for a start symbol, with the usual marker. -/
def new (start : Char) : Except GrammarError Grammar :=
  let c : Config := { start }
  match c.validate with
  | .error e => .error e
  | .ok () => .ok (empty c)

/-- Other rules under the same start symbol and marker; of equal rules the first one is kept. -/
def withRules (g : Grammar) (rules : List Rule) : Grammar :=
  { g with rules := firstOccurrences rules }

/-- The rules with a given head. -/
def rulesFor (g : Grammar) (head : Char) : List Rule := g.rules.filter (·.head == head)

/-- Whether some rule has a given head. -/
def hasRuleFor (g : Grammar) (head : Char) : Bool := g.rules.any (·.head == head)

/-- The nonterminals that occur: all heads, and the nonterminals of the bodies. -/
def nonterminals (g : Grammar) : CharSet :=
  .ofList (g.rules.flatMap fun r => r.head :: r.bodyNonterminals)

/-- The terminals that occur. -/
def terminals (g : Grammar) : CharSet :=
  .ofList (g.rules.flatMap Rule.bodyTerminals)

/-- Chomsky normal form: every body is one terminal or two nonterminals. -/
def isNormal (g : Grammar) : Bool := g.rules.all Rule.isNormal

/-- The rules in their order. -/
def sorted (g : Grammar) : Grammar :=
  { g with rules := g.rules.mergeSort fun r s => r ≤ s }

theorem mem_nonterminals {g : Grammar} {c : Char} :
    c ∈ g.nonterminals ↔ ∃ r ∈ g.rules, c = r.head ∨ .nonterminal c ∈ r.body := by
  simp [nonterminals]

theorem mem_terminals {g : Grammar} {c : Char} :
    c ∈ g.terminals ↔ ∃ r ∈ g.rules, .terminal c ∈ r.body := by
  simp [terminals]

@[simp] theorem mem_rulesFor {g : Grammar} {c : Char} {r : Rule} :
    r ∈ g.rulesFor c ↔ r ∈ g.rules ∧ r.head = c := by
  simp [rulesFor]

@[simp] theorem mem_withRules {g : Grammar} {rules : List Rule} {r : Rule} :
    r ∈ (g.withRules rules).rules ↔ r ∈ rules := by
  simp [withRules]

theorem nodup_withRules (g : Grammar) (rules : List Rule) : (g.withRules rules).rules.Nodup :=
  nodup_firstOccurrences rules

/-- Its own rules leave a grammar without duplicates as it is. -/
theorem withRules_rules {g : Grammar} (hg : g.rules.Nodup) : g.withRules g.rules = g := by
  rw [withRules, firstOccurrences_of_nodup hg]

/-- So do rules that are each replaced by themselves. -/
theorem withRules_flatMap_eq_self {g : Grammar} {f : Rule → List Rule} (hg : g.rules.Nodup)
    (hf : ∀ r ∈ g.rules, f r = [r]) : g.withRules (g.rules.flatMap f) = g := by
  have hrules : g.rules.flatMap f = g.rules :=
    calc g.rules.flatMap f
      _ = (g.rules.map ([·])).flatten := by rw [List.flatMap_def, List.map_congr_left hf]
      _ = g.rules := List.flatMap_singleton' g.rules
  rw [hrules, withRules_rules hg]

theorem sorted_perm (g : Grammar) : g.sorted.rules.Perm g.rules :=
  List.mergeSort_perm ..

end Grammar

end Chomsky
