import Chomsky.Grammar
import Chomsky.Saturation

/-!
# Generating nonterminals

Given which symbols count as leaves, a nonterminal is generating when one of its rules has a body
of leaves and generating nonterminals only.

* `Symbol.generatesIn` — whether a symbol is a leaf or belongs to a set of nonterminals.
* `generatingPass` — one pass over the rules, which adds heads to a set.
* `Grammar.generating` — the generating nonterminals.
* `Grammar.nullable` — those generating from the null symbol: they derive the empty string.
* `Grammar.productive` — those generating from terminals: they derive a string without the null
  symbol.

Principal results: `subset_generatingPass` — a pass only adds; `mem_generatingPass` — what it adds
are heads of rules.
-/

namespace Chomsky

/-- A symbol is a leaf, or a nonterminal of the set. -/
def Symbol.generatesIn (leaf : Symbol → Bool) (s : CharSet) : Symbol → Bool
  | nonterminal name => name ∈ s
  | other => leaf other

/-- Adds the head of a rule whose body generates by what is known so far. -/
def generatingStep (leaf : Symbol → Bool) (s : CharSet) (r : Rule) : CharSet :=
  if r.body.all (·.generatesIn leaf s) then s.insert r.head else s

/-- One pass over the rules; what it adds counts at once. -/
def generatingPass (leaf : Symbol → Bool) (rules : List Rule) (s : CharSet) : CharSet :=
  rules.foldl (generatingStep leaf) s

theorem subset_generatingPass {leaf : Symbol → Bool} {rules : List Rule} {s : CharSet} {c : Char}
    (h : c ∈ s) : c ∈ generatingPass leaf rules s := by
  unfold generatingPass
  induction rules generalizing s with
  | nil => exact h
  | cons r rules ih =>
    refine ih ?_
    unfold generatingStep
    split
    · exact CharSet.mem_insert.2 (.inr h)
    · exact h

theorem mem_generatingPass {leaf : Symbol → Bool} {rules : List Rule} {s : CharSet} {c : Char}
    (h : c ∈ generatingPass leaf rules s) : c ∈ s ∨ ∃ r ∈ rules, r.head = c := by
  unfold generatingPass at h
  induction rules generalizing s with
  | nil => exact .inl h
  | cons r rules ih =>
    rcases ih h with h | ⟨q, hq, hc⟩
    · unfold generatingStep at h
      split at h
      · rcases CharSet.mem_insert.1 h with rfl | h
        · exact .inr ⟨r, List.mem_cons_self .., rfl⟩
        · exact .inl h
      · exact .inl h
    · exact .inr ⟨q, List.mem_cons_of_mem _ hq, hc⟩

namespace Grammar

/-- The sets after each pass.  A pass that changes anything adds a head, so there are no more
passes than rules, and one. -/
def generatingPasses (g : Grammar) (leaf : Symbol → Bool) : List CharSet :=
  passes (generatingPass leaf g.rules) (g.rules.length + 1) ∅

/-- The nonterminals generating from the given leaves. -/
def generating (g : Grammar) (leaf : Symbol → Bool) : CharSet :=
  saturate (generatingPass leaf g.rules) (g.rules.length + 1) ∅

/-- The nonterminals that derive the empty string. -/
def nullable (g : Grammar) : CharSet := g.generating (· == .null)

/-- The nonterminals that derive some string without use of the null symbol. -/
def productive (g : Grammar) : CharSet := g.generating Symbol.isTerminal

end Grammar

end Chomsky
