import Chomsky.Grammar
import Chomsky.Saturation

/-!
# Unit elimination

A unit rule `A -> B` lets `A` do whatever `B` can do.  It is replaced by the rules that `A` gets
that way.

* `Grammar.unitPairs` — heads and bodies of the unit rules.
* `UnitClosure` — for each nonterminal, nonterminals it reaches through unit rules.
* `Grammar.unitClosure` — all that each nonterminal reaches.
* `Grammar.eliminateUnits` — the grammar with the inherited rules in place of the unit rules.

Principal result: `not_isUnit_of_mem_eliminateUnits` — no unit rule is left.
-/

namespace Chomsky

/-- For each nonterminal, in ascending order, nonterminals that it reaches. -/
abbrev UnitClosure := List (Char × CharSet)

namespace UnitClosure

/-- What a nonterminal reaches. -/
def targets (u : UnitClosure) (name : Char) : CharSet := (u.lookup name).getD ∅

/-- Adds to what a nonterminal reaches. -/
def extend (u : UnitClosure) (name : Char) (s : CharSet) : UnitClosure :=
  u.map fun e => if e.1 = name then (e.1, e.2.union s) else e

/-- One pass over the unit rules: a head reaches what the body reaches so far. -/
def pass (pairs : List (Char × Char)) (u : UnitClosure) : UnitClosure :=
  pairs.foldl (fun u p => u.extend p.1 (u.targets p.2)) u

end UnitClosure

namespace Grammar

/-- The unit rules, as pairs of nonterminals. -/
def unitPairs (g : Grammar) : List (Char × Char) :=
  g.rules.filterMap fun r => r.unitTarget?.map (r.head, ·)

/-- Each nonterminal reaches itself. -/
def selfClosure (g : Grammar) : UnitClosure :=
  g.nonterminals.toList.map fun name => (name, CharSet.ofList [name])

/-- A bound on the number of passes: each one but the last adds a pair of nonterminals. -/
def closureLimit (g : Grammar) : Nat := g.nonterminals.size * g.nonterminals.size + 1

/-- The closures after each pass. -/
def closurePasses (g : Grammar) : List UnitClosure :=
  passes (UnitClosure.pass g.unitPairs) g.closureLimit g.selfClosure

/-- For each nonterminal, all that it reaches through unit rules, itself included. -/
def unitClosure (g : Grammar) : UnitClosure :=
  saturate (UnitClosure.pass g.unitPairs) g.closureLimit g.selfClosure

/-- The rules that replace one rule: a unit rule gives way to the other rules of all that its
head reaches. -/
def inheritedRules (g : Grammar) (u : UnitClosure) (r : Rule) : List Rule :=
  if r.isUnit then
    (u.targets r.head).toList.flatMap fun target =>
      ((g.rulesFor target).filter (!·.isUnit)).map (⟨r.head, ·.body⟩)
  else [r]

/-- The inherited rules in place of the unit rules. -/
def eliminateUnits (g : Grammar) : Grammar :=
  g.withRules (g.rules.flatMap (g.inheritedRules g.unitClosure))

/-- What a head gets from one nonterminal: the rules of the latter that are no unit rules. -/
theorem mem_map_rulesFor {g : Grammar} {A B : Char} {r : Rule} :
    r ∈ ((g.rulesFor B).filter (!·.isUnit)).map (⟨A, ·.body⟩) ↔
      r.head = A ∧ r.isUnit = false ∧ ⟨B, r.body⟩ ∈ g.rules := by
  simp only [List.mem_map, List.mem_filter, mem_rulesFor, Bool.not_eq_true']
  constructor
  · rintro ⟨q, ⟨⟨hq, rfl⟩, hunit⟩, rfl⟩
    exact ⟨rfl, (Rule.isUnit_congr rfl).trans hunit, hq⟩
  · rintro ⟨rfl, hunit, hr⟩
    exact ⟨⟨B, r.body⟩, ⟨⟨hr, rfl⟩, (Rule.isUnit_congr rfl).trans hunit⟩, rfl⟩

theorem not_isUnit_of_mem_eliminateUnits {g : Grammar} {r : Rule}
    (h : r ∈ g.eliminateUnits.rules) : r.isUnit = false := by
  obtain ⟨q, -, hq⟩ := List.mem_flatMap.1 (mem_withRules.1 h)
  unfold inheritedRules at hq
  split at hq
  · obtain ⟨target, -, ht⟩ := List.mem_flatMap.1 hq
    exact (mem_map_rulesFor.1 ht).2.1
  · rename_i hu
    rw [List.mem_singleton.1 hq]
    simpa using hu

end Grammar

end Chomsky
