import Chomsky.Proofs.UnitClosure

/-!
# The rules that unit elimination leaves

What the elimination of unit rules should give is said by a loop over all pairs of nonterminals:
when `A` reaches `B` through unit rules, `A` has the other rules of `B`.  `Grammar.eliminateUnits`
runs no such loop. It goes through the rules, replaces each unit rule by all that its head inherits,
and lets the others stand.  So a head with several unit rules inherits several times, a head with
none is not looked up in the closure, and a unit rule whose target has no rules may vanish.  The
rules that are left are the same.

* `Grammar.inheritance` — the rules by pairs of nonterminals.

Principal results: `Grammar.mem_inheritance` — what the pairs give;
`Grammar.eliminateUnits_inherits` — unit elimination gives exactly these rules.
-/

namespace Chomsky

namespace Rule

variable {r : Rule}

theorem isUnit_eq_false_iff : r.isUnit = false ↔ ∀ C, r.body ≠ [.nonterminal C] := by
  rw [← Bool.not_eq_true, isUnit_iff, not_exists]

end Rule

namespace Grammar

variable {g : Grammar} {A B : Char} {r : Rule}

/-- For each nonterminal, and for each one that it reaches through unit rules, the other rules of
the latter under the head of the former. -/
def inheritance (g : Grammar) : List Rule :=
  g.unitClosure.flatMap fun e =>
    e.2.toList.flatMap fun B => ((g.rulesFor B).filter (!·.isUnit)).map (⟨e.1, ·.body⟩)

/-- A head of a rule and all that reaches it are nonterminals of the grammar. -/
theorem mem_nonterminals_of_unitReaches (h : UnitReaches g.rules A B)
    (hB : B ∈ g.nonterminals) : A ∈ g.nonterminals := by
  rcases h.cases_head with rfl | ⟨C, hstep, -⟩
  · exact hB
  · exact (mem_nonterminals_of_unitStep hstep).1

/-- The entries of the closure are the nonterminals with what they reach. -/
theorem mem_unitClosure {e : Char × CharSet} (he : e ∈ g.unitClosure) :
    e.1 ∈ g.nonterminals ∧ ∀ B, B ∈ e.2 ↔ UnitReaches g.rules e.1 B := by
  rw [g.over_unitClosure.eq_map g.nonterminals.nodup_toList] at he
  obtain ⟨A, hA, rfl⟩ := List.mem_map.1 he
  exact ⟨hA, fun B => mem_targets_unitClosure.trans (and_iff_right hA)⟩

theorem exists_mem_unitClosure (hA : A ∈ g.nonterminals) : ∃ s, (A, s) ∈ g.unitClosure := by
  rw [← CharSet.mem_toList, ← keys_unitClosure] at hA
  obtain ⟨⟨_, s⟩, he, rfl⟩ := List.mem_map.1 hA
  exact ⟨s, he⟩

/-- **The pairs give a head the other rules of all that it reaches.** -/
theorem mem_inheritance :
    r ∈ g.inheritance ↔
      r.isUnit = false ∧ ∃ B, UnitReaches g.rules r.head B ∧ ⟨B, r.body⟩ ∈ g.rules := by
  unfold inheritance
  simp only [List.mem_flatMap, mem_map_rulesFor]
  constructor
  · rintro ⟨e, he, B, hB, hhead, hunit, hr⟩
    rw [hhead]
    exact ⟨hunit, B, ((mem_unitClosure he).2 B).1 hB, hr⟩
  · rintro ⟨hunit, B, hreach, hr⟩
    have hB : B ∈ g.nonterminals := mem_nonterminals.2 ⟨_, hr, .inl rfl⟩
    obtain ⟨s, he⟩ := exists_mem_unitClosure (mem_nonterminals_of_unitReaches hreach hB)
    exact ⟨_, he, B, ((mem_unitClosure he).2 B).2 hreach, rfl, hunit, hr⟩

theorem mem_eliminateUnits_of_isUnit (hr : r ∈ g.rules) (hunit : r.isUnit = false) :
    r ∈ g.eliminateUnits.rules :=
  mem_eliminateUnits.2 ⟨hunit, r.head, .refl, hr⟩

/-- **Unit elimination gives exactly the inherited rules**, whatever the grammar: those whose body
is not one nonterminal and belongs to a rule of something that unit rules lead to from the head.
These are the rules that the pairs of the closure give; all other rules of the grammar are among
them; and a second elimination finds nothing to do. -/
theorem eliminateUnits_inherits (g : Grammar) :
    (∀ A body, ⟨A, body⟩ ∈ g.eliminateUnits.rules ↔
        (∀ C, body ≠ [.nonterminal C]) ∧
          ∃ B, (∃ n, UnitChain g.rules n A B) ∧ ⟨B, body⟩ ∈ g.rules) ∧
      (∀ r, r ∈ g.eliminateUnits.rules ↔ r ∈ g.inheritance) ∧
      (∀ r ∈ g.rules, (∀ C, r.body ≠ [.nonterminal C]) → r ∈ g.eliminateUnits.rules) ∧
      g.eliminateUnits.eliminateUnits = g.eliminateUnits := by
  refine ⟨fun A body => ?_, fun r => ?_, fun r hr hbody => ?_, g.eliminateUnits_eliminateUnits⟩
  · simp only [mem_eliminateUnits, Rule.isUnit_eq_false_iff, unitReaches_iff]
  · rw [mem_eliminateUnits, mem_inheritance]
  · exact mem_eliminateUnits_of_isUnit hr (Rule.isUnit_eq_false_iff.2 hbody)

/-- Unit rules in a circle, to the head itself, twice from one head, and to a nonterminal without
rules. -/
def entangled : Grammar where
  rules := [⟨'S', [.nonterminal 'A']⟩, ⟨'S', [.nonterminal 'D']⟩, ⟨'S', [.nonterminal 'B']⟩,
    ⟨'A', [.nonterminal 'A']⟩, ⟨'A', [.nonterminal 'B']⟩, ⟨'B', [.nonterminal 'A']⟩,
    ⟨'B', [.terminal 'b', .nonterminal 'S']⟩, ⟨'C', [.null]⟩, ⟨'E', [.nonterminal 'D']⟩]
  start := 'S'
  marker := '\\'

/-- The one rule that is inherited is written once for each head that reaches it, and the rule that
is no unit rule stays. -/
theorem eliminateUnits_inherits_entangled :
    (⟨'B', [.terminal 'b', .nonterminal 'S']⟩ ∈ entangled.rules ∧
        ∀ C, [Symbol.terminal 'b', .nonterminal 'S'] ≠ [.nonterminal C]) ∧
      ⟨'B', [.terminal 'b', .nonterminal 'S']⟩ ∈ entangled.eliminateUnits.rules ∧
      entangled.eliminateUnits.rules =
        [⟨'S', [.terminal 'b', .nonterminal 'S']⟩, ⟨'A', [.terminal 'b', .nonterminal 'S']⟩,
          ⟨'B', [.terminal 'b', .nonterminal 'S']⟩, ⟨'C', [.null]⟩] := by
  obtain ⟨-, -, hstays, -⟩ := eliminateUnits_inherits entangled
  have hmem : ⟨'B', [.terminal 'b', .nonterminal 'S']⟩ ∈ entangled.rules := by decide
  have hbody : ∀ C, [Symbol.terminal 'b', .nonterminal 'S'] ≠ [.nonterminal C] := by simp
  exact ⟨⟨hmem, hbody⟩, hstays _ hmem hbody, by decide⟩

end Grammar

end Chomsky
