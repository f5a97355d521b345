import Chomsky.Proofs.NameRequests
import Chomsky.Proofs.WrittenRules

/-!
# How many rules binarization gives

The rules for new names are as many as the new names.  Those for old names unfold to the rules of
the grammar, so two of them are equal only where a rule is repeated.  Without repeated rules all
that is written is kept, and it can be counted from the lengths of the bodies.

Principal results: `Binarized.length_newNames` — how many new names there are;
`Binarized.length_written` — how many rules are kept; `Binarized.nodup_written` — all are kept when
no rule is repeated; `Grammar.length_binarize` — how many rules there are then.
-/

namespace Chomsky

/-- A list has no duplicates when a selection from it and the rest of it have none. -/
theorem nodup_of_filter {α : Type} [DecidableEq α] {as : List α} (p : α → Prop) [DecidablePred p]
    (hp : (as.filter p).Nodup) (hrest : (as.filter (¬ p ·)).Nodup) : as.Nodup := by
  refine List.nodup_iff_count_le_one.2 fun a => ?_
  by_cases ha : p a
  · have hcount := List.nodup_iff_count_le_one.1 hp a
    rwa [List.count_filter (by simpa using ha)] at hcount
  · have hcount := List.nodup_iff_count_le_one.1 hrest a
    rwa [List.count_filter (by simpa using ha)] at hcount

namespace Binarized

variable {g : Grammar} {plan : Plan} {t : NameSupply}

/-! ## New names -/

/-- There is one stand-in for each terminal of the rules of two or more symbols. -/
theorem length_standIns (b : Binarized g plan t) : t.standIns.length = g.pairedTerminals.size := by
  have hkeys : t.standIns.map Prod.fst = g.pairedTerminals.toList := by
    refine CharSet.eq_of_pairwise b.ascending g.pairedTerminals.ascending fun a => ?_
    rw [CharSet.mem_toList, ← g.ofList_namedLetters, ← b.letters, NameSupply.letters,
      CharSet.mem_ofList]
  rw [CharSet.size, ← hkeys, List.length_map]

/-- **How many new names there are.** -/
theorem length_newNames (b : Binarized g plan t) :
    (newNames plan t).length = (g.rules.map Rule.linkCount).sum + g.pairedTerminals.size := by
  rw [newNames, List.length_append, Plan.length_links b.lengths, b.rules, List.length_map,
    b.length_standIns]

/-! ## Rules that are kept -/

/-- **How many rules are kept**: one for each new name, and those for old names, each once. -/
theorem length_written (b : Binarized g plan t) :
    (firstOccurrences (plan.encode t.nameOf ++ t.rules)).length = (newNames plan t).length +
      (firstOccurrences (plan.map fun p => p.1.leading t.nameOf p.2)).length := by
  have hnew := congrArg List.length b.newRules_eq
  have hold := congrArg List.length b.oldRules_eq
  have hheads := b.map_head_written_perm.length_eq
  rw [List.length_map, ← hnew] at hheads
  rw [← hheads, ← hold]
  simpa [Grammar.newRules, Grammar.oldRules, Grammar.withRules] using
    List.length_eq_length_filter_add fun r : Rule => decide (g.IsNew r.head)

/-- The rules for old names unfold to different rules, if those of the grammar are different. -/
theorem nodup_leading (b : Binarized g plan t) (hnodup : g.rules.Nodup) :
    (plan.map fun p => p.1.leading t.nameOf p.2).Nodup := by
  refine List.Nodup.of_map (Rule.unfoldBody (unfold plan t)) ?_
  rwa [b.map_unfoldBody_leading]

/-- **Nothing is written twice when no rule is repeated.** -/
theorem nodup_written (b : Binarized g plan t) (hnodup : g.rules.Nodup) :
    (plan.encode t.nameOf ++ t.rules).Nodup := by
  refine nodup_of_filter (fun r => g.IsNew r.head) ?_ ?_
  · rw [b.filter_isNew_written]
    exact b.nodup_filter_isNew_written
  · rw [b.filter_not_isNew_written]
    exact b.nodup_leading hnodup

end Binarized

namespace Grammar

variable {g h : Grammar}

/-- **How many rules binarization gives when no rule is repeated**: one less than a body has
symbols, but at least one, for each rule, and one for each terminal of the rules of two or more
symbols.  All rules that are written are kept. -/
theorem length_binarize (hnodup : g.rules.Nodup) (hrun : g.binarize = .ok h) :
    h.rules.length =
        (g.rules.map fun r => max 1 (r.body.length - 1)).sum + g.pairedTerminals.size ∧
      ∃ written t, splitRules (.ofGrammar g) g.rules = .ok (written, t) ∧
        h.rules = written ++ t.rules := by
  obtain ⟨t, hrun⟩ := binarize_eq_ok.1 hrun
  unfold binarization at hrun
  split at hrun
  · cases hrun
  · rename_i written t hsplit
    cases hrun
    obtain ⟨plan, b, rfl⟩ := binarized_of_splitRules hsplit
    have hrules : plan.length = g.rules.length := by rw [← b.rules, List.length_map]
    have hsum : (g.rules.map fun r => max 1 (r.body.length - 1)).sum =
        (g.rules.map Rule.linkCount).sum + g.rules.length := by
      calc (g.rules.map fun r => max 1 (r.body.length - 1)).sum
        _ = (g.rules.map fun r => r.linkCount + 1).sum := by
          refine congrArg List.sum (List.map_congr_left fun r _ => ?_)
          rw [Rule.linkCount]
          omega
        _ = (g.rules.map Rule.linkCount).sum + g.rules.length := by
          rw [List.sum_map_add, List.map_const', List.sum_replicate, smul_eq_mul, Nat.mul_one]
    refine ⟨?_, _, t, hsplit, firstOccurrences_of_nodup (b.nodup_written hnodup)⟩
    show (firstOccurrences _).length = _
    rw [b.length_written, firstOccurrences_of_nodup (b.nodup_leading hnodup), List.length_map,
      hrules, b.length_newNames, hsum]
    omega

/-- Rules of one symbol up to four, with three terminals. -/
def graded : Grammar where
  rules := [⟨'S', [.terminal 'a']⟩, ⟨'S', [.terminal 'a', .terminal 'b']⟩,
    ⟨'S', [.terminal 'a', .nonterminal 'S', .terminal 'b']⟩,
    ⟨'S', [.terminal 'a', .nonterminal 'S', .terminal 'b', .terminal 'c']⟩]
  start := 'S'
  marker := '#'

theorem length_binarize_graded :
    graded.rules.Nodup ∧ ∃ h, graded.binarize = .ok h ∧ h.rules.length = 1 + 1 + 2 + 3 + 3 ∧
      ∃ written t, splitRules (.ofGrammar graded) graded.rules = .ok (written, t) ∧
        h.rules = written ++ t.rules := by
  have hnodup : graded.rules.Nodup := by decide
  obtain ⟨h, hrun⟩ : ∃ h, graded.binarize = .ok h := ⟨_, rfl⟩
  obtain ⟨hlength, hkept⟩ := length_binarize hnodup hrun
  exact ⟨hnodup, h, hrun, hlength, hkept⟩

end Grammar

end Chomsky
