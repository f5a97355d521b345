import Chomsky.Proofs.Normalization
import Chomsky.Proofs.WellFormedness
import Chomsky.Registry

/-!
# Stopping early and resuming

Null elimination and unit elimination find nothing to do in what they gave themselves, down to the
order of the rules, and unit elimination brings no null symbol back.  So a run may end after either
of them; its output may be printed, and read again by a run that goes through all stages.  After the
third stage this is no longer so: a rule that it removes may have been the only way to another one.

* `Stage.pathTo` — the stages up to a given one.

Principal results: `Registry.upTo_default` — the chain of the usual stages up to a given one;
`Grammar.WellFormed.parse_printed` — a well-formed grammar is read back from its text;
`Grammar.prepared_eliminateNull`, `Grammar.prepared_eliminateUnits` — what was done is not done
again; `Grammar.normalize_resumed` — a run that is resumed ends as one that is not;
`Grammar.exists_normalize_prepared_ne` — after the third stage it need not.
-/

namespace Chomsky

/-! ## Chains of stages -/

/-- The stages up to a given one, in their usual order. -/
def Stage.pathTo : Stage → List Stage
  | null => [null]
  | unit => [null, unit]
  | useless => [null, unit, useless]
  | normal => [null, unit, useless, normal]

theorem Chain.apply_ofStages (stages : List Stage) (g : Grammar) :
    (ofList (stages.map .stage)).apply g = runStages stages g := by
  rw [apply_ofList]
  induction stages generalizing g with
  | nil => rfl
  | cons s stages ih =>
    simp only [List.map_cons, Pass.applyAll, Pass.apply, runStages]
    cases s.apply g with
    | error e => rfl
    | ok h => exact ih h

/-- **The usual stages are chained up to the one that is named.** -/
theorem Registry.upTo_default (s : Stage) :
    Registry.default.upTo s.name = .ok (.ofList (s.pathTo.map .stage)) := by
  cases s <;> rfl

namespace Grammar

variable {g : Grammar}

/-! ## Reading back -/

/-- The lines of a printed grammar spell its rules, one each. -/
theorem WellFormed.spells_text (hg : g.WellFormed) :
    List.Forall₂ (SpellsLine g.marker) (grammarLines g.marker (g.text.physicalLines.map Text.trim))
      (g.rules.map ([·])) := by
  have hlines := map_trim_physicalLines_text hg.isMarker g.start hg.rules
  rw [hlines, grammarLines_text, List.forall₂_map_left_iff, List.forall₂_map_right_iff,
    List.forall₂_same]
  exact fun r hr => (hg.rules r hr).spellsLine hg.isMarker

/-- **A well-formed grammar is read back from its text** under its own start symbol and marker. -/
theorem WellFormed.parse_printed (hg : g.WellFormed) {c : Config} (hstart : c.start = g.start)
    (hmarker : c.marker = g.marker) : parse c g.text = .ok g := by
  have hflatten : (g.rules.map ([·])).flatten = g.rules := List.flatMap_singleton' g.rules
  refine (parse_eq_ok (hg.validate hstart hmarker)).2
    ⟨hstart.symm, hmarker.symm, g.rules.map ([·]), ?_, hflatten.symm⟩
  rw [hmarker]
  exact hg.spells_text

/-! ## Stages that were run before -/

/-- Null elimination finds no null rules in what it gave. -/
theorem eliminateNull_eliminateNull (hg : g.WellShaped) :
    g.eliminateNull.eliminateNull = g.eliminateNull := by
  refine eliminateNull_eq_self (nodup_withRules ..) (fun r hr => ?_) fun r hr => ?_
  · exact (mem_eliminateNull.1 hr).1
  · exact null_not_mem_eliminateNull hg.null_alone hr

/-- Bodies that are inherited are bodies that null elimination left. -/
theorem eliminateNull_eliminateUnits (hg : g.WellShaped) :
    g.eliminateNull.eliminateUnits.eliminateNull = g.eliminateNull.eliminateUnits := by
  refine eliminateNull_eq_self (nodup_withRules ..) (fun r hr => ?_) fun r hr => ?_
  · obtain ⟨-, B, -, hB⟩ := mem_eliminateUnits.1 hr
    exact (mem_eliminateNull.1 hB).1
  · obtain ⟨-, B, -, hB⟩ := mem_eliminateUnits.1 hr
    exact null_not_mem_eliminateNull (r := ⟨B, r.body⟩) hg.null_alone hB

/-- **Null elimination may have been run before.** -/
theorem prepared_eliminateNull (hg : g.WellShaped) : g.eliminateNull.prepared = g.prepared := by
  unfold prepared
  rw [eliminateNull_eliminateNull hg]

/-- **Null elimination and unit elimination may have been run before.** -/
theorem prepared_eliminateUnits (hg : g.WellShaped) :
    g.eliminateNull.eliminateUnits.prepared = g.prepared := by
  unfold prepared
  rw [eliminateNull_eliminateUnits hg, eliminateUnits_eliminateUnits]

/-- **Nothing is lost by stopping after the first or the second stage.**  What the stages up to it
give is well formed, so its text is read back, and normalized it gives what the grammar itself
gives: the same rules in the same order, or the same lack of names. -/
theorem normalize_resumed (hg : g.WellFormed) {s : Stage} (hs : s = .null ∨ s = .unit) :
    ∃ chain P, Registry.default.upTo s.name = .ok chain ∧ chain.apply g = .ok P ∧
      ∀ c : Config, c.start = g.start → c.marker = g.marker →
        ∃ Q, parse c P.text = .ok Q ∧ Q.normalize = g.normalize := by
  obtain ⟨P, hrun, hprepared⟩ : ∃ P, (Chain.ofList (s.pathTo.map .stage)).apply g = .ok P ∧
      P.prepared = g.prepared := by
    rcases hs with rfl | rfl
    · exact ⟨g.eliminateNull, Chain.apply_ofStages _ g, prepared_eliminateNull hg.wellShaped⟩
    · exact ⟨g.eliminateNull.eliminateUnits, Chain.apply_ofStages _ g,
        prepared_eliminateUnits hg.wellShaped⟩
  refine ⟨_, P, Registry.upTo_default s, hrun, fun c hstart hmarker => ⟨P, ?_, ?_⟩⟩
  · have hsame : SameSettings g P := Pass.apply_sameSettings hrun
    exact (Pass.apply_wellFormed hg hrun).parse_printed (hstart.trans hsame.start.symm)
      (hmarker.trans hsame.marker.symm)
  · rw [normalize_eq, normalize_eq, hprepared]

/-- Null rules, a unit rule, and a nonterminal `A` that derives nothing: it stands beside the only
`B` that `S` reaches. -/
def withheld : Grammar where
  rules := [⟨'S', [.nonterminal 'A', .nonterminal 'B']⟩, ⟨'S', [.terminal 'a', .nonterminal 'S']⟩,
    ⟨'S', [.null]⟩, ⟨'A', [.terminal 'a', .nonterminal 'A']⟩, ⟨'B', [.nonterminal 'C']⟩,
    ⟨'C', [.terminal 'b']⟩]
  start := 'S'
  marker := '#'

theorem wellFormed_withheld : withheld.WellFormed := ⟨rfl, rfl, by decide⟩

theorem normalize_resumed_withheld :
    withheld.WellFormed ∧
      ∃ chain P, Registry.default.upTo "unit" = .ok chain ∧ chain.apply withheld = .ok P ∧
        P.text = "S -> AB\nS -> aS\nS -> a\nA -> aA\nB -> b\nC -> b\n".toList ∧
        ∃ Q, parse ⟨'S', '#', false⟩ P.text = .ok Q ∧ Q.normalize = withheld.normalize := by
  obtain ⟨chain, P, hchain, hP, hread⟩ :=
    normalize_resumed wellFormed_withheld (s := .unit) (.inr rfl)
  refine ⟨wellFormed_withheld, chain, P, hchain, hP, ?_, hread ⟨'S', '#', false⟩ rfl rfl⟩
  obtain rfl : .ofList [.stage .null, .stage .unit] = chain := Except.ok.inj hchain
  obtain rfl : withheld.eliminateNull.eliminateUnits = P := Except.ok.inj hP
  rfl

/-- **After the third stage a run cannot be resumed.**  It drops the way to `B` and keeps its rule,
which another run drops. -/
theorem exists_normalize_prepared_ne :
    ∃ g : Grammar, g.WellFormed ∧ g.prepared.normalize ≠ g.normalize :=
  ⟨withheld, wellFormed_withheld, by decide⟩

end Grammar

end Chomsky
