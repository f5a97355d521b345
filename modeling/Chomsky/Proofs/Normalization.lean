import Chomsky.Pass
import Chomsky.Proofs.NullElimination
import Chomsky.Proofs.Unfolding
import Chomsky.Proofs.UnitElimination
import Chomsky.Proofs.UsefulSymbols

/-!
# Normalization

The first three stages of the usual order never fail, and they prepare a grammar for the last one:
no body that they leave is empty, uses the null symbol or is one nonterminal.  None of the three
does all of this; the null symbol of an unusual rule is gone only after the third.

* `Grammar.prepared` — the grammar after null elimination, unit elimination and the removal of
  useless symbols.
* `NormalFormOf` — a grammar in Chomsky normal form under the start symbol and marker of another
  one.

Principal results: `Grammar.derives_binarize` — what the last stage does to any grammar;
`Grammar.generates_prepared` — the start symbol keeps its non-empty strings in the first three;
`Grammar.derives_normalize` — so it does in normal form; `Grammar.normalize_outcome` — the result is
a normal form, or there are too few names.
-/

namespace Chomsky

/-- The grammar as binarization gets it in the usual order of stages. -/
def Grammar.prepared (g : Grammar) : Grammar := g.eliminateNull.eliminateUnits.eliminateUseless

theorem Grammar.normalize_eq (g : Grammar) : g.normalize = g.prepared.binarize := by
  unfold normalize Chain.standard
  rw [Chain.apply_ofList]
  simp only [Pass.applyAll, Pass.apply, Stage.apply]
  unfold prepared
  cases g.eliminateNull.eliminateUnits.eliminateUseless.binarize <;> rfl

/-! ## The shape of the rules -/

theorem Rule.isNormal_iff {r : Rule} :
    r.isNormal = true ↔
      (∃ a, r.body = [.terminal a]) ∨ ∃ A B, r.body = [.nonterminal A, .nonterminal B] := by
  unfold isNormal
  split
  · rename_i a hbody
    simp [hbody]
  · rename_i A B hbody
    simp [hbody]
  · rename_i hterminal hpair
    simp only [Bool.false_eq_true, false_iff, not_or, not_exists]
    exact ⟨hterminal, hpair⟩

/-- Links unfold to two nonterminals. -/
theorem eq_pairRule_of_mem_linkRules {first : Char} {names links : List Char} {q : Rule}
    (hq : q ∈ linkRules first names links) : ∃ a b, q = pairRule q.head a b := by
  induction names generalizing first links with
  | nil => cases links <;> exact absurd hq List.not_mem_nil
  | cons second names ih =>
    cases links with
    | nil => exact absurd hq List.not_mem_nil
    | cons link links =>
      rcases List.mem_append.1 hq with hq | hq
      · exact ih hq
      · exact ⟨first, links.headD second, by rw [List.mem_singleton.1 hq]; rfl⟩

/-- What is written for a rule has bodies of two nonterminals, unless it is the rule itself. -/
theorem Rule.mem_encode {r q : Rule} {nameOf : Symbol → Char} {links : List Char}
    (hq : q ∈ r.encode nameOf links) :
    (∃ a b, q = pairRule q.head a b) ∨ q = r ∧ r.body.length ≤ 1 := by
  rcases r.short_or_long with hshort | ⟨first, second, rest, hlong⟩
  · rw [encode_of_short hshort, List.mem_singleton] at hq
    exact .inr ⟨hq, hshort⟩
  · rw [encode_eq_linkRules hlong] at hq
    exact .inl (eq_pairRule_of_mem_linkRules hq)

namespace Grammar

variable {g h : Grammar} {r q : Rule} {w : List Char} {e : GrammarError}

/-- Binarization writes pairs, keeps the rules of one symbol, and adds rules for stand-ins. -/
theorem mem_binarize (hrun : g.binarize = .ok h) (hq : q ∈ h.rules) :
    (∃ a b, q = pairRule q.head a b) ∨ q ∈ g.rules ∧ q.body.length = 1 ∨
      q.head ∈ (NameSupply.ofGrammar g).free ∧ ∃ a, q.body = [.terminal a] := by
  obtain ⟨plan, t, b, rfl⟩ := binarize_ok hrun
  rcases List.mem_append.1 (mem_withRules.1 hq) with hq | hq
  · obtain ⟨p, hp, hq⟩ := List.mem_flatMap.1 hq
    refine (Rule.mem_encode hq).imp_right fun hsame => .inl ?_
    obtain ⟨rfl, hshort⟩ := hsame
    have hpos := List.length_pos_iff.2 (b.body_ne_nil (b.rule_mem hp))
    exact ⟨b.rule_mem hp, Nat.le_antisymm hshort hpos⟩
  · obtain ⟨entry, hentry, rfl⟩ := List.mem_map.1 hq
    refine .inr (.inr ⟨b.names.mem_iff.1 ?_, entry.1, rfl⟩)
    exact List.mem_append_right _ (List.mem_append_left _ (List.mem_map_of_mem hentry))

/-- Binarization keeps the rules of one symbol. -/
theorem mem_binarize_of_length_eq_one (hrun : g.binarize = .ok h) (hr : r ∈ g.rules)
    (hone : r.body.length = 1) : r ∈ h.rules := by
  obtain ⟨plan, t, b, rfl⟩ := binarize_ok hrun
  rw [← b.rules] at hr
  obtain ⟨p, hp, rfl⟩ := List.mem_map.1 hr
  refine mem_withRules.2 (List.mem_append_left _ (List.mem_flatMap.2 ⟨p, hp, ?_⟩))
  rw [Rule.encode_of_short (Nat.le_of_eq hone)]
  exact List.mem_singleton.2 rfl

/-- **Binarization gives a normal form exactly when the rules of one symbol are terminals.** -/
theorem isNormal_binarize (hrun : g.binarize = .ok h) :
    h.isNormal = true ↔ ∀ r ∈ g.rules, r.body.length = 1 → ∃ a, r.body = [.terminal a] := by
  unfold isNormal
  rw [List.all_eq_true]
  constructor
  · intro hnormal r hr hone
    rcases Rule.isNormal_iff.1 (hnormal r (mem_binarize_of_length_eq_one hrun hr hone)) with
      hterminal | ⟨A, B, hpair⟩
    · exact hterminal
    · rw [hpair] at hone
      cases hone
  · intro hterminals q hq
    rw [Rule.isNormal_iff]
    rcases mem_binarize hrun hq with ⟨a, b, hpair⟩ | ⟨hrule, hone⟩ | ⟨-, hterminal⟩
    · exact .inr ⟨a, b, by rw [hpair]; rfl⟩
    · exact .inl (hterminals q hrule hone)
    · exact .inl hterminal

/-- **Binarization keeps the language of every old nonterminal**, of whatever grammar.  It writes
pairs of nonterminals, the rules of one symbol and rules that turn a new name into a terminal, so
the result is a normal form exactly when the rules of one symbol were terminals. -/
theorem derives_binarize (hrun : g.binarize = .ok h) :
    (∀ X, X ∈ g.nonterminals ∨ X = g.start → ∀ w, Derives h X w ↔ Derives g X w) ∧
      (∀ q ∈ h.rules, (∃ A B, q.body = [.nonterminal A, .nonterminal B]) ∨
        q.body.length = 1 ∧ (q ∈ g.rules ∨
          q.head ∈ alphabet ∧ q.head ≠ g.start ∧ q.head ∉ g.nonterminals ∧
            ∃ a, q.body = [.terminal a])) ∧
      (h.isNormal = true ↔ ∀ r ∈ g.rules, r.body.length = 1 → ∃ a, r.body = [.terminal a]) := by
  refine ⟨fun X hX w => generates_binarize hrun hX, fun q hq => ?_, isNormal_binarize hrun⟩
  rcases mem_binarize hrun hq with ⟨A, B, hpair⟩ | ⟨hrule, hone⟩ | ⟨hfree, a, hterminal⟩
  · exact .inl ⟨A, B, by rw [hpair]; rfl⟩
  · exact .inr ⟨hone, .inl hrule⟩
  · obtain ⟨hletter, hstart, hnew⟩ := NameSupply.mem_free_ofGrammar.1 hfree
    have hone : q.body.length = 1 := by rw [hterminal]; rfl
    exact .inr ⟨hone, .inr ⟨hletter, hstart, hnew, a, hterminal⟩⟩

/-- A grammar with a long body, a null rule, a unit rule and a nonterminal that is not reachable. -/
def unprepared : Grammar where
  rules := [⟨'S', [.terminal 'a', .nonterminal 'S', .terminal 'b', .nonterminal 'T']⟩,
    ⟨'S', [.nonterminal 'T']⟩, ⟨'T', [.null]⟩, ⟨'U', [.terminal 'a', .terminal 'b']⟩]
  start := 'S'
  marker := '#'

/-- The rules of `unprepared`, binarized. -/
def unpreparedPairs : Grammar where
  rules := [pairRule 'C' 'B' 'T', pairRule 'D' 'S' 'C', pairRule 'S' 'A' 'D',
    ⟨'S', [.nonterminal 'T']⟩, ⟨'T', [.null]⟩, pairRule 'U' 'A' 'B', ⟨'A', [.terminal 'a']⟩,
    ⟨'B', [.terminal 'b']⟩]
  start := 'S'
  marker := '#'

theorem derives_binarize_unprepared :
    unprepared.binarize = .ok unpreparedPairs ∧ unpreparedPairs.isNormal = false ∧
      (∀ w, Derives unpreparedPairs 'S' w ↔ Derives unprepared 'S' w) ∧
      ∀ w, Derives unpreparedPairs 'U' w ↔ Derives unprepared 'U' w := by
  have hrun : unprepared.binarize = .ok unpreparedPairs := rfl
  obtain ⟨hderives, -⟩ := derives_binarize hrun
  exact ⟨hrun, rfl, hderives 'S' (.inr rfl), hderives 'U' (.inl (by decide))⟩

theorem start_binarize (hrun : g.binarize = .ok h) :
    h.start = g.start ∧ h.marker = g.marker ∧ h.rules.Nodup := by
  obtain ⟨plan, t, -, rfl⟩ := binarize_ok hrun
  exact ⟨rfl, rfl, nodup_withRules ..⟩

/-- Without empty bodies and null symbols binarization fails only for want of names. -/
theorem exhausted_of_binarize_error (hne : ∀ r ∈ g.rules, r.body ≠ [])
    (hnull : ∀ r ∈ g.rules, Symbol.null ∉ r.body) (hrun : g.binarize = .error e) :
    (NameSupply.ofGrammar g).free.length < (demands ∅ g.rules).length ∧
      ∃ purpose, e = .exhausted purpose := by
  obtain ⟨t, hrun⟩ := binarize_eq_error.1 hrun
  refine (binarization_error hrun).exhausted fun reason hfault => ?_
  obtain ⟨r, hr, hempty | hnamed⟩ := fault_mem_demands.1 ⟨reason, hfault⟩
  · exact hne r hr hempty
  · exact hnull r hr (Rule.mem_body_of_mem_namedSymbols hnamed)

/-! ## What the first three stages leave -/

/-- **The first three stages leave neither empty bodies, nor null symbols, nor unit rules.** -/
theorem body_of_mem_prepared (hr : r ∈ g.prepared.rules) :
    r.body ≠ [] ∧ Symbol.null ∉ r.body ∧ r.isUnit = false := by
  obtain ⟨hr, -, -⟩ := mem_eliminateUseless_iff.1 hr
  obtain ⟨hr, hnull⟩ := mem_nullFree.1 hr
  obtain ⟨hunit, B, -, hB⟩ := mem_eliminateUnits.1 hr
  exact ⟨(mem_eliminateNull.1 hB).1, hnull, hunit⟩

/-- A body of one symbol is a terminal then. -/
theorem terminal_of_mem_prepared (hr : r ∈ g.prepared.rules) (hone : r.body.length = 1) :
    ∃ a, r.body = [.terminal a] := by
  obtain ⟨-, hnull, hunit⟩ := body_of_mem_prepared hr
  obtain ⟨x, hbody⟩ := List.length_eq_one_iff.1 hone
  cases x with
  | terminal a => exact ⟨a, hbody⟩
  | null => simp [hbody] at hnull
  | nonterminal B => simp [Rule.isUnit_iff.2 ⟨B, hbody⟩] at hunit

/-- **The start symbol keeps its non-empty strings** through the first three stages.  Unit
elimination is exact also for the rules without the null symbol, and those are all that count after
null elimination and all that the third stage looks at. -/
theorem generates_prepared :
    Generates g.prepared.rules g.start w ↔ w ≠ [] ∧ Derives g g.start w :=
  calc Generates g.prepared.rules g.start w
    _ ↔ Generates (nullFree g.eliminateNull.eliminateUnits.rules) g.start w :=
      generates_eliminateUseless (start_mem_reachable g.eliminateNull.eliminateUnits)
    _ ↔ Generates (nullFree g.eliminateNull.rules) g.start w := generates_nullFree_eliminateUnits
    _ ↔ w ≠ [] ∧ Derives g g.start w := generates_eliminateNull

/-! ## The result -/

/-- **Normalization keeps the language, but for the empty string.** -/
theorem derives_normalize (hrun : g.normalize = .ok h) (w : List Char) :
    Derives h h.start w ↔ w ≠ [] ∧ Derives g g.start w := by
  rw [normalize_eq] at hrun
  have hstart : h.start = g.start := (start_binarize hrun).1
  rw [hstart]
  calc Derives h g.start w
    _ ↔ Generates g.prepared.rules g.start w := generates_binarize hrun (.inr rfl)
    _ ↔ w ≠ [] ∧ Derives g g.start w := generates_prepared

/-- A grammar with an empty body, a null symbol beside another symbol, and a unit cycle. -/
def tangled : Grammar where
  rules := [⟨'S', [.terminal 'a', .nonterminal 'S', .terminal 'b']⟩, ⟨'S', []⟩,
    ⟨'S', [.null, .nonterminal 'T']⟩, ⟨'T', [.nonterminal 'S']⟩, ⟨'T', [.terminal 'c', .null]⟩]
  start := 'S'
  marker := '\\'

/-- The normal form of `tangled`. -/
def untangled : Grammar where
  rules := [pairRule 'C' 'S' 'B', pairRule 'S' 'A' 'C', pairRule 'S' 'A' 'B',
    ⟨'S', [.terminal 'c']⟩, pairRule 'D' 'S' 'B', pairRule 'T' 'A' 'D', pairRule 'T' 'A' 'B',
    ⟨'T', [.terminal 'c']⟩, ⟨'A', [.terminal 'a']⟩, ⟨'B', [.terminal 'b']⟩]
  start := 'S'
  marker := '\\'

theorem derives_normalize_tangled :
    tangled.normalize = .ok untangled ∧
      ∀ w, Derives untangled 'S' w ↔ w ≠ [] ∧ Derives tangled 'S' w := by
  have hrun : tangled.normalize = .ok untangled := rfl
  exact ⟨hrun, derives_normalize hrun⟩

end Grammar

/-- A grammar in Chomsky normal form, without duplicate rules, under the start symbol and the marker
of another one. -/
structure NormalFormOf (g h : Grammar) : Prop where
  isNormal : h.isNormal = true
  shape : ∀ r ∈ h.rules,
    (∃ a, r.body = [.terminal a]) ∨ ∃ A B, r.body = [.nonterminal A, .nonterminal B]
  nodup : h.rules.Nodup
  start : h.start = g.start
  marker : h.marker = g.marker

namespace Grammar

variable {g h : Grammar}

theorem normalFormOf_normalize (hrun : g.normalize = .ok h) : NormalFormOf g h := by
  rw [normalize_eq] at hrun
  obtain ⟨hstart, hmarker, hnodup⟩ := start_binarize hrun
  have hnormal : h.isNormal = true :=
    (isNormal_binarize hrun).2 fun r hr hone => terminal_of_mem_prepared hr hone
  refine ⟨hnormal, fun r hr => ?_, hnodup, hstart, hmarker⟩
  exact Rule.isNormal_iff.1 (List.all_eq_true.1 hnormal r hr)

/-- **Normalization ends in a normal form or runs out of names.**  Binarization, which ends it, gets
neither an empty body nor a null symbol, so it refuses no rule as malformed. -/
theorem normalize_outcome (g : Grammar) :
    g.normalize = g.prepared.binarize ∧
      (∀ r ∈ g.prepared.rules, r.body ≠ [] ∧ Symbol.null ∉ r.body) ∧
      ((∃ h, g.normalize = .ok h ∧ NormalFormOf g h) ∨
        ∃ purpose, g.normalize = .error (.exhausted purpose)) := by
  refine ⟨normalize_eq g, fun r hr => ?_, ?_⟩
  · obtain ⟨hne, hnull, -⟩ := body_of_mem_prepared hr
    exact ⟨hne, hnull⟩
  · cases hrun : g.normalize with
    | ok h => exact .inl ⟨h, rfl, normalFormOf_normalize hrun⟩
    | error e =>
      rw [normalize_eq] at hrun
      obtain ⟨-, purpose, rfl⟩ := exhausted_of_binarize_error
        (fun r hr => (body_of_mem_prepared hr).1) (fun r hr => (body_of_mem_prepared hr).2.1) hrun
      exact .inr ⟨purpose, rfl⟩

end Grammar

end Chomsky
