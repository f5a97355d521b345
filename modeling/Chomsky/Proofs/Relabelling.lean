import Chomsky.Proofs.Deduplication
import Chomsky.Proofs.Normalization

/-!
# Relabelling terminals

The first three stages look at a terminal only to see that it is one, and to see whether two rules
are the same.  Both stay as they are when the terminals are permuted, so these stages give the
permuted rules, in the same order.

* `Symbol.relabel`, `Rule.relabel`, `Grammar.relabel` — terminals under other letters.

Principal results: `Grammar.generating_relabel`, `Grammar.unitClosure_relabel`,
`Grammar.reachable_relabel` — what is said of nonterminals stays; `Grammar.eliminateNull_relabel`,
`Grammar.eliminateUnits_relabel`, `Grammar.eliminateUseless_relabel` — the stages;
`Grammar.prepared_relabel` — all three.
-/

namespace Chomsky

/-! ## Symbols and rules -/

/-- A symbol under another letter, if it is a terminal. -/
def Symbol.relabel (p : Equiv.Perm Char) : Symbol → Symbol
  | nonterminal X => nonterminal X
  | terminal a => terminal (p a)
  | null => null

/-- A rule under other terminals. -/
def Rule.relabel (p : Equiv.Perm Char) (r : Rule) : Rule := ⟨r.head, r.body.map (Symbol.relabel p)⟩

/-- A grammar under other terminals. -/
def Grammar.relabel (p : Equiv.Perm Char) (g : Grammar) : Grammar :=
  { g with rules := g.rules.map (Rule.relabel p) }

section Symbols

variable {p : Equiv.Perm Char} {s : Symbol} {leaf : Symbol → Bool}

theorem Symbol.relabel_injective : Function.Injective (Symbol.relabel p) := by
  intro x y h
  cases x <;> cases y <;> simp_all [Symbol.relabel]

@[simp] theorem Symbol.relabel_eq_nonterminal {X : Char} :
    s.relabel p = .nonterminal X ↔ s = .nonterminal X := by
  cases s <;> simp [relabel]

@[simp] theorem Symbol.relabel_eq_null : s.relabel p = .null ↔ s = .null := by
  cases s <;> simp [relabel]

@[simp] theorem Symbol.nonterminal?_relabel : (s.relabel p).nonterminal? = s.nonterminal? := by
  cases s <;> rfl

@[simp] theorem Symbol.isTerminal_relabel : (s.relabel p).isTerminal = s.isTerminal := by
  cases s <;> rfl

theorem Symbol.generatesIn_relabel (hleaf : ∀ s : Symbol, leaf (s.relabel p) = leaf s)
    (N : CharSet) : (s.relabel p).generatesIn leaf N = s.generatesIn leaf N := by
  cases s with
  | nonterminal X => rfl
  | terminal a => exact hleaf (.terminal a)
  | null => exact hleaf .null

end Symbols

namespace Rule

variable {p : Equiv.Perm Char} {r : Rule}

theorem relabel_injective : Function.Injective (Rule.relabel p) := by
  intro r q h
  obtain ⟨hhead, hbody⟩ := Rule.mk.inj h
  have hbodies := List.map_injective_iff.2 Symbol.relabel_injective hbody
  obtain ⟨head, body⟩ := r
  obtain rfl : head = q.head := hhead
  obtain rfl : body = q.body := hbodies
  rfl

@[simp] theorem head_relabel : (r.relabel p).head = r.head := rfl

@[simp] theorem body_relabel : (r.relabel p).body = r.body.map (Symbol.relabel p) := rfl

@[simp] theorem unitTarget?_relabel : (r.relabel p).unitTarget? = r.unitTarget? := by
  refine Option.ext fun X => ?_
  simp [unitTarget?_eq_some, List.map_eq_cons_iff]

@[simp] theorem isUnit_relabel : (r.relabel p).isUnit = r.isUnit := by
  simp [isUnit]

@[simp] theorem isNull_relabel : (r.relabel p).isNull = r.isNull := by
  rw [Bool.eq_iff_iff, isNull_iff, isNull_iff]
  simp [List.map_eq_cons_iff]

@[simp] theorem bodyNonterminals_relabel :
    (r.relabel p).bodyNonterminals = r.bodyNonterminals := by
  simp [bodyNonterminals, List.filterMap_map]

theorem all_generatesIn_relabel {leaf : Symbol → Bool}
    (hleaf : ∀ s : Symbol, leaf (s.relabel p) = leaf s) (N : CharSet) :
    (r.relabel p).body.all (·.generatesIn leaf N) = r.body.all (·.generatesIn leaf N) := by
  simp only [body_relabel, List.all_map, Function.comp_def, Symbol.generatesIn_relabel hleaf]

theorem generatingStep_relabel {leaf : Symbol → Bool}
    (hleaf : ∀ s : Symbol, leaf (s.relabel p) = leaf s) (N : CharSet) :
    generatingStep leaf N (r.relabel p) = generatingStep leaf N r := by
  simp only [generatingStep, all_generatesIn_relabel hleaf, head_relabel]

end Rule

/-! ## What is said of nonterminals -/

namespace Grammar

variable {p : Equiv.Perm Char} {g : Grammar}

@[simp] theorem rules_relabel : (g.relabel p).rules = g.rules.map (Rule.relabel p) := rfl

@[simp] theorem start_relabel : (g.relabel p).start = g.start := rfl

/-- Other rules under other terminals. -/
theorem withRules_relabel (rules : List Rule) :
    (g.relabel p).withRules (rules.map (Rule.relabel p)) = (g.withRules rules).relabel p := by
  simp only [withRules, relabel, firstOccurrences_map Rule.relabel_injective]

@[simp] theorem nonterminals_relabel : (g.relabel p).nonterminals = g.nonterminals := by
  simp [nonterminals, List.flatMap_map]

/-- The same nonterminals are generating when leaves stay leaves. -/
theorem generating_relabel {leaf : Symbol → Bool}
    (hleaf : ∀ s : Symbol, leaf (s.relabel p) = leaf s) :
    (g.relabel p).generating leaf = g.generating leaf := by
  have hpass : generatingPass leaf (g.rules.map (Rule.relabel p)) =
      generatingPass leaf g.rules := by
    funext N
    simp only [generatingPass, List.foldl_map, Rule.generatingStep_relabel hleaf]
  simp only [generating, rules_relabel, hpass, List.length_map]

@[simp] theorem nullable_relabel : (g.relabel p).nullable = g.nullable := by
  refine generating_relabel fun s => ?_
  cases s <;> rfl

@[simp] theorem productive_relabel : (g.relabel p).productive = g.productive :=
  generating_relabel fun _ => Symbol.isTerminal_relabel

@[simp] theorem unitClosure_relabel : (g.relabel p).unitClosure = g.unitClosure := by
  have hpairs : (g.relabel p).unitPairs = g.unitPairs := by
    simp [unitPairs, List.filterMap_map, Function.comp_def]
  simp only [unitClosure, hpairs, closureLimit, selfClosure, nonterminals_relabel]

@[simp] theorem reachable_relabel : (g.relabel p).reachable = g.reachable := by
  have hpass : reachablePass (g.rules.map (Rule.relabel p)) = reachablePass g.rules := by
    funext N
    simp only [reachablePass, List.foldl_map, Rule.head_relabel, Rule.bodyNonterminals_relabel]
  simp only [reachable, rules_relabel, hpass, nonterminals_relabel, start_relabel]

/-! ## The first three stages -/

theorem shortened_relabel (N : CharSet) (body : List Symbol) :
    shortened N (body.map (Symbol.relabel p)) =
      (shortened N body).map (List.map (Symbol.relabel p)) := by
  induction body with
  | nil => rfl
  | cons s body ih =>
    have hinjective : Function.Injective (List.map (Symbol.relabel p)) :=
      List.map_injective_iff.2 Symbol.relabel_injective
    have hkeep : (((shortened N body).map (List.map (Symbol.relabel p))).map (s.relabel p :: ·)) =
        ((shortened N body).map (s :: ·)).map (List.map (Symbol.relabel p)) := by
      simp
    have hnullable : (s.relabel p).generatesIn (· == .null) N = s.generatesIn (· == .null) N :=
      Symbol.generatesIn_relabel (fun s => by cases s <;> rfl) N
    simp only [List.map_cons, shortened, ih, hkeep, hnullable]
    rw [← firstOccurrences_map hinjective, List.map_append]
    split <;> rfl

theorem shortenedRules_relabel (N : CharSet) (r : Rule) :
    shortenedRules N (r.relabel p) = (shortenedRules N r).map (Rule.relabel p) := by
  unfold shortenedRules
  rw [Rule.isNull_relabel]
  split
  · rfl
  · simp only [Rule.body_relabel, shortened_relabel, List.filter_map, List.map_map]
    simp [Function.comp_def, Rule.relabel]

/-- **Null elimination gives the permuted rules.** -/
theorem eliminateNull_relabel : (g.relabel p).eliminateNull = g.eliminateNull.relabel p := by
  unfold eliminateNull
  rw [← withRules_relabel, nullable_relabel, rules_relabel, List.flatMap_map, List.map_flatMap]
  simp only [shortenedRules_relabel]

theorem rulesFor_relabel (X : Char) :
    (g.relabel p).rulesFor X = (g.rulesFor X).map (Rule.relabel p) := by
  simp [rulesFor, List.filter_map, Function.comp_def]

theorem inheritedRules_relabel (u : UnitClosure) (r : Rule) :
    (g.relabel p).inheritedRules u (r.relabel p) = (g.inheritedRules u r).map (Rule.relabel p) := by
  unfold inheritedRules
  rw [Rule.isUnit_relabel]
  split
  · simp only [rulesFor_relabel, List.filter_map, List.map_flatMap, List.map_map, Function.comp_def,
      Rule.isUnit_relabel, Rule.head_relabel, Rule.body_relabel]
    rfl
  · rfl

/-- **Unit elimination gives the permuted rules.** -/
theorem eliminateUnits_relabel : (g.relabel p).eliminateUnits = g.eliminateUnits.relabel p := by
  unfold eliminateUnits
  rw [← withRules_relabel, unitClosure_relabel, rules_relabel, List.flatMap_map, List.map_flatMap]
  simp only [inheritedRules_relabel]

/-- **The permuted rules are useful when the rules are.** -/
theorem eliminateUseless_relabel :
    (g.relabel p).eliminateUseless = g.eliminateUseless.relabel p := by
  have huseful : ∀ r : Rule, (r.relabel p).body.all (·.generatesIn Symbol.isTerminal g.productive) =
      r.body.all (·.generatesIn Symbol.isTerminal g.productive) := fun r =>
    Rule.all_generatesIn_relabel (fun _ => Symbol.isTerminal_relabel) _
  simp only [eliminateUseless, ← withRules_relabel, reachable_relabel, productive_relabel,
    rules_relabel, List.filter_map, Function.comp_def, huseful, Rule.head_relabel]
  rfl

/-- **The first three stages give the permuted rules**, in the same order. -/
theorem prepared_relabel : (g.relabel p).prepared = g.prepared.relabel p := by
  unfold prepared
  rw [eliminateNull_relabel, eliminateUnits_relabel, eliminateUseless_relabel]

end Grammar

end Chomsky
