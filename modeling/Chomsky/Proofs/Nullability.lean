import Chomsky.Proofs.Generating
import Chomsky.Proofs.Loops

/-!
# The loop that finds the nullable nonterminals

The loop marks heads.  A pass skips the heads that are marked already, a head that it marks counts
at once for the rules that follow, and the loop ends with the first pass that marks none.  So which
heads a pass marks depends on the order of the rules, but not what is marked in the end: the
nonterminals that derive the empty string.  Each pass but the last one marks a head, which bounds
the number of passes.

* `markHead`, `mark` — what the loop does with one rule, and one pass over the rules.

Principal results: `mark_eq` — a pass marks what `generatingPass` adds, and tells whether that is
anything; `Grammar.loopEnds_mark` — how the loop ends; `Grammar.length_generatingPasses_le` — after
how many passes; `Grammar.nullable_exact` — what that says about the nullable nonterminals.
-/

namespace Chomsky

variable {leaf : Symbol → Bool} {rules : List Rule} {s : CharSet} {r : Rule}

/-- Marks the head of a rule whose body generates by what is marked so far; tells whether it was not
marked yet. -/
def markHead (leaf : Symbol → Bool) (s : CharSet) (r : Rule) : CharSet × Bool :=
  if r.head ∈ s then (s, false)
  else if r.body.all (·.generatesIn leaf s) then (s.insert r.head, true)
  else (s, false)

/-- One pass over the rules. -/
def mark (leaf : Symbol → Bool) (rules : List Rule) : CharSet → CharSet × Bool :=
  sweep (markHead leaf) rules

/-- Only heads of rules are marked. -/
def HeadsOnly (rules : List Rule) (s : CharSet) : Prop := ∀ c ∈ s, c ∈ rules.map Rule.head

theorem markHead_eq :
    markHead leaf s r = (generatingStep leaf s r, decide (generatingStep leaf s r ≠ s)) := by
  unfold markHead generatingStep
  split
  · rename_i hmarked
    rw [CharSet.insert_of_mem hmarked]
    simp
  · rename_i hnew
    have hne : s.insert r.head ≠ s := fun heq =>
      hnew (heq ▸ CharSet.mem_insert.2 (.inl rfl))
    split
    · simp [hne]
    · simp

/-- Each head that is marked makes the set larger. -/
theorem climbs_generatingStep (hr : r ∈ rules) :
    Climbs (generatingStep leaf · r) (HeadsOnly rules) CharSet.size := by
  refine ⟨fun s hs c hc => ?_, fun s _ hne => CharSet.size_lt (fun c => subset_generatingStep) hne⟩
  have hpass : c ∈ generatingPass leaf [r] s := hc
  rcases mem_generatingPass hpass with hc | ⟨q, hq, rfl⟩
  · exact hs c hc
  · rw [List.mem_singleton.1 hq]
    exact List.mem_map_of_mem hr

theorem climbs_generatingPass :
    Climbs (generatingPass leaf rules) (HeadsOnly rules) CharSet.size :=
  climbs_foldl fun _ hr => climbs_generatingStep hr

/-- **A pass of the loop marks what `generatingPass` adds**, and tells whether that is anything. -/
theorem mark_eq (hs : HeadsOnly rules s) :
    mark leaf rules s =
      (generatingPass leaf rules s, decide (generatingPass leaf rules s ≠ s)) :=
  sweep_eq (fun _ hr => climbs_generatingStep hr) (fun _ _ _ _ => markHead_eq) hs

namespace Grammar

variable {g : Grammar} {X : Char}

theorem headsOnly_empty : HeadsOnly rules ∅ := fun _ hc => absurd hc CharSet.not_mem_empty

/-- **The loop ends with the generating nonterminals**, and the passes listed are its passes. -/
theorem loopEnds_mark (g : Grammar) (leaf : Symbol → Bool) :
    LoopEnds (mark leaf g.rules) ∅ (g.generatingPasses leaf).length (g.generating leaf) := by
  have hbound : ∀ s, HeadsOnly g.rules s → s.size ≤ g.rules.length := fun s hs => by
    rw [← List.length_map Rule.head]
    exact CharSet.size_le hs
  refine loopEnds_passes climbs_generatingPass hbound (fun _ hs => mark_eq hs) headsOnly_empty ?_
  omega

/-- Each pass but the last one marks a head. -/
theorem length_generatingPasses_le (g : Grammar) (leaf : Symbol → Bool) :
    (g.generatingPasses leaf).length ≤ (g.generating leaf).size + 1 :=
  LoopEnds.add_measure_le climbs_generatingPass (fun _ hs => mark_eq hs) (g.loopEnds_mark leaf)
    headsOnly_empty

theorem mem_nonterminals_of_derives {w : List Char} (hX : Derives g X w) : X ∈ g.nonterminals := by
  obtain ⟨r, hr, rfl, -⟩ := derives_iff.1 hX
  exact mem_nonterminals.2 ⟨r, hr, .inl rfl⟩

/-- **The nullable nonterminals are those that derive the empty string**, whatever the grammar.
They depend on the set of its rules only, and the loop that marks them ends after at most one pass
more than there are such nonterminals. -/
theorem nullable_exact (g : Grammar) :
    (∀ X, X ∈ g.nullable ↔ X ∈ g.nonterminals ∧ Derives g X []) ∧
      (∀ h : Grammar, (∀ r, r ∈ h.rules ↔ r ∈ g.rules) → h.nullable = g.nullable) ∧
      (∀ n s, LoopEnds (mark (· == .null) g.rules) ∅ n s ↔
        n = (g.generatingPasses (· == .null)).length ∧ s = g.nullable) ∧
      (g.generatingPasses (· == .null)).length ≤ g.nullable.size + 1 := by
  refine ⟨fun X => ?_, fun h => nullable_congr, fun n s => (g.loopEnds_mark _).iff,
    g.length_generatingPasses_le _⟩
  rw [mem_nullable]
  exact ⟨fun hX => ⟨mem_nonterminals_of_derives hX, hX⟩, fun hX => hX.2⟩

/-- A chain to the null symbol, its last link first. -/
def backward : Grammar where
  rules := [⟨'S', [.nonterminal 'A', .nonterminal 'A']⟩, ⟨'A', [.nonterminal 'B']⟩, ⟨'B', []⟩,
    ⟨'C', [.nonterminal 'S', .terminal 'c']⟩]
  start := 'S'
  marker := '\\'

/-- One head is marked in each pass, and the last pass finds that none is left: the bound on the
number of passes is reached.  The other way round there are fewer passes, and the same heads. -/
theorem nullable_exact_backward :
    (∀ r, r ∈ backward.rules.reverse ↔ r ∈ backward.rules) ∧
      backward.nullable.toList = ['A', 'B', 'S'] ∧
      (backward.generatingPasses (· == .null)).length = backward.nullable.size + 1 ∧
      ∃ h : Grammar, h.rules = backward.rules.reverse ∧ h.nullable = backward.nullable ∧
        (h.generatingPasses (· == .null)).length = 2 := by
  obtain ⟨-, hcongr, -⟩ := nullable_exact backward
  have hrules : ∀ r, r ∈ backward.rules.reverse ↔ r ∈ backward.rules := fun r => List.mem_reverse
  exact ⟨hrules, rfl, rfl, { backward with rules := backward.rules.reverse }, rfl,
    hcongr { backward with rules := backward.rules.reverse } hrules, rfl⟩

end Grammar

end Chomsky
