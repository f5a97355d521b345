import Chomsky.UsefulSymbols
import Chomsky.Proofs.Generating

/-!
# What is kept of the useful symbols

* `Mentions`, `Reaches` — a rule for one nonterminal has another one in its body; some number of
  rules leads from one to another.
* `Grammar.trimmed` — the rules with a reachable head.

Principal results: `Grammar.mem_reachable` — the reachable nonterminals are those that the start
symbol reaches; `Grammar.generates_eliminateUseless` — a reachable nonterminal generates from the
useful rules what it generates without the null symbol, although both tests look at all rules;
`Grammar.derives_eliminateUseless` — the same of derivations, and for the start symbol;
`Grammar.reachable_trimmed` — trimming leaves the same nonterminals reachable;
`Grammar.eliminateUseless_eq_trimmed` — of fruitful rules, those are useful that are reachable.
-/

namespace Chomsky

/-- A rule for one nonterminal has another one in its body. -/
def Mentions (rules : List Rule) (A B : Char) : Prop :=
  ∃ r ∈ rules, r.head = A ∧ .nonterminal B ∈ r.body

/-- Some number of rules, possibly none, leads from one nonterminal to another. -/
abbrev Reaches (rules : List Rule) : Char → Char → Prop :=
  Relation.ReflTransGen (Mentions rules)

/-! ## One pass -/

section Pass

variable {rules : List Rule} {s : CharSet} {A B c : Char}

theorem reachablePass_cons {r : Rule} :
    reachablePass (r :: rules) s =
      reachablePass rules (if r.head ∈ s then s.insertAll r.bodyNonterminals else s) :=
  rfl

theorem subset_reachablePass (h : c ∈ s) : c ∈ reachablePass rules s := by
  induction rules generalizing s with
  | nil => exact h
  | cons r rules ih =>
    rw [reachablePass_cons]
    refine ih ?_
    split
    · exact CharSet.mem_insertAll.2 (.inr h)
    · exact h

/-- A pass adds what a rule for a known nonterminal has in its body. -/
theorem mem_reachablePass_of_mentions (h : Mentions rules A B) (hA : A ∈ s) :
    B ∈ reachablePass rules s := by
  obtain ⟨r, hr, rfl, hB⟩ := h
  induction rules generalizing s with
  | nil => exact absurd hr List.not_mem_nil
  | cons q rules ih =>
    rw [reachablePass_cons]
    rcases List.mem_cons.1 hr with rfl | hr
    · refine subset_reachablePass ?_
      rw [if_pos hA]
      exact CharSet.mem_insertAll.2 (.inl (Rule.mem_bodyNonterminals.2 hB))
    · refine ih hr ?_
      split
      · exact CharSet.mem_insertAll.2 (.inr hA)
      · exact hA

/-- A property that passes from heads to bodies is kept by a pass. -/
theorem reachablePass_induction {P : Char → Prop} (h : ∀ A B, Mentions rules A B → P A → P B)
    (hs : ∀ c ∈ s, P c) : ∀ c ∈ reachablePass rules s, P c := by
  induction rules generalizing s with
  | nil => exact hs
  | cons r rules ih =>
    have hrest : ∀ A B, Mentions rules A B → P A → P B := by
      rintro A B ⟨q, hq, hA, hB⟩
      exact h A B ⟨q, List.mem_cons_of_mem _ hq, hA, hB⟩
    rw [reachablePass_cons]
    refine ih hrest fun c hc => ?_
    split at hc
    · rename_i hhead
      rcases CharSet.mem_insertAll.1 hc with hc | hc
      · have hmentions : Mentions (r :: rules) r.head c :=
          ⟨r, List.mem_cons_self .., rfl, Rule.mem_bodyNonterminals.1 hc⟩
        exact h r.head c hmentions (hs _ hhead)
      · exact hs c hc
    · exact hs c hc

end Pass

namespace Grammar

variable {g : Grammar} {A B X c : Char} {w : List Char}

/-! ## Reachable nonterminals -/

theorem reachablePass_reachable (g : Grammar) :
    reachablePass g.rules g.reachable = g.reachable := by
  refine saturate_set_fixed (g.start :: g.nonterminals.toList) (fun _ _ => subset_reachablePass) ?_
    ?_ ?_
  · refine fun s hs => reachablePass_induction ?_ hs
    rintro A B ⟨r, hr, rfl, hB⟩ -
    exact List.mem_cons_of_mem _ (mem_nonterminals.2 ⟨r, hr, .inr hB⟩)
  · intro c hc
    exact List.mem_cons.2 (.inl (by simpa using hc))
  · have hone : (CharSet.ofList [g.start]).size = 1 := rfl
    rw [List.length_cons, hone]
    exact Nat.lt_succ_self _

theorem start_mem_reachable (g : Grammar) : g.start ∈ g.reachable :=
  saturate_induction (P := fun s : CharSet => g.start ∈ s) (fun _ => subset_reachablePass) _
    (by simp)

/-- The reachable nonterminals are closed under the rules. -/
theorem mem_reachable_of_mentions (h : Mentions g.rules A B) (hA : A ∈ g.reachable) :
    B ∈ g.reachable := by
  rw [← reachablePass_reachable]
  exact mem_reachablePass_of_mentions h hA

/-- **The reachable nonterminals are those that the start symbol reaches.** -/
theorem mem_reachable : c ∈ g.reachable ↔ Reaches g.rules g.start c := by
  constructor
  · refine saturate_induction (P := fun s : CharSet => ∀ c ∈ s, Reaches g.rules g.start c)
      (fun _ => reachablePass_induction fun A B hAB hA => hA.tail hAB) _ ?_ c
    intro c hc
    rw [show c = g.start by simpa using hc]
  · intro h
    induction h with
    | refl => exact start_mem_reachable g
    | tail _ hstep ih => exact mem_reachable_of_mentions hstep ih

/-! ## The rules that are kept -/

/-- A body that holds terminals and productive nonterminals only. -/
theorem all_generatesIn_productive_iff {body : List Symbol} :
    (∀ s ∈ body, s.generatesIn Symbol.isTerminal g.productive = true) ↔
      Symbol.null ∉ body ∧ ∃ w, Reads (Generates (nullFree g.rules)) body w := by
  rw [exists_reads_iff]
  simp only [Symbol.generatesIn_iff, mem_productive]

/-- The useful rules have a reachable head and a body that reads as some string without the null
symbol. -/
theorem mem_eliminateUseless_iff {r : Rule} :
    r ∈ g.eliminateUseless.rules ↔
      r ∈ nullFree g.rules ∧ r.head ∈ g.reachable ∧
        ∃ w, Reads (Generates (nullFree g.rules)) r.body w := by
  rw [mem_eliminateUseless, all_generatesIn_productive_iff, mem_nullFree]
  constructor
  · rintro ⟨hr, hhead, hnull, hw⟩
    exact ⟨⟨hr, hnull⟩, hhead, hw⟩
  · rintro ⟨⟨hr, hnull⟩, hhead, hw⟩
    exact ⟨hr, hhead, hnull, hw⟩

/-- **A reachable nonterminal generates from the useful rules what it generates without the null
symbol.** -/
theorem generates_eliminateUseless (hX : X ∈ g.reachable) :
    Generates g.eliminateUseless.rules X w ↔ Generates (nullFree g.rules) X w := by
  constructor
  · exact .mono fun r hr => (mem_eliminateUseless_iff.1 hr).1
  · intro h
    refine Generates.least_of_generates
      (S := fun Y v => Y ∈ g.reachable → Generates g.eliminateUseless.rules Y v) ?_ h hX
    intro r hr u hu hhead
    have hrule : r ∈ g.eliminateUseless.rules :=
      mem_eliminateUseless_iff.2 ⟨hr, hhead, u, hu.mono fun _ _ hv => hv.1⟩
    -- the nonterminals of the body are reachable because the head is
    refine Generates.rule hrule (hu.imp fun Y hY v hv => hv.2 ?_)
    exact mem_reachable_of_mentions ⟨r, (mem_nullFree.1 hr).1, rfl, hY⟩ hhead

/-- **The removal of useless symbols keeps exactly the derivations without the null symbol**, for
every nonterminal that the start symbol reaches.  So the language is kept when no rule uses the null
symbol. -/
theorem derives_eliminateUseless (g : Grammar) :
    (∀ X ∈ g.reachable, ∀ w,
      Derives g.eliminateUseless X w ↔ Generates (nullFree g.rules) X w) ∧
      g.start ∈ g.reachable ∧ g.eliminateUseless.start = g.start ∧
      ((∀ r ∈ g.rules, Symbol.null ∉ r.body) →
        ∀ w, Derives g.eliminateUseless g.start w ↔ Derives g g.start w) := by
  refine ⟨fun X hX w => generates_eliminateUseless hX, start_mem_reachable g, rfl, ?_⟩
  intro hnull w
  calc Derives g.eliminateUseless g.start w
    _ ↔ Generates (nullFree g.rules) g.start w := generates_eliminateUseless (start_mem_reachable g)
    _ ↔ Derives g g.start w := by rw [nullFree_eq_self hnull, derives_eq_generates]

/-- `B` is reached beside `A`, which derives nothing, and in a rule with the null symbol; it derives
the empty string with the null symbol only. -/
def withered : Grammar where
  rules := [⟨'S', [.nonterminal 'A', .nonterminal 'B']⟩, ⟨'S', [.null, .nonterminal 'B']⟩,
    ⟨'A', [.terminal 'a', .nonterminal 'A']⟩, ⟨'B', [.terminal 'b', .nonterminal 'B']⟩,
    ⟨'B', [.terminal 'b']⟩, ⟨'B', [.null]⟩]
  start := 'S'
  marker := '#'

/-- A grammar without the null symbol, in which `A` derives nothing and `C` is not reached. -/
def stunted : Grammar where
  rules := [⟨'S', [.nonterminal 'A', .nonterminal 'B']⟩, ⟨'S', [.terminal 'a', .nonterminal 'B']⟩,
    ⟨'A', [.terminal 'a', .nonterminal 'A']⟩, ⟨'B', [.terminal 'b']⟩, ⟨'C', [.terminal 'c']⟩]
  start := 'S'
  marker := '#'

theorem derives_eliminateUseless_withered :
    withered.eliminateUseless.rules =
        [⟨'B', [.terminal 'b', .nonterminal 'B']⟩, ⟨'B', [.terminal 'b']⟩] ∧
      (∀ w, Derives withered.eliminateUseless 'B' w ↔ Generates (nullFree withered.rules) 'B' w) ∧
      (∀ w, Derives withered.eliminateUseless 'S' w ↔ Generates (nullFree withered.rules) 'S' w) ∧
      stunted.eliminateUseless.rules =
        [⟨'S', [.terminal 'a', .nonterminal 'B']⟩, ⟨'B', [.terminal 'b']⟩] ∧
      ∀ w, Derives stunted.eliminateUseless 'S' w ↔ Derives stunted 'S' w := by
  obtain ⟨hderives, hstart, -, -⟩ := derives_eliminateUseless withered
  have hB : 'B' ∈ withered.reachable := by decide
  have hnull : ∀ r ∈ stunted.rules, Symbol.null ∉ r.body := by decide
  obtain ⟨-, -, -, hlanguage⟩ := derives_eliminateUseless stunted
  exact ⟨rfl, hderives 'B' hB, hderives 'S' hstart, rfl, hlanguage hnull⟩

/-! ## Where only reachability counts -/

/-- The useful rules are fruitful, although the productive nonterminals are those of all rules. -/
theorem fruitful_eliminateUseless (g : Grammar) : Fruitful g.eliminateUseless.rules := by
  intro r hr
  obtain ⟨hfree, hhead, w, hw⟩ := mem_eliminateUseless_iff.1 hr
  refine ⟨w, hw.imp fun Y hY v hv => (generates_eliminateUseless ?_).2 hv⟩
  exact mem_reachable_of_mentions ⟨r, (mem_nullFree.1 hfree).1, rfl, hY⟩ hhead

/-- The rules with a reachable head, in their order. -/
def trimmed (g : Grammar) : Grammar := { g with rules := g.rules.filter (·.head ∈ g.reachable) }

theorem mem_trimmed {r : Rule} :
    r ∈ g.trimmed.rules ↔ r ∈ g.rules ∧ Reaches g.rules g.start r.head := by
  rw [trimmed, List.mem_filter, decide_eq_true_iff, mem_reachable]

theorem nodup_trimmed (hnodup : g.rules.Nodup) : g.trimmed.rules.Nodup := hnodup.filter _

/-- Trimming drops no rule that a path from the start symbol takes. -/
theorem reachable_trimmed (g : Grammar) : g.trimmed.reachable = g.reachable := by
  refine CharSet.ext fun c => ?_
  rw [mem_reachable, mem_reachable]
  constructor
  · refine Relation.ReflTransGen.mono ?_ g.start c
    rintro A B ⟨r, hr, hhead, hB⟩
    exact ⟨r, (mem_trimmed.1 hr).1, hhead, hB⟩
  · intro h
    induction h with
    | refl => exact .refl
    | tail hpath hstep ih =>
      obtain ⟨r, hr, rfl, hB⟩ := hstep
      exact ih.tail ⟨r, mem_trimmed.2 ⟨hr, hpath⟩, rfl, hB⟩

theorem trimmed_trimmed (g : Grammar) : g.trimmed.trimmed = g.trimmed := by
  rw [trimmed, reachable_trimmed]
  simp [trimmed]

/-- **Useless symbols of a fruitful grammar are those that are not reachable.** -/
theorem eliminateUseless_eq_trimmed (hnodup : g.rules.Nodup)
    (hnull : ∀ r ∈ g.rules, Symbol.null ∉ r.body) (hg : Fruitful g.rules) :
    g.eliminateUseless = g.trimmed := by
  have hproductive : ∀ r ∈ g.rules,
      r.body.all (·.generatesIn Symbol.isTerminal g.productive) = true := by
    intro r hr
    rw [List.all_eq_true, all_generatesIn_productive_iff, nullFree_eq_self hnull]
    exact ⟨hnull r hr, hg r hr⟩
  have hrules : (g.rules.filter fun r =>
      r.head ∈ g.reachable && r.body.all (·.generatesIn Symbol.isTerminal g.productive)) =
        g.trimmed.rules :=
    List.filter_congr fun r hr => by rw [hproductive r hr, Bool.and_true]
  rw [eliminateUseless, hrules, withRules, firstOccurrences_of_nodup (nodup_trimmed hnodup)]
  rfl

end Grammar

end Chomsky
