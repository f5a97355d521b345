import Chomsky.Proofs.Rewriting

/-!
# What the removal of useless symbols leaves

The two tests on a rule belong to the grammar as it is given, and the rules are tested once.  The
nonterminals that are left are productive by the rules that are left, since the body of a reachable
head has reachable nonterminals only.  They need not be reachable any more: the removal of a rule
may cut a nonterminal off, and its rules stay.  A second removal takes those, and nothing is left
for a third one.

* `Grammar.Useful` — a rule that some derivation from the start symbol comes to, with a body that
  derives some string without the null symbol.

Principal results: `Grammar.eliminateUseless_eq_filter` — the useful rules are left, in their order;
`Grammar.mem_nonterminals_eliminateUseless`, `Grammar.productive_eliminateUseless` — the
nonterminals that are left, and that they are productive; `Grammar.eliminateUseless_leaves` — all of
this; `Grammar.eliminateUseless_twice` — the second removal only trims;
`Grammar.eliminateUseless_settles` — after it all rules are useful, and further removals change
nothing.
-/

namespace Chomsky

namespace Grammar

variable {g : Grammar} {r : Rule} {X : Char}

/-! ## Useful rules -/

/-- A rule is useful when its head occurs in some list of symbols that the start symbol can be
rewritten to, and each symbol of its body is a terminal or a nonterminal that derives a string
without the null symbol. -/
structure Useful (g : Grammar) (r : Rule) : Prop where
  occurs : ∃ form, Rewrites g.rules [.nonterminal g.start] form ∧ .nonterminal r.head ∈ form
  finishes : ∀ x ∈ r.body,
    x.GeneratesFrom Symbol.isTerminal fun X => ∃ w, Generates (nullFree g.rules) X w

/-- The two sets decide which rules are useful. -/
theorem useful_iff :
    g.Useful r ↔
      r.head ∈ g.reachable ∧ r.body.all (·.generatesIn Symbol.isTerminal g.productive) = true := by
  have hoccurs : r.head ∈ g.reachable ↔
      ∃ form, Rewrites g.rules [.nonterminal g.start] form ∧ .nonterminal r.head ∈ form :=
    mem_reachable.trans reaches_iff_rewrites
  have hfinishes : r.body.all (·.generatesIn Symbol.isTerminal g.productive) = true ↔
      ∀ x ∈ r.body, x.GeneratesFrom Symbol.isTerminal fun X =>
        ∃ w, Generates (nullFree g.rules) X w := by
    simp only [body_all_generatesIn, mem_productive]
  rw [hoccurs, hfinishes]
  exact ⟨fun h => ⟨h.occurs, h.finishes⟩, fun h => ⟨h.1, h.2⟩⟩

instance (g : Grammar) : DecidablePred g.Useful := fun _ => decidable_of_iff _ useful_iff.symm

/-- **The useful rules are left**, in their order and without duplicates. -/
theorem eliminateUseless_eq_filter (g : Grammar) :
    g.eliminateUseless = g.withRules (g.rules.filter (g.Useful ·)) := by
  refine congrArg g.withRules (List.filter_congr fun r _ => Bool.eq_iff_iff.2 ?_)
  rw [decide_eq_true_iff, useful_iff, Bool.and_eq_true, decide_eq_true_iff]

theorem mem_eliminateUseless_iff_useful :
    r ∈ g.eliminateUseless.rules ↔ r ∈ g.rules ∧ g.Useful r := by
  rw [eliminateUseless_eq_filter, mem_withRules, List.mem_filter, decide_eq_true_iff]

/-! ## The nonterminals that are left -/

theorem null_not_mem_eliminateUseless (hr : r ∈ g.eliminateUseless.rules) : Symbol.null ∉ r.body :=
  (mem_nullFree.1 (mem_eliminateUseless_iff.1 hr).1).2

/-- The heads that are left were reachable and productive, and all such nonterminals are heads. -/
theorem head_eliminateUseless :
    (∃ r ∈ g.eliminateUseless.rules, r.head = X) ↔ X ∈ g.reachable ∧ X ∈ g.productive := by
  constructor
  · rintro ⟨r, hr, rfl⟩
    obtain ⟨hfree, hhead, w, hw⟩ := mem_eliminateUseless_iff.1 hr
    exact ⟨hhead, mem_productive.2 ⟨w, .rule hfree hw⟩⟩
  · rintro ⟨hreachable, hproductive⟩
    obtain ⟨w, hw⟩ := mem_productive.1 hproductive
    -- a derivation without the null symbol starts with a rule that is left
    obtain ⟨r, hr, hhead, -⟩ := generates_iff.1 ((generates_eliminateUseless hreachable).2 hw)
    exact ⟨r, hr, hhead⟩

/-- A nonterminal of a body that is left was reachable and productive. -/
theorem of_mem_body_eliminateUseless (hr : r ∈ g.eliminateUseless.rules)
    (hX : .nonterminal X ∈ r.body) :
    X ∈ g.reachable ∧ X ∈ g.productive := by
  obtain ⟨hrule, hhead, hbody⟩ := mem_eliminateUseless.1 hr
  refine ⟨mem_reachable_of_mentions ⟨r, hrule, rfl, hX⟩ hhead, ?_⟩
  exact Symbol.generatesIn_iff.1 (hbody _ hX)

/-- **The nonterminals that are left** are those that were reachable and productive. -/
theorem mem_nonterminals_eliminateUseless :
    X ∈ g.eliminateUseless.nonterminals ↔ X ∈ g.reachable ∧ X ∈ g.productive := by
  rw [mem_nonterminals]
  constructor
  · rintro ⟨r, hr, rfl | hX⟩
    · exact head_eliminateUseless.1 ⟨r, hr, rfl⟩
    · exact of_mem_body_eliminateUseless hr hX
  · intro h
    obtain ⟨r, hr, hhead⟩ := head_eliminateUseless.2 h
    exact ⟨r, hr, .inl hhead.symm⟩

theorem mem_nonterminals_eliminateUseless_iff_head :
    X ∈ g.eliminateUseless.nonterminals ↔ ∃ r ∈ g.eliminateUseless.rules, r.head = X :=
  mem_nonterminals_eliminateUseless.trans head_eliminateUseless.symm

/-- A nonterminal is left when it derives something by the rules that are left. -/
theorem mem_nonterminals_eliminateUseless_iff_derives :
    X ∈ g.eliminateUseless.nonterminals ↔ ∃ w, Derives g.eliminateUseless X w := by
  constructor
  · intro h
    obtain ⟨hreachable, hproductive⟩ := mem_nonterminals_eliminateUseless.1 h
    obtain ⟨w, hw⟩ := mem_productive.1 hproductive
    exact ⟨w, (generates_eliminateUseless hreachable).2 hw⟩
  · rintro ⟨w, hw⟩
    obtain ⟨r, hr, hhead, -⟩ := derives_iff.1 hw
    exact mem_nonterminals_eliminateUseless_iff_head.2 ⟨r, hr, hhead⟩

/-- **All nonterminals that are left are productive** by the rules that are left. -/
theorem productive_eliminateUseless (g : Grammar) :
    g.eliminateUseless.productive = g.eliminateUseless.nonterminals := by
  refine CharSet.ext fun X => ?_
  rw [mem_productive, nullFree_eq_self fun _ => null_not_mem_eliminateUseless,
    ← derives_eq_generates, mem_nonterminals_eliminateUseless_iff_derives]

/-- **What the removal of useless symbols leaves**: the useful rules, and as nonterminals those that
were reachable and productive.  Each of these has a rule, and is productive, among the rules that
are left. -/
theorem eliminateUseless_leaves (g : Grammar) :
    g.eliminateUseless.rules = firstOccurrences (g.rules.filter (g.Useful ·)) ∧
      (∀ X, X ∈ g.eliminateUseless.nonterminals ↔ X ∈ g.reachable ∧ X ∈ g.productive) ∧
      CharSet.ofList (g.eliminateUseless.rules.map Rule.head) = g.eliminateUseless.nonterminals ∧
      g.eliminateUseless.productive = g.eliminateUseless.nonterminals ∧
      ∀ X, X ∈ g.eliminateUseless.nonterminals ↔
        (∃ r ∈ g.eliminateUseless.rules, r.head = X) ∧ ∃ w, Derives g.eliminateUseless X w := by
  refine ⟨congrArg Grammar.rules g.eliminateUseless_eq_filter,
    fun X => mem_nonterminals_eliminateUseless, CharSet.ext fun X => ?_,
    g.productive_eliminateUseless,
    fun X => ?_⟩
  · rw [CharSet.mem_ofList, List.mem_map, mem_nonterminals_eliminateUseless_iff_head]
  · rw [← mem_nonterminals_eliminateUseless_iff_head,
      ← mem_nonterminals_eliminateUseless_iff_derives, and_self]

/-! ## Removal again -/

/-- **A second removal only trims**: all that is left is productive. -/
theorem eliminateUseless_twice (g : Grammar) :
    g.eliminateUseless.eliminateUseless = g.eliminateUseless.trimmed :=
  eliminateUseless_eq_trimmed (nodup_withRules ..) (fun _ => null_not_mem_eliminateUseless)
    g.fruitful_eliminateUseless

/-- **A third removal changes nothing**: trimming leaves the same nonterminals reachable. -/
theorem eliminateUseless_thrice (g : Grammar) :
    g.eliminateUseless.eliminateUseless.eliminateUseless = g.eliminateUseless.eliminateUseless := by
  calc g.eliminateUseless.eliminateUseless.eliminateUseless
    _ = g.eliminateUseless.eliminateUseless.trimmed := g.eliminateUseless.eliminateUseless_twice
    _ = g.eliminateUseless.trimmed.trimmed := by rw [eliminateUseless_twice]
    _ = g.eliminateUseless.trimmed := trimmed_trimmed _
    _ = g.eliminateUseless.eliminateUseless := g.eliminateUseless_twice.symm

/-- Where removal changes nothing, all rules are useful. -/
theorem useful_of_eliminateUseless_eq_self (h : g.eliminateUseless = g) (hr : r ∈ g.rules) :
    g.Useful r := by
  rw [← h] at hr
  exact (mem_eliminateUseless_iff_useful.1 hr).2

/-- There all nonterminals are reachable and productive. -/
theorem mem_nonterminals_of_eliminateUseless_eq_self (h : g.eliminateUseless = g) :
    X ∈ g.nonterminals ↔ X ∈ g.reachable ∧ X ∈ g.productive := by
  rw [← mem_nonterminals_eliminateUseless, h]

/-- **After two removals all rules are useful**, all nonterminals are reachable and productive, and
further removals change nothing. -/
theorem eliminateUseless_settles (g : Grammar) :
    (∀ r ∈ g.eliminateUseless.eliminateUseless.rules,
      r.head ∈ g.eliminateUseless.eliminateUseless.reachable ∧
        g.eliminateUseless.eliminateUseless.Useful r) ∧
      (∀ X, X ∈ g.eliminateUseless.eliminateUseless.nonterminals ↔
        X ∈ g.eliminateUseless.eliminateUseless.reachable ∧
          X ∈ g.eliminateUseless.eliminateUseless.productive) ∧
      g.eliminateUseless.eliminateUseless.eliminateUseless = g.eliminateUseless.eliminateUseless ∧
      ∀ n, eliminateUseless^[n + 2] g = g.eliminateUseless.eliminateUseless := by
  have hfixed := g.eliminateUseless_thrice
  refine ⟨fun r hr => ?_, fun X => mem_nonterminals_of_eliminateUseless_eq_self hfixed, hfixed,
    fun n => ?_⟩
  · have huseful := useful_of_eliminateUseless_eq_self hfixed hr
    exact ⟨(useful_iff.1 huseful).1, huseful⟩
  · rw [Function.iterate_add_apply]
    exact Function.iterate_fixed hfixed n

/-- `B` and `C` are reached beside `A` only, which derives nothing; `D` is not reached. -/
def overgrown : Grammar where
  rules := [⟨'S', [.nonterminal 'A', .nonterminal 'B']⟩, ⟨'S', [.terminal 'a', .nonterminal 'S']⟩,
    ⟨'S', [.terminal 'a']⟩, ⟨'A', [.terminal 'a', .nonterminal 'A']⟩,
    ⟨'B', [.terminal 'b', .nonterminal 'C']⟩, ⟨'C', [.nonterminal 'B', .nonterminal 'B']⟩,
    ⟨'C', [.terminal 'c']⟩, ⟨'D', [.terminal 'd']⟩]
  start := 'S'
  marker := '#'

/-- One removal is not enough for `overgrown`. -/
theorem eliminateUseless_settles_overgrown :
    overgrown.eliminateUseless.nonterminals.toList = ['B', 'C', 'S'] ∧
      overgrown.eliminateUseless.eliminateUseless.rules =
        [⟨'S', [.terminal 'a', .nonterminal 'S']⟩, ⟨'S', [.terminal 'a']⟩] ∧
      overgrown.eliminateUseless.eliminateUseless.Useful ⟨'S', [.terminal 'a', .nonterminal 'S']⟩ ∧
      eliminateUseless^[7] overgrown = overgrown.eliminateUseless.eliminateUseless := by
  have hrules : overgrown.eliminateUseless.eliminateUseless.rules =
      [⟨'S', [.terminal 'a', .nonterminal 'S']⟩, ⟨'S', [.terminal 'a']⟩] := by decide
  obtain ⟨huseful, -, -, hsettled⟩ := eliminateUseless_settles overgrown
  refine ⟨by decide, hrules, (huseful _ ?_).2, hsettled 5⟩
  rw [hrules]
  exact List.mem_cons_self ..

end Grammar

end Chomsky
