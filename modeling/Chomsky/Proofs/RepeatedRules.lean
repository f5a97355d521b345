import Chomsky.Proofs.RuleCount

/-!
# Repeated rules

The first three stages give the same for a grammar as for its rules without duplicates.
Binarization does so when no rule of three or more symbols is repeated: the terminals of a repeated
rule have their stand-ins already.  But links are not remembered, and each copy of a longer rule
gets new ones.

* `Grammar.linkedRules` — the rules that get links.
* `SameRun` — runs over two lists of rules that end alike, up to duplicates among what they write.

Principal results: `splitRules_firstOccurrences` — a run over rules none of which gets links twice
ends as the run over them without duplicates; `Binarized.length_written_lt` — a rule that gets links
twice costs rules; `Grammar.binarize_withRules_rules` — what repeated rules do to binarization;
`Stage.apply_withRules_rules`, `Grammar.normalize_withRules_rules` — they do nothing to the other
stages, and nothing to normalization; `Grammar.stages_withRules_rules` — so what these give has no
duplicates and stands in the order in which it was first written.
-/

namespace Chomsky

/-! ## Rules that are split again -/

theorem Rule.linkCount_pos (r : Rule) : 0 < r.linkCount ↔ 3 ≤ r.body.length := by
  rw [linkCount]
  omega

section Again

variable {s t : NameSupply} {r : Rule} {rules written : List Rule} {head : Char} {x : Symbol}

/-- A symbol that has a name is given that name, and the supply stays as it is. -/
theorem nameSymbol_of_known (hnull : x ≠ .null) (hx : ∀ a, x = .terminal a → a ∈ s.letters) :
    nameSymbol head s x = .ok (s.nameOf x, s) := by
  cases x with
  | nonterminal X => rfl
  | null => exact absurd rfl hnull
  | terminal a =>
    obtain ⟨name, hname⟩ := NameSupply.mem_letters.1 (hx a rfl)
    simp only [nameSymbol, NameSupply.standIn, NameSupply.nameOf, hname]
    rfl

/-- A rule without links whose terminals have stand-ins is split without a new name. -/
theorem splitRule_of_known (hne : r.body ≠ []) (hlinks : r.linkCount = 0)
    (hnull : .null ∉ r.namedSymbols) (hletters : ∀ a ∈ r.namedLetters, a ∈ s.letters) :
    splitRule s r = .ok (r.encode s.nameOf [], s) := by
  match hbody : r.body with
  | [] => exact absurd hbody hne
  | [x] =>
    rw [splitRule, Rule.encode, hbody]
  | [first, second] =>
    have hname : ∀ x ∈ [first, second], nameSymbol r.head s x = .ok (s.nameOf x, s) := by
      intro x hx
      rw [← Rule.namedSymbols_of_long hbody] at hx
      refine nameSymbol_of_known (fun hxnull => hnull (hxnull ▸ hx)) fun a ha => hletters a ?_
      exact Rule.mem_namedLetters.2 (ha ▸ hx)
    have hfirst := hname first (by simp)
    have hsecond := hname second (by simp)
    rw [splitRule, Rule.encode, hbody]
    simp only [hfirst, hsecond]
    rfl
  | first :: second :: third :: rest =>
    simp [Rule.linkCount, hbody] at hlinks

/-- **A rule without links is split again as it was**, and asks for nothing. -/
theorem splitRule_again (hrun : splitRules s rules = .ok (written, t)) (hr : r ∈ rules)
    (hlinks : r.linkCount = 0) :
    ∃ again, splitRule t r = .ok (again, t) ∧ ∀ q ∈ again, q ∈ written := by
  obtain ⟨plan, rfl, hlengths, rfl, hserves, hext⟩ := splitRules_ok hrun
  obtain ⟨p, hp, rfl⟩ := List.mem_map.1 hr
  have hfault : ¬ (p.1.body = [] ∨ .null ∈ p.1.namedSymbols) := fun hfault => by
    obtain ⟨reason, hreason⟩ := fault_mem_demands.2 ⟨p.1, hr, hfault⟩
    exact hserves.not_fault reason hreason
  obtain ⟨hne, hnull⟩ := not_or.1 hfault
  have hletters : ∀ a ∈ p.1.namedLetters, a ∈ t.letters := fun a ha => by
    rw [hext.letters, CharSet.mem_insertAll]
    exact .inl (List.mem_flatMap.2 ⟨p.1, hr, ha⟩)
  have hnone : p.2 = [] := List.eq_nil_of_length_eq_zero ((hlengths p hp).trans hlinks)
  refine ⟨_, splitRule_of_known hne hlinks hnull hletters,
    fun q hq => List.mem_flatMap.2 ⟨p, hp, ?_⟩⟩
  rwa [hnone]

end Again

/-! ## Runs that end alike -/

/-- Two runs stop with the same failure, or end with the same supply and have written the same rules
but for duplicates. -/
inductive SameRun : Except Interrupted (List Rule × NameSupply) →
    Except Interrupted (List Rule × NameSupply) → Prop
  | ok {written written' : List Rule} {s : NameSupply}
    (h : firstOccurrences written = firstOccurrences written') :
    SameRun (.ok (written, s)) (.ok (written', s))
  | error (e : Interrupted) : SameRun (.error e) (.error e)

section Runs

variable {as bs rules : List Rule} {s : NameSupply} {r : Rule}

/-- A run over two lists is a run over one and then over the other. -/
theorem splitRules_append (s : NameSupply) (as bs : List Rule) :
    splitRules s (as ++ bs) =
      match splitRules s as with
      | .error e => .error e
      | .ok (written, t) =>
        match splitRules t bs with
        | .error e => .error e
        | .ok (more, u) => .ok (written ++ more, u) := by
  induction as generalizing s with
  | nil =>
    simp only [List.nil_append, splitRules]
    cases splitRules s bs <;> rfl
  | cons r as ih =>
    simp only [List.cons_append, splitRules]
    cases splitRule s r with
    | error e => rfl
    | ok p =>
      simp only [ih]
      cases splitRules p.2 as with
      | error e => rfl
      | ok q =>
        simp only
        cases splitRules q.2 bs with
        | error e => rfl
        | ok u => simp only [List.append_assoc]

/-- Runs that end alike go on alike. -/
theorem SameRun.append (h : SameRun (splitRules s as) (splitRules s bs)) (rules : List Rule) :
    SameRun (splitRules s (as ++ rules)) (splitRules s (bs ++ rules)) := by
  rw [splitRules_append, splitRules_append]
  generalize splitRules s as = run at h ⊢
  generalize splitRules s bs = run' at h ⊢
  cases h with
  | error e => exact .error e
  | @ok written written' t hwritten =>
    simp only
    cases splitRules t rules with
    | error e => exact .error e
    | ok p => exact .ok (firstOccurrences_append_congr hwritten rfl)

/-- One more rule that has been split before, and has no links, changes nothing. -/
theorem SameRun.again (h : SameRun (splitRules s rules) (splitRules s bs)) (hr : r ∈ rules)
    (hlinks : r.linkCount = 0) : SameRun (splitRules s (rules ++ [r])) (splitRules s bs) := by
  rw [splitRules_append]
  generalize hrun : splitRules s rules = run at h ⊢
  generalize splitRules s bs = run' at h ⊢
  cases h with
  | error e => exact .error e
  | @ok written written' t hwritten =>
    obtain ⟨again, hsplit, hagain⟩ := splitRule_again hrun hr hlinks
    have hsingle : splitRules t [r] = .ok (again, t) := by
      simp only [splitRules, hsplit, List.append_nil]
    simp only [hsingle]
    exact .ok ((firstOccurrences_append_of_subset hagain).trans hwritten)

/-- **A run over rules none of which gets links twice** ends as the run over them without
duplicates. -/
theorem splitRules_firstOccurrences (s : NameSupply) (rules : List Rule)
    (hnodup : (rules.filter (3 ≤ ·.body.length)).Nodup) :
    SameRun (splitRules s rules) (splitRules s (firstOccurrences rules)) := by
  induction rules using List.reverseRecOn with
  | nil => exact .ok rfl
  | append_singleton rules r ih =>
    rw [List.filter_append] at hnodup
    obtain ⟨hrules, -, hdisjoint⟩ := List.nodup_append.1 hnodup
    by_cases hr : r ∈ rules
    · rw [firstOccurrences_concat_of_mem hr]
      refine (ih hrules).again hr (Nat.eq_zero_of_not_pos fun hlinks => ?_)
      have hlong := r.linkCount_pos.1 hlinks
      exact hdisjoint r (by simp [hr, hlong]) r (by simp [hlong]) rfl
    · rw [firstOccurrences_concat_of_not_mem hr]
      exact (ih hrules).append [r]

end Runs

/-! ## Grammars with repeated rules -/

/-- The entries that a number is positive for count once among the entries without duplicates. -/
theorem sum_map_firstOccurrences_lt {α : Type} [DecidableEq α] {as : List α} {f : α → Nat}
    (hrepeated : ¬ (as.filter (0 < f ·)).Nodup) :
    ((firstOccurrences as).map f).sum < (as.map f).sum := by
  obtain ⟨rest, hperm⟩ := (firstOccurrences_sublist as).exists_perm_append
  rw [(hperm.map f).sum_nat, List.map_append, List.sum_append]
  refine Nat.lt_add_of_pos_right (Nat.pos_of_ne_zero fun hzero => hrepeated ?_)
  have hrest : rest.filter (0 < f ·) = [] := by
    refine List.filter_eq_nil_iff.2 fun a ha => ?_
    have hnone : f a = 0 := List.sum_eq_zero_iff.1 hzero _ (List.mem_map_of_mem ha)
    simp [hnone]
  rw [(hperm.filter _).nodup_iff, List.filter_append, hrest, List.append_nil]
  exact (nodup_firstOccurrences as).filter _

theorem sum_map_firstOccurrences_le {α : Type} [DecidableEq α] (as : List α) (f : α → Nat) :
    ((firstOccurrences as).map f).sum ≤ (as.map f).sum :=
  ((firstOccurrences_sublist as).map f).sum_le_sum fun _ _ => Nat.zero_le _

namespace Grammar

variable {g h : Grammar}

/-- The rules that get links: those of three or more symbols. -/
def linkedRules (g : Grammar) : List Rule := g.rules.filter (3 ≤ ·.body.length)

theorem rules_withRules (g : Grammar) (rules : List Rule) :
    (g.withRules rules).rules = firstOccurrences rules := rfl

theorem withRules_congr (g : Grammar) {rules rules' : List Rule}
    (h : firstOccurrences rules = firstOccurrences rules') :
    g.withRules rules = g.withRules rules' :=
  congrArg (fun rules => { g with rules := rules }) h

theorem mem_rules_withRules_rules (g : Grammar) (r : Rule) :
    r ∈ (g.withRules g.rules).rules ↔ r ∈ g.rules := mem_withRules

theorem pairedTerminals_withRules_rules (g : Grammar) :
    (g.withRules g.rules).pairedTerminals = g.pairedTerminals :=
  CharSet.ext fun a => by simp [pairedTerminals]

theorem freeNames_withRules_rules (g : Grammar) :
    (g.withRules g.rules).freeNames = g.freeNames := by
  rw [freeNames, freeNames, nonterminals_congr g.mem_rules_withRules_rules]
  rfl

theorem Splittable.withRules_rules (hg : g.Splittable) : (g.withRules g.rules).Splittable :=
  fun r hr => hg r (mem_withRules.1 hr)

/-- A rule that gets links twice gets more of them than one that does not. -/
theorem sum_linkCount_lt (hrepeated : ¬ g.linkedRules.Nodup) :
    ((firstOccurrences g.rules).map Rule.linkCount).sum < (g.rules.map Rule.linkCount).sum := by
  refine sum_map_firstOccurrences_lt fun hnodup => hrepeated ?_
  have hlinked : g.linkedRules = g.rules.filter (0 < ·.linkCount) :=
    List.filter_congr fun r _ => decide_eq_decide.2 r.linkCount_pos.symm
  rwa [hlinked]

end Grammar

namespace Binarized

variable {g : Grammar} {plan plan' : Plan} {t t' : NameSupply}

theorem splittable (b : Binarized g plan t) : g.Splittable := fun _ hr =>
  ⟨b.body_ne_nil hr, fun hlong hnull =>
    b.null_not_mem_namedSymbols hr (Rule.mem_namedSymbols.2 ⟨hlong, hnull⟩)⟩

/-- **A rule that gets links twice costs rules.** -/
theorem length_written_lt (b : Binarized g plan t) (b' : Binarized (g.withRules g.rules) plan' t')
    (hrepeated : ¬ g.linkedRules.Nodup) :
    (firstOccurrences (plan'.encode t'.nameOf ++ t'.rules)).length <
      (firstOccurrences (plan.encode t.nameOf ++ t.rules)).length := by
  have hlinks := g.sum_linkCount_lt hrepeated
  have hnames := b.length_newNames
  have hnames' := b'.length_newNames
  rw [g.pairedTerminals_withRules_rules] at hnames'
  -- the rules for old names unfold to those of the grammar, so there are no fewer of them
  have hold : (firstOccurrences g.rules).length ≤
      (firstOccurrences (plan.map fun p => p.1.leading t.nameOf p.2)).length := by
    rw [← b.map_unfoldBody_leading, ← firstOccurrences_map_firstOccurrences]
    exact (firstOccurrences_sublist _).length_le.trans (Nat.le_of_eq (List.length_map _))
  have hold' : (firstOccurrences (plan'.map fun p => p.1.leading t'.nameOf p.2)).length =
      (firstOccurrences g.rules).length := by
    rw [firstOccurrences_of_nodup (b'.nodup_leading (g.nodup_withRules g.rules)), List.length_map,
      ← List.length_map (f := Prod.fst), b'.rules]
    rfl
  rw [b.length_written, b'.length_written, hold', hnames, hnames']
  show ((firstOccurrences g.rules).map Rule.linkCount).sum + _ + _ < _
  omega

end Binarized

namespace Grammar

variable {g h : Grammar}

/-- **Repeated rules are irrelevant to a whole run** when none of them gets links: with the same
failure or the same rules, it leaves the same supply. -/
theorem binarization_withRules_rules (hnodup : g.linkedRules.Nodup) :
    (g.withRules g.rules).binarization = g.binarization := by
  have hsupply : NameSupply.ofGrammar (g.withRules g.rules) = .ofGrammar g :=
    ofGrammar_congr rfl g.mem_rules_withRules_rules
  have hsame := splitRules_firstOccurrences (.ofGrammar g) g.rules hnodup
  rw [binarization, binarization, hsupply, rules_withRules]
  generalize splitRules (.ofGrammar g) g.rules = run at hsame ⊢
  generalize splitRules (.ofGrammar g) (firstOccurrences g.rules) = run' at hsame ⊢
  cases hsame with
  | error e => rfl
  | @ok written written' t hwritten =>
    have hwritten : g.withRules (written' ++ t.rules) = g.withRules (written ++ t.rules) :=
      g.withRules_congr (firstOccurrences_append_congr hwritten.symm rfl)
    exact congrArg (fun k => Except.ok (k, t)) hwritten

/-- What is granted in a run that ends well: a letter for each request. -/
theorem length_grantedNames (hrun : g.binarize = .ok h) :
    g.Splittable ∧ g.grantedNames.length = g.requests.length ∧
      g.requests.length ≤ g.freeNames.length := by
  obtain ⟨plan, t, b, -⟩ := binarize_ok hrun
  have hle := b.splittable.exists_binarize_iff.1 ⟨h, hrun⟩
  refine ⟨b.splittable, ?_, hle⟩
  rw [b.splittable.grantedNames_eq, List.length_zip, Nat.min_eq_right hle]

/-- Without its duplicates a list of rules asks for no more names, and for fewer if some rule gets
links twice. -/
theorem length_requests_withRules_rules (hg : g.Splittable) :
    (g.withRules g.rules).requests.length ≤ g.requests.length ∧
      (¬ g.linkedRules.Nodup → (g.withRules g.rules).requests.length < g.requests.length) := by
  rw [hg.length_requests, hg.withRules_rules.length_requests, pairedTerminals_withRules_rules]
  exact ⟨Nat.add_le_add_left (sum_map_firstOccurrences_le g.rules Rule.linkCount) _,
    fun hrepeated => Nat.add_lt_add_left (sum_linkCount_lt hrepeated) _⟩

/-- **What repeated rules do to binarization.**  Where no rule of three or more symbols is repeated
they are irrelevant.  Else a run that ends well does so without the copies too, with fewer rules and
fewer new names. -/
theorem binarize_withRules_rules (g : Grammar) :
    (g.linkedRules.Nodup → (g.withRules g.rules).binarize = g.binarize ∧
      (g.withRules g.rules).grantedNames = g.grantedNames) ∧
    (¬ g.linkedRules.Nodup → ∀ h, g.binarize = .ok h →
      ∃ h', (g.withRules g.rules).binarize = .ok h' ∧ h'.rules.length < h.rules.length ∧
        (g.withRules g.rules).grantedNames.length < g.grantedNames.length) := by
  constructor
  · intro hnodup
    unfold binarize grantedNames
    rw [binarization_withRules_rules hnodup]
    exact ⟨rfl, rfl⟩
  · intro hrepeated h hrun
    obtain ⟨hg, hgranted, hroom⟩ := length_grantedNames hrun
    obtain ⟨hle, hlt⟩ := length_requests_withRules_rules hg
    obtain ⟨h', hrun'⟩ := hg.withRules_rules.exists_binarize_iff.2 <| by
      rw [freeNames_withRules_rules]
      exact hle.trans hroom
    refine ⟨h', hrun', ?_, ?_⟩
    · obtain ⟨plan, t, b, rfl⟩ := binarize_ok hrun
      obtain ⟨plan', t', b', rfl⟩ := binarize_ok hrun'
      exact b.length_written_lt b' hrepeated
    · rw [hgranted, (length_grantedNames hrun').2.1]
      exact hlt hrepeated

/-- One rule of three symbols, twice. -/
def echoed : Grammar where
  rules := [⟨'S', [.terminal 'a', .terminal 'b', .terminal 'c']⟩,
    ⟨'S', [.terminal 'a', .terminal 'b', .terminal 'c']⟩]
  start := 'S'
  marker := '#'

/-- The copy of a rule of two symbols changes nothing; that of a rule of three gets a link of its
own. -/
theorem binarize_withRules_rules_echoed :
    (shuffled.linkedRules.Nodup ∧ ¬ shuffled.rules.Nodup ∧
        (shuffled.withRules shuffled.rules).binarize = shuffled.binarize) ∧
      ¬ echoed.linkedRules.Nodup ∧ ∃ h h', echoed.binarize = .ok h ∧
        (echoed.withRules echoed.rules).binarize = .ok h' ∧ h'.rules.length < h.rules.length := by
  have hnodup : shuffled.linkedRules.Nodup := by decide
  have hrepeated : ¬ echoed.linkedRules.Nodup := by decide
  obtain ⟨h, hrun⟩ : ∃ h, echoed.binarize = .ok h := ⟨_, rfl⟩
  obtain ⟨h', hrun', hlt, -⟩ := (binarize_withRules_rules echoed).2 hrepeated h hrun
  refine ⟨⟨hnodup, by decide, ?_⟩, hrepeated, h, h', hrun, hrun', hlt⟩
  exact ((binarize_withRules_rules shuffled).1 hnodup).1

/-- A grammar that leaves one letter, with a rule that needs one, twice. -/
def crowded : Grammar where
  rules := (alphabet.take 25).map (fun X => ⟨X, [.terminal 'a']⟩) ++
    List.replicate 2 ⟨'A', [.nonterminal 'B', .nonterminal 'C', .nonterminal 'D']⟩
  start := 'A'
  marker := '#'

/-- Repeated rules are not irrelevant to binarization, and a copy may ask for the letter that is
missing. -/
theorem binarize_withRules_rules_ne :
    (¬ ∀ g : Grammar, (g.withRules g.rules).binarize = g.binarize) ∧
      crowded.binarize = .error (.exhausted (.link 'A')) ∧
      ∃ h, (crowded.withRules crowded.rules).binarize = .ok h := by
  refine ⟨fun hall => ?_, rfl, _, rfl⟩
  have hcount := congrArg (fun run => run.toOption.map (·.rules.length)) (hall echoed)
  exact absurd hcount (by decide)

end Grammar

/-! ## The other stages -/

namespace Grammar

/-- Null elimination gives the same without duplicates among the rules. -/
theorem eliminateNull_withRules_rules (g : Grammar) :
    (g.withRules g.rules).eliminateNull = g.eliminateNull := by
  rw [eliminateNull, eliminateNull, nullable_congr g.mem_rules_withRules_rules]
  exact g.withRules_congr (firstOccurrences_flatMap_firstOccurrences _ g.rules)

/-- Without duplicates among the rules the same rules are inherited, up to duplicates. -/
theorem firstOccurrences_inheritedRules (g : Grammar) (r : Rule) :
    firstOccurrences ((g.withRules g.rules).inheritedRules (g.withRules g.rules).unitClosure r) =
      firstOccurrences (g.inheritedRules g.unitClosure r) := by
  have htargets : (g.withRules g.rules).unitClosure.targets r.head =
      g.unitClosure.targets r.head := by
    refine CharSet.ext fun c => ?_
    rw [mem_targets_unitClosure, mem_targets_unitClosure,
      unitReaches_congr g.mem_rules_withRules_rules, nonterminals_congr g.mem_rules_withRules_rules]
  unfold inheritedRules
  split
  · rw [htargets]
    refine firstOccurrences_flatMap_congr fun target _ => ?_
    rw [rulesFor, rulesFor, rules_withRules, ← firstOccurrences_filter, ← firstOccurrences_filter,
      firstOccurrences_map_firstOccurrences]
  · rfl

/-- So does unit elimination. -/
theorem eliminateUnits_withRules_rules (g : Grammar) :
    (g.withRules g.rules).eliminateUnits = g.eliminateUnits := by
  refine g.withRules_congr ?_
  rw [rules_withRules, firstOccurrences_flatMap_firstOccurrences]
  exact firstOccurrences_flatMap_congr fun r _ => g.firstOccurrences_inheritedRules r

/-- So does the removal of useless rules. -/
theorem eliminateUseless_withRules_rules (g : Grammar) :
    (g.withRules g.rules).eliminateUseless = g.eliminateUseless := by
  have hproductive : (g.withRules g.rules).productive = g.productive :=
    productive_congr g.mem_rules_withRules_rules
  have hreachable : (g.withRules g.rules).reachable = g.reachable :=
    CharSet.ext (mem_reachable_congr (by exact rfl) g.mem_rules_withRules_rules)
  refine g.withRules_congr ?_
  rw [hproductive, hreachable, rules_withRules, firstOccurrences_filter, firstOccurrences_filter,
    firstOccurrences_firstOccurrences]

/-- **Repeated rules are irrelevant to normalization.** -/
theorem normalize_withRules_rules (g : Grammar) :
    (g.withRules g.rules).normalize = g.normalize := by
  rw [normalize_eq, normalize_eq, prepared, prepared, eliminateNull_withRules_rules]

end Grammar

/-- **Repeated rules are irrelevant to every stage but binarization.** -/
theorem Stage.apply_withRules_rules {s : Stage} (hs : s ≠ .normal) (g : Grammar) :
    s.apply (g.withRules g.rules) = s.apply g := by
  cases s with
  | null => exact congrArg Except.ok g.eliminateNull_withRules_rules
  | unit => exact congrArg Except.ok g.eliminateUnits_withRules_rules
  | useless => exact congrArg Except.ok g.eliminateUseless_withRules_rules
  | normal => exact absurd rfl hs

/-! ## The order of what is kept -/

namespace Grammar

variable {g h : Grammar}

theorem inFirstOrder_withRules (g : Grammar) (rules : List Rule) :
    InFirstOrder rules (g.withRules rules).rules :=
  inFirstOrder_iff.2 (rules_withRules g rules)

/-- The rules that the removal of useless ones keeps stand as they first stand in the grammar. -/
theorem inFirstOrder_eliminateUseless (g : Grammar) :
    InFirstOrder (g.rules.filter (· ∈ g.eliminateUseless.rules)) g.eliminateUseless.rules := by
  have hkept : g.rules.filter (· ∈ g.eliminateUseless.rules) = g.rules.filter fun r =>
      r.head ∈ g.reachable && r.body.all (·.generatesIn Symbol.isTerminal g.productive) := by
    refine List.filter_congr fun r hr => Bool.eq_iff_iff.2 ?_
    simp [mem_eliminateUseless, hr]
  rw [hkept]
  exact g.inFirstOrder_withRules _

/-- The rules of a normal form stand as they were first written: links and pairs rule by rule, and
the stand-ins after them. -/
theorem inFirstOrder_binarize (hrun : g.binarize = .ok h) :
    ∃ written s, splitRules (.ofGrammar g) g.rules = .ok (written, s) ∧
      InFirstOrder (written ++ s.rules) h.rules := by
  obtain ⟨t, hrun⟩ := binarize_eq_ok.1 hrun
  unfold binarization at hrun
  split at hrun
  · cases hrun
  · rename_i written _ hsplit
    cases hrun
    exact ⟨written, t, hsplit, g.inFirstOrder_withRules _⟩

/-- **Repeated rules are irrelevant to the first three stages and to normalization**: with the same
failure or the same rules in the same order.  What is kept stands, without duplicates, in the order
in which it was first written. -/
theorem stages_withRules_rules (g : Grammar) :
    ((g.withRules g.rules).eliminateNull = g.eliminateNull ∧
        (g.withRules g.rules).eliminateUnits = g.eliminateUnits ∧
        (g.withRules g.rules).eliminateUseless = g.eliminateUseless ∧
        (g.withRules g.rules).normalize = g.normalize) ∧
      InFirstOrder (g.rules.flatMap (shortenedRules g.nullable)) g.eliminateNull.rules ∧
      InFirstOrder (g.rules.flatMap (g.inheritedRules g.unitClosure)) g.eliminateUnits.rules ∧
      InFirstOrder (g.rules.filter (· ∈ g.eliminateUseless.rules)) g.eliminateUseless.rules ∧
      ∀ h, g.normalize = .ok h → ∃ written s,
        splitRules (.ofGrammar g.prepared) g.prepared.rules = .ok (written, s) ∧
          InFirstOrder (written ++ s.rules) h.rules := by
  refine ⟨⟨g.eliminateNull_withRules_rules, g.eliminateUnits_withRules_rules,
    g.eliminateUseless_withRules_rules, g.normalize_withRules_rules⟩, g.inFirstOrder_withRules _,
    g.inFirstOrder_withRules _, g.inFirstOrder_eliminateUseless, fun h hrun => ?_⟩
  rw [normalize_eq] at hrun
  exact inFirstOrder_binarize hrun

/-- A rule of three symbols and a rule of one stand twice, and the shortened forms of one rule are
among the other rules. -/
def refrain : Grammar where
  rules := [⟨'S', [.nonterminal 'A', .terminal 'b', .nonterminal 'A']⟩, ⟨'S', [.nonterminal 'A']⟩,
    ⟨'A', [.terminal 'a']⟩, ⟨'S', [.nonterminal 'A', .terminal 'b', .nonterminal 'A']⟩,
    ⟨'A', [.null]⟩, ⟨'A', [.terminal 'a']⟩, ⟨'S', [.terminal 'b', .nonterminal 'A']⟩]
  start := 'S'
  marker := '#'

/-- The normal form of `refrain`. -/
def refrainForm : Grammar where
  rules := [⟨'C', [.nonterminal 'B', .nonterminal 'A']⟩,
    ⟨'S', [.nonterminal 'A', .nonterminal 'C']⟩,
    ⟨'S', [.nonterminal 'A', .nonterminal 'B']⟩, ⟨'S', [.nonterminal 'B', .nonterminal 'A']⟩,
    ⟨'S', [.terminal 'b']⟩, ⟨'S', [.terminal 'a']⟩, ⟨'A', [.terminal 'a']⟩, ⟨'B', [.terminal 'b']⟩]
  start := 'S'
  marker := '#'

theorem stages_withRules_rules_refrain :
    (refrain.withRules refrain.rules).rules ≠ refrain.rules ∧ refrain.normalize = .ok refrainForm ∧
      (refrain.withRules refrain.rules).normalize = .ok refrainForm ∧
      ∃ written s, splitRules (.ofGrammar refrain.prepared) refrain.prepared.rules =
        .ok (written, s) ∧
        InFirstOrder (written ++ s.rules) refrainForm.rules := by
  have hrun : refrain.normalize = .ok refrainForm := rfl
  obtain ⟨⟨-, -, -, hsame⟩, -, -, -, hordered⟩ := stages_withRules_rules refrain
  exact ⟨by decide, hrun, hsame.trans hrun, hordered refrainForm hrun⟩

end Grammar

end Chomsky
