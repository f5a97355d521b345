import Chomsky.Proofs.Normalization
import Chomsky.Proofs.Renaming

/-!
# The order of the rules

The first three stages look at the rules as a set, so grammars with the same rules are prepared
alike, up to the order.  Binarization gives out letters rule by rule; in another order it needs as
many letters, and gives the same rules up to the names of the new nonterminals.

* `Renames` — a permutation of letters that carries the rules of one grammar over to another and
  keeps the names of a third.

Principal results: `Grammar.prepared_perm` — what the first three stages leave depends on the set of
the rules only; `Binarized.exists_renaming` — two runs over the same rules differ by a permutation
of free letters; `Grammar.normalize_rule_order` — the same for normalization.
-/

namespace Chomsky

namespace Grammar

variable {g g' : Grammar} {r : Rule}

/-! ## What depends on the set of the rules only -/

theorem nonterminals_congr (h : ∀ r, r ∈ g.rules ↔ r ∈ g'.rules) :
    g.nonterminals = g'.nonterminals :=
  CharSet.ext fun c => by simp only [mem_nonterminals, h]

theorem mem_eliminateNull_congr (h : ∀ r, r ∈ g.rules ↔ r ∈ g'.rules) (r : Rule) :
    r ∈ g.eliminateNull.rules ↔ r ∈ g'.eliminateNull.rules := by
  simp only [mem_eliminateNull, nullable_congr h, h]

theorem unitReaches_congr (h : ∀ r, r ∈ g.rules ↔ r ∈ g'.rules) :
    UnitReaches g.rules = UnitReaches g'.rules := by
  have hstep : UnitStep g.rules = UnitStep g'.rules := by
    funext A B
    exact propext (h _)
  rw [UnitReaches, UnitReaches, hstep]

theorem mem_eliminateUnits_congr (h : ∀ r, r ∈ g.rules ↔ r ∈ g'.rules) (r : Rule) :
    r ∈ g.eliminateUnits.rules ↔ r ∈ g'.eliminateUnits.rules := by
  simp only [mem_eliminateUnits, unitReaches_congr h, h]

theorem mem_nullFree_congr (h : ∀ r, r ∈ g.rules ↔ r ∈ g'.rules) (r : Rule) :
    r ∈ nullFree g.rules ↔ r ∈ nullFree g'.rules := by
  simp only [mem_nullFree, h]

theorem productive_congr (h : ∀ r, r ∈ g.rules ↔ r ∈ g'.rules) : g.productive = g'.productive :=
  CharSet.ext fun X => by
    rw [mem_productive, mem_productive, generates_congr (mem_nullFree_congr h)]

theorem mem_reachable_congr (hstart : g.start = g'.start) (h : ∀ r, r ∈ g.rules ↔ r ∈ g'.rules)
    (c : Char) : c ∈ g.reachable ↔ c ∈ g'.reachable := by
  have hmentions : Mentions g.rules = Mentions g'.rules := by
    funext A B
    simp only [Mentions, h]
  rw [mem_reachable, mem_reachable, Reaches, Reaches, hmentions, hstart]

theorem mem_eliminateUseless_congr (hstart : g.start = g'.start)
    (h : ∀ r, r ∈ g.rules ↔ r ∈ g'.rules) (r : Rule) :
    r ∈ g.eliminateUseless.rules ↔ r ∈ g'.eliminateUseless.rules := by
  rw [mem_eliminateUseless_iff, mem_eliminateUseless_iff, generates_congr (mem_nullFree_congr h),
    mem_nullFree_congr h, mem_reachable_congr hstart h]

/-- **What the first three stages leave depends on the set of the rules only.** -/
theorem mem_prepared_congr (hstart : g.start = g'.start) (h : ∀ r, r ∈ g.rules ↔ r ∈ g'.rules)
    (r : Rule) : r ∈ g.prepared.rules ↔ r ∈ g'.prepared.rules := by
  have hunits := mem_eliminateUnits_congr (mem_eliminateNull_congr h)
  exact mem_eliminateUseless_congr (by exact hstart) hunits r

theorem prepared_perm (hstart : g.start = g'.start) (h : ∀ r, r ∈ g.rules ↔ r ∈ g'.rules) :
    g.prepared.rules.Perm g'.prepared.rules :=
  (List.perm_ext_iff_of_nodup (nodup_withRules ..) (nodup_withRules ..)).2
    (mem_prepared_congr hstart h)

theorem ofGrammar_congr (hstart : g.start = g'.start) (h : ∀ r, r ∈ g.rules ↔ r ∈ g'.rules) :
    NameSupply.ofGrammar g = NameSupply.ofGrammar g' := by
  rw [NameSupply.ofGrammar, NameSupply.ofGrammar, nonterminals_congr h, hstart]

end Grammar

/-! ## Two runs over the same rules -/

namespace Binarized

variable {g g₁ g₂ : Grammar} {plan plan₁ plan₂ : Plan} {t t₁ t₂ : NameSupply}

/-- The names that a run gives out, links first. -/
def newNames (plan : Plan) (t : NameSupply) : List Char := plan.links ++ t.standIns.map Prod.snd

theorem nodup_newNames (b : Binarized g plan t) : (newNames plan t).Nodup := by
  rw [newNames, ← b.keys_table]
  exact b.nodup_keys_table

theorem mem_free_of_mem_newNames (b : Binarized g plan t) {c : Char} (hc : c ∈ newNames plan t) :
    c ∈ (NameSupply.ofGrammar g).free := by
  refine b.names.mem_iff.1 ?_
  rw [newNames, List.mem_append] at hc
  rw [List.mem_append, NameSupply.pool, List.mem_append]
  exact hc.imp_right .inl

/-- The rules can be listed in another order; the plan is then carried out in that order. -/
theorem reorder (b : Binarized g₂ plan₂ t₂) (hrules : g₁.rules.Perm g₂.rules) :
    ∃ plan : Plan, plan₂.Perm plan ∧ plan.map Prod.fst = g₁.rules ∧
      ∀ p ∈ plan, p.2.length = p.1.linkCount := by
  have hperm : (plan₂.map Prod.fst).Perm g₁.rules := by
    rw [b.rules]
    exact hrules.symm
  obtain ⟨plan, hplan, hmap⟩ := exists_perm_of_map_perm hperm
  exact ⟨plan, hplan, hmap, fun p hp => b.lengths p (hplan.mem_iff.2 hp)⟩

/-- The same rules have stand-ins for the same terminals, in the same order. -/
theorem standIns_keys (b₁ : Binarized g₁ plan₁ t₁) (b₂ : Binarized g₂ plan₂ t₂)
    (hrules : g₁.rules.Perm g₂.rules) :
    t₁.standIns.map Prod.fst = t₂.standIns.map Prod.fst := by
  refine CharSet.eq_of_pairwise b₁.ascending b₂.ascending fun c => ?_
  have hletters : t₁.letters = t₂.letters := by
    rw [b₁.letters, b₂.letters]
    exact CharSet.insertAll_congr fun c => (hrules.flatMap_right _).mem_iff
  rw [← CharSet.mem_ofList, ← CharSet.mem_ofList]
  exact iff_of_eq (congrArg (c ∈ ·) hletters)

/-- The new names of one run are turned into those of another one by a permutation of free letters:
there are as many of them, and both runs have the same letters to choose from. -/
theorem exists_perm_newNames (b₁ : Binarized g₁ plan₁ t₁) (b₂ : Binarized g₂ plan₂ t₂)
    (hstart : g₁.start = g₂.start) (hrules : g₁.rules.Perm g₂.rules) (hplan : plan₂.Perm plan)
    (hmap : plan.map Prod.fst = g₁.rules) (hlengths : ∀ p ∈ plan, p.2.length = p.1.linkCount) :
    ∃ σ : Equiv.Perm Char, (∀ c, c ∉ (NameSupply.ofGrammar g₁).free → σ c = c) ∧
      plan₁.links.map σ = plan.links ∧
      (t₁.standIns.map Prod.snd).map σ = t₂.standIns.map Prod.snd := by
  have hnames : (newNames plan₂ t₂).Perm (newNames plan t₂) :=
    (hplan.flatMap_right Prod.snd).append_right _
  have hlinks : plan₁.links.length = plan.links.length := by
    rw [Plan.length_links b₁.lengths, Plan.length_links hlengths, b₁.rules, hmap]
  have hstandIns : t₁.standIns.length = t₂.standIns.length := by
    simpa using congrArg List.length (b₁.standIns_keys b₂ hrules)
  have hlength : (newNames plan₁ t₁).length = (newNames plan t₂).length := by
    simp [newNames, hlinks, hstandIns]
  obtain ⟨σ, hσ, hfix⟩ := exists_perm_map_eq b₁.nodup_newNames
    (hnames.nodup_iff.1 b₂.nodup_newNames) hlength
  rw [newNames, newNames, List.map_append] at hσ
  obtain ⟨hσlinks, hσnames⟩ := List.append_inj hσ (by simpa using hlinks)
  refine ⟨σ, ?_, hσlinks, hσnames⟩
  intro c hc
  have hc₁ : c ∉ newNames plan₁ t₁ := by
    intro hmem
    exact hc (b₁.mem_free_of_mem_newNames hmem)
  have hc₂ : c ∉ newNames plan t₂ := by
    intro hmem
    have hfree := b₂.mem_free_of_mem_newNames (hnames.mem_iff.2 hmem)
    rw [← Grammar.ofGrammar_congr hstart fun r => hrules.mem_iff] at hfree
    exact hc hfree
  exact hfix c hc₁ hc₂

/-- **Two runs over the same rules differ by a permutation of free letters.** -/
theorem exists_renaming (b₁ : Binarized g₁ plan₁ t₁) (b₂ : Binarized g₂ plan₂ t₂)
    (hstart : g₁.start = g₂.start) (hrules : g₁.rules.Perm g₂.rules) :
    ∃ σ : Equiv.Perm Char, (∀ c, c ∉ (NameSupply.ofGrammar g₁).free → σ c = c) ∧
      ((plan₁.encode t₁.nameOf ++ t₁.rules).map (Rule.rename σ)).Perm
        (plan₂.encode t₂.nameOf ++ t₂.rules) := by
  obtain ⟨plan, hplan, hmap, hlengths⟩ := b₂.reorder hrules
  obtain ⟨σ, hfree, hlinks, hnames⟩ :=
    b₁.exists_perm_newNames b₂ hstart hrules hplan hmap hlengths
  -- the names of the grammar are not free, so they stay
  have hold : ∀ X, X ∈ g₁.nonterminals → σ X = X := by
    intro X hX
    refine hfree X ?_
    intro hmem
    exact (NameSupply.mem_free_ofGrammar.1 hmem).2.2 hX
  have hbody : ∀ p ∈ plan₁, ∀ X, .nonterminal X ∈ p.1.body → σ X = X := by
    intro p hp X hX
    exact hold X (Grammar.mem_nonterminals.2 ⟨p.1, b₁.rule_mem hp, .inr hX⟩)
  have htable := NameSupply.standIns_eq_map (b₁.standIns_keys b₂ hrules) hnames
  have hrules_eq : plan₁.map Prod.fst = plan.map Prod.fst := b₁.rules.trans hmap.symm
  have hplan_eq := Plan.eq_rename hrules_eq hlinks b₁.lengths hlengths
  have hencode : (plan₁.encode t₁.nameOf).map (Rule.rename σ) = plan.encode t₂.nameOf := by
    rw [hplan_eq]
    refine Plan.map_rename_encode ?_ ?_
    · intro p hp
      have hhead : p.1.head ∈ g₁.nonterminals :=
        Grammar.mem_nonterminals.2 ⟨p.1, b₁.rule_mem hp, .inl rfl⟩
      exact ⟨hold p.1.head hhead, hbody p hp⟩
    · intro p hp x hx
      cases x with
      | nonterminal X => exact (hbody p hp X (Rule.mem_body_of_mem_namedSymbols hx)).symm
      | null => exact absurd hx (b₁.null_not_mem_namedSymbols (b₁.rule_mem hp))
      | terminal a => exact NameSupply.nameOf_rename htable (b₁.mem_letters (b₁.rule_mem hp) hx)
  refine ⟨σ, hfree, ?_⟩
  rw [List.map_append, hencode, ← NameSupply.rules_rename htable]
  exact (hplan.flatMap_right _).symm.append_right _

end Binarized

/-! ## Two results over the same rules -/

/-- A permutation of the letters of the alphabet keeps the names of a grammar and carries the rules
of one result over to another. -/
structure Renames (σ : Equiv.Perm Char) (g h₁ h₂ : Grammar) : Prop where
  letters : ∀ c, c ∉ alphabet → σ c = c
  start : σ g.start = g.start
  nonterminals : ∀ c ∈ g.nonterminals, σ c = c
  rules : (h₁.rules.map (Rule.rename σ)).Perm h₂.rules

namespace Grammar

variable {g g₁ g₂ h₁ h₂ : Grammar} {e : GrammarError}

/-- A permutation that moves free letters only renames as is required. -/
theorem renames_of_free {σ : Equiv.Perm Char}
    (hfree : ∀ c, c ∉ (NameSupply.ofGrammar g).free → σ c = c)
    (hrules : (h₁.rules.map (Rule.rename σ)).Perm h₂.rules) : Renames σ g h₁ h₂ where
  letters c hc := by
    refine hfree c ?_
    intro hmem
    exact hc (NameSupply.mem_free_ofGrammar.1 hmem).1
  start := by
    refine hfree g.start ?_
    intro hmem
    exact (NameSupply.mem_free_ofGrammar.1 hmem).2.1 rfl
  nonterminals c hc := by
    refine hfree c ?_
    intro hmem
    exact (NameSupply.mem_free_ofGrammar.1 hmem).2.2 hc
  rules := hrules

/-- Two successful runs over the same rules give the same rules up to new names. -/
theorem exists_renames (hstart : g₁.start = g₂.start) (hrules : g₁.rules.Perm g₂.rules)
    (hrun₁ : g₁.binarize = .ok h₁) (hrun₂ : g₂.binarize = .ok h₂) :
    ∃ σ, Renames σ g₁ h₁ h₂ := by
  obtain ⟨plan₁, t₁, b₁, rfl⟩ := binarize_ok hrun₁
  obtain ⟨plan₂, t₂, b₂, rfl⟩ := binarize_ok hrun₂
  obtain ⟨σ, hfree, hperm⟩ := b₁.exists_renaming b₂ hstart hrules
  refine ⟨σ, renames_of_free hfree ?_⟩
  have hnodup := List.Nodup.map (Rule.rename_injective (σ := σ))
    (nodup_withRules g₁ (plan₁.encode t₁.nameOf ++ t₁.rules))
  refine (List.perm_ext_iff_of_nodup hnodup (nodup_withRules ..)).2 fun r => ?_
  rw [mem_withRules, ← hperm.mem_iff, List.mem_map, List.mem_map]
  exact exists_congr fun q => and_congr_left fun _ => mem_withRules

/-- Whether binarization has letters enough does not depend on the order of the rules. -/
theorem binarize_ne_error (hstart : g₁.start = g₂.start) (hrules : g₁.rules.Perm g₂.rules)
    (hne : ∀ r ∈ g₁.rules, r.body ≠ []) (hnull : ∀ r ∈ g₁.rules, Symbol.null ∉ r.body)
    (hrun₂ : g₂.binarize = .ok h₂) : g₁.binarize ≠ .error e := by
  intro hrun₁
  obtain ⟨plan₂, t₂, b₂, rfl⟩ := binarize_ok hrun₂
  have hnamed : ∀ r ∈ g₁.rules, Symbol.null ∉ r.namedSymbols := by
    intro r hr hmem
    exact hnull r hr (Rule.mem_body_of_mem_namedSymbols hmem)
  have hmany := (exhausted_of_binarize_error hne hnull hrun₁).1
  have hfew := b₂.serves.length_le
  have hsupply := ofGrammar_congr hstart fun r => hrules.mem_iff
  have hcount := length_demands_perm hrules hne hnamed
  rw [← hsupply] at hfew
  omega

/-- **Binarization does not depend on the order of the rules**, up to the new names. -/
theorem binarize_perm (hstart : g₁.start = g₂.start) (hrules : g₁.rules.Perm g₂.rules)
    (hne : ∀ r ∈ g₁.rules, r.body ≠ []) (hnull : ∀ r ∈ g₁.rules, Symbol.null ∉ r.body) :
    (∃ h₁ h₂ σ, g₁.binarize = .ok h₁ ∧ g₂.binarize = .ok h₂ ∧ Renames σ g₁ h₁ h₂) ∨
      ∃ purpose₁ purpose₂, g₁.binarize = .error (.exhausted purpose₁) ∧
        g₂.binarize = .error (.exhausted purpose₂) := by
  have hne' : ∀ r ∈ g₂.rules, r.body ≠ [] := by
    intro r hr
    exact hne r (hrules.mem_iff.2 hr)
  have hnull' : ∀ r ∈ g₂.rules, Symbol.null ∉ r.body := by
    intro r hr
    exact hnull r (hrules.mem_iff.2 hr)
  cases hrun₁ : g₁.binarize with
  | ok h₁ =>
    cases hrun₂ : g₂.binarize with
    | ok h₂ =>
      obtain ⟨σ, hσ⟩ := exists_renames hstart hrules hrun₁ hrun₂
      exact .inl ⟨h₁, h₂, σ, rfl, rfl, hσ⟩
    | error e => exact absurd hrun₂ (binarize_ne_error hstart.symm hrules.symm hne' hnull' hrun₁)
  | error e =>
    cases hrun₂ : g₂.binarize with
    | ok h₂ => exact absurd hrun₁ (binarize_ne_error hstart hrules hne hnull hrun₂)
    | error e' =>
      obtain ⟨-, purpose₁, rfl⟩ := exhausted_of_binarize_error hne hnull hrun₁
      obtain ⟨-, purpose₂, rfl⟩ := exhausted_of_binarize_error hne' hnull' hrun₂
      exact .inr ⟨purpose₁, purpose₂, rfl, rfl⟩

/-- **Normalization depends on the start symbol and the set of the rules only**, up to the names of
the new nonterminals. -/
theorem normalize_rule_order (hstart : g₁.start = g₂.start)
    (hrules : ∀ r, r ∈ g₁.rules ↔ r ∈ g₂.rules) :
    (∀ r, r ∈ g₁.prepared.rules ↔ r ∈ g₂.prepared.rules) ∧
      ((∃ h₁ h₂ σ, g₁.normalize = .ok h₁ ∧ g₂.normalize = .ok h₂ ∧
          h₁.rules.length = h₂.rules.length ∧ Renames σ g₁.prepared h₁ h₂) ∨
        ∃ purpose₁ purpose₂, g₁.normalize = .error (.exhausted purpose₁) ∧
          g₂.normalize = .error (.exhausted purpose₂)) := by
  refine ⟨mem_prepared_congr hstart hrules, ?_⟩
  rw [normalize_eq, normalize_eq]
  rcases binarize_perm (by exact hstart) (prepared_perm hstart hrules)
      (fun r hr => (body_of_mem_prepared hr).1) (fun r hr => (body_of_mem_prepared hr).2.1) with
    ⟨h₁, h₂, σ, hrun₁, hrun₂, hσ⟩ | hexhausted
  · have hlength : h₁.rules.length = h₂.rules.length := by
      simpa using hσ.rules.length_eq
    exact .inl ⟨h₁, h₂, σ, hrun₁, hrun₂, hlength, hσ⟩
  · exact .inr hexhausted

/-- Two rules that share their terminals. -/
def mirrored : Grammar where
  rules := [⟨'S', [.terminal 'a', .nonterminal 'S', .terminal 'b']⟩,
    ⟨'S', [.terminal 'b', .terminal 'a']⟩]
  start := 'S'
  marker := '#'

/-- The rules of `mirrored` in another order, one of them twice. -/
def shuffled : Grammar where
  rules := [⟨'S', [.terminal 'b', .terminal 'a']⟩,
    ⟨'S', [.terminal 'a', .nonterminal 'S', .terminal 'b']⟩,
    ⟨'S', [.terminal 'b', .terminal 'a']⟩]
  start := 'S'
  marker := '#'

theorem normalize_rule_order_mirrored :
    mirrored.start = shuffled.start ∧ (∀ r, r ∈ mirrored.rules ↔ r ∈ shuffled.rules) ∧
      ∃ h₁ h₂ σ, mirrored.normalize = .ok h₁ ∧ shuffled.normalize = .ok h₂ ∧
        h₁.rules.length = h₂.rules.length ∧ Renames σ mirrored.prepared h₁ h₂ := by
  have hrules : ∀ r, r ∈ mirrored.rules ↔ r ∈ shuffled.rules := by
    intro r
    simp only [mirrored, shuffled, List.mem_cons, List.not_mem_nil, or_false]
    tauto
  have hstart : mirrored.start = shuffled.start := rfl
  refine ⟨hstart, hrules, ?_⟩
  rcases (normalize_rule_order hstart hrules).2 with hok | ⟨purpose₁, purpose₂, herror, -⟩
  · exact hok
  · cases herror

end Grammar

end Chomsky
