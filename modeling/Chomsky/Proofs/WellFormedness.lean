import Chomsky.Proofs.PassOrder
import Chomsky.Proofs.PrintedGrammar

/-!
# Passes keep grammars well formed

A grammar is well formed when rule text can hold it.  Each stage writes its rules without a look at
whether they are: it drops symbols from bodies, gives bodies to other heads, and writes pairs of
names that are letters only because the supply gives out letters only.

* `Grammar.WellFormed` — an upper-case start symbol, an admissible marker, well-formed rules.
* `SameSettings` — the same start symbol and the same marker.

Principal results: `Rule.wellFormed_iff` — what a well-formed rule is, symbol by symbol;
`Grammar.mem_nonterminals_binarize`, `Grammar.mem_terminals_binarize` — binarization uses old
symbols and free letters only; `Stage.apply_wellFormed`, `Pass.apply_wellFormed` — every stage and
every pass keeps a grammar well formed; `Pass.apply_sameSettings` — no pass changes the start symbol
or the marker.
-/

namespace Chomsky

/-! ## Well-formed rules -/

namespace Rule

variable {r q : Rule}

/-- **A well-formed rule, symbol by symbol.** -/
theorem wellFormed_iff :
    r.WellFormed ↔
      r.head.isUpper = true ∧ r.body ≠ [] ∧ (.null ∈ r.body → r.body = [.null]) ∧
        (∀ X, .nonterminal X ∈ r.body → X.isUpper = true) ∧
        ∀ a, .terminal a ∈ r.body → a.isLower = true := by
  constructor
  · intro hr
    rcases hr.body with hnull | ⟨hne, hadmissible⟩
    · refine ⟨hr.head_isUpper, ?_, fun _ => hnull, ?_, ?_⟩ <;> simp [hnull]
    · refine ⟨hr.head_isUpper, hne, ?_, ?_, ?_⟩
      · intro hmem
        exact (hadmissible .null hmem).elim
      · intro X hX
        exact hadmissible (.nonterminal X) hX
      · intro a ha
        exact hadmissible (.terminal a) ha
  · rintro ⟨hhead, hne, hnull, hnonterminal, hterminal⟩
    refine ⟨hhead, ?_⟩
    by_cases hmem : Symbol.null ∈ r.body
    · exact .inl (hnull hmem)
    · refine .inr ⟨hne, fun s hs => ?_⟩
      cases s with
      | nonterminal X => exact hnonterminal X hs
      | terminal a => exact hterminal a hs
      | null => exact absurd hs hmem

/-- A body that is not the null symbol holds letters only. -/
theorem WellFormed.admissible (hr : r.WellFormed) (hnull : r.isNull = false) :
    ∀ s ∈ r.body, s.Admissible := by
  rcases hr.body with hbody | ⟨-, hadmissible⟩
  · rw [isNull_iff.2 hbody] at hnull
    cases hnull
  · exact hadmissible

/-- A well-formed rule may get another upper-case head. -/
theorem WellFormed.of_body (hq : q.WellFormed) (hhead : r.head.isUpper = true)
    (hbody : r.body = q.body) : r.WellFormed :=
  ⟨hhead, hbody ▸ hq.body⟩

end Rule

/-- A grammar that rule text can hold under an admissible configuration. -/
structure Grammar.WellFormed (g : Grammar) : Prop where
  start_isUpper : g.start.isUpper = true
  isMarker : Config.isMarker g.marker = true
  rules : ∀ r ∈ g.rules, r.WellFormed

/-- The same start symbol and the same marker. -/
structure SameSettings (g h : Grammar) : Prop where
  start : h.start = g.start
  marker : h.marker = g.marker

section Settings

variable {g h k : Grammar}

theorem SameSettings.refl (g : Grammar) : SameSettings g g := ⟨rfl, rfl⟩

theorem SameSettings.trans (hgh : SameSettings g h) (hhk : SameSettings h k) :
    SameSettings g k :=
  ⟨hhk.start.trans hgh.start, hhk.marker.trans hgh.marker⟩

/-- Under the same settings only the rules matter. -/
theorem Grammar.WellFormed.of_rules (hg : g.WellFormed) (hsame : SameSettings g h)
    (hrules : ∀ r ∈ h.rules, r.WellFormed) : h.WellFormed where
  start_isUpper := hsame.start ▸ hg.start_isUpper
  isMarker := hsame.marker ▸ hg.isMarker
  rules := hrules

theorem Grammar.WellFormed.validate (hg : g.WellFormed) {c : Config} (hstart : c.start = g.start)
    (hmarker : c.marker = g.marker) : c.validate = .ok () := by
  rw [Config.validate_eq_ok, hstart, hmarker]
  exact ⟨hg.start_isUpper, hg.isMarker⟩

end Settings

/-! ## What binarization writes -/

theorem isUpper_of_mem_alphabet {c : Char} (h : c ∈ alphabet) : c.isUpper = true := by
  have hall : alphabet.all Char.isUpper = true := by decide
  exact List.all_eq_true.1 hall c h

/-- The rules of links are written with the given names and links. -/
theorem mem_of_mem_linkRules {first X : Char} {names links : List Char} {q : Rule}
    (hq : q ∈ linkRules first names links) (hX : X = q.head ∨ .nonterminal X ∈ q.body) :
    X ∈ first :: names ∨ X ∈ links := by
  induction names generalizing first links with
  | nil => cases links <;> exact absurd hq List.not_mem_nil
  | cons second names ih =>
    cases links with
    | nil => exact absurd hq List.not_mem_nil
    | cons link links =>
      rcases List.mem_append.1 hq with hq | hq
      · rcases ih hq with h | h
        · exact .inl (List.mem_cons_of_mem _ h)
        · exact .inr (List.mem_cons_of_mem _ h)
      · have htail : links.headD second = second ∨ links.headD second ∈ links := by
          cases links <;> simp
        rw [List.mem_singleton.1 hq] at hX
        simp only [pairRule, List.mem_cons, Symbol.nonterminal.injEq, List.not_mem_nil,
          or_false] at hX
        rcases hX with rfl | rfl | rfl
        · exact .inr (List.mem_cons_self ..)
        · exact .inl (List.mem_cons_self ..)
        · rcases htail with h | h
          · rw [h]
            exact .inl (List.mem_cons_of_mem _ (List.mem_cons_self ..))
          · exact .inr (List.mem_cons_of_mem _ h)

namespace Binarized

variable {g : Grammar} {plan : Plan} {t : NameSupply} {X : Char}

/-- The name of a symbol is an old name or a free letter. -/
theorem nameOf_mem (b : Binarized g plan t) {r : Rule} (hr : r ∈ g.rules) {x : Symbol}
    (hx : x ∈ r.namedSymbols) :
    t.nameOf x ∈ g.nonterminals ∨ t.nameOf x ∈ (NameSupply.ofGrammar g).free := by
  cases x with
  | nonterminal Y =>
    have hY := Rule.mem_body_of_mem_namedSymbols hx
    exact .inl (Grammar.mem_nonterminals.2 ⟨r, hr, .inr hY⟩)
  | null => exact absurd hx (b.null_not_mem_namedSymbols hr)
  | terminal a =>
    have hname : t.nameOf (.terminal a) ∈ t.standIns.map Prod.snd :=
      List.mem_map_of_mem (b.standIn_mem hr hx)
    refine .inr (b.names.mem_iff.1 (List.mem_append_right _ ?_))
    exact List.mem_append_left _ hname

/-- What is written for a rule uses old names and free letters. -/
theorem mem_of_mem_encode (b : Binarized g plan t) {p : Rule × List Char} (hp : p ∈ plan) {q : Rule}
    (hq : q ∈ p.1.encode t.nameOf p.2) (hX : X = q.head ∨ .nonterminal X ∈ q.body) :
    X ∈ g.nonterminals ∨ X ∈ (NameSupply.ofGrammar g).free := by
  have hr := b.rule_mem hp
  rcases p.1.short_or_long with hshort | ⟨first, second, rest, hlong⟩
  · rw [Rule.encode_of_short hshort, List.mem_singleton] at hq
    exact .inl (Grammar.mem_nonterminals.2 ⟨p.1, hr, hq ▸ hX⟩)
  · rw [Rule.encode_eq_linkRules hlong] at hq
    rcases mem_of_mem_linkRules hq hX with hname | hlink
    · rw [← List.map_cons, ← Rule.namedSymbols_of_long hlong] at hname
      obtain ⟨x, hx, rfl⟩ := List.mem_map.1 hname
      exact b.nameOf_mem hr hx
    · rcases List.mem_cons.1 hlink with rfl | hlink
      · exact .inl (Grammar.mem_nonterminals.2 ⟨p.1, hr, .inl rfl⟩)
      · have hlinks : X ∈ plan.links := List.mem_flatMap.2 ⟨p, hp, hlink⟩
        exact .inr (b.names.mem_iff.1 (List.mem_append_left _ hlinks))

end Binarized

namespace Grammar

variable {g h : Grammar} {r q : Rule} {X a : Char}

/-- **Binarization uses old nonterminals and free letters only.** -/
theorem mem_nonterminals_binarize (hrun : g.binarize = .ok h) (hX : X ∈ h.nonterminals) :
    X ∈ g.nonterminals ∨ X ∈ (NameSupply.ofGrammar g).free := by
  obtain ⟨plan, t, b, rfl⟩ := binarize_ok hrun
  obtain ⟨q, hq, hX⟩ := mem_nonterminals.1 hX
  rcases List.mem_append.1 (mem_withRules.1 hq) with hq | hq
  · obtain ⟨p, hp, hq⟩ := List.mem_flatMap.1 hq
    exact b.mem_of_mem_encode hp hq hX
  · obtain ⟨e, he, rfl⟩ := List.mem_map.1 hq
    obtain rfl : X = e.2 := by simpa using hX
    refine .inr (b.names.mem_iff.1 (List.mem_append_right _ ?_))
    exact List.mem_append_left _ (List.mem_map_of_mem he)

/-- **Binarization adds no terminals.** -/
theorem mem_terminals_binarize (hrun : g.binarize = .ok h) (ha : a ∈ h.terminals) :
    a ∈ g.terminals := by
  obtain ⟨plan, t, b, rfl⟩ := binarize_ok hrun
  obtain ⟨q, hq, ha⟩ := mem_terminals.1 ha
  rcases List.mem_append.1 (mem_withRules.1 hq) with hq | hq
  · obtain ⟨p, hp, hq⟩ := List.mem_flatMap.1 hq
    rcases Rule.mem_encode hq with ⟨A, B, hpair⟩ | ⟨rfl, -⟩
    · rw [hpair] at ha
      simp [pairRule] at ha
    · exact mem_terminals.2 ⟨p.1, b.rule_mem hp, ha⟩
  · obtain ⟨e, he, rfl⟩ := List.mem_map.1 hq
    obtain rfl : a = e.1 := by simpa using ha
    have hletter : e.1 ∈ t.letters := CharSet.mem_ofList.2 (List.mem_map_of_mem he)
    rw [b.letters, CharSet.mem_ofList, List.mem_flatMap] at hletter
    obtain ⟨r, hr, hnamed⟩ := hletter
    have hbody := Rule.mem_body_of_mem_namedSymbols (Rule.mem_namedLetters.1 hnamed)
    exact mem_terminals.2 ⟨r, hr, hbody⟩

/-! ## The stages -/

theorem WellFormed.isUpper_of_mem_nonterminals (hg : g.WellFormed) (hX : X ∈ g.nonterminals) :
    X.isUpper = true := by
  obtain ⟨r, hr, hX⟩ := mem_nonterminals.1 hX
  obtain ⟨hhead, -, -, hnonterminal, -⟩ := Rule.wellFormed_iff.1 (hg.rules r hr)
  rcases hX with rfl | hX
  · exact hhead
  · exact hnonterminal X hX

theorem WellFormed.isLower_of_mem_terminals (hg : g.WellFormed) (ha : a ∈ g.terminals) :
    a.isLower = true := by
  obtain ⟨r, hr, ha⟩ := mem_terminals.1 ha
  obtain ⟨-, -, -, -, hterminal⟩ := Rule.wellFormed_iff.1 (hg.rules r hr)
  exact hterminal a ha

theorem WellFormed.wellShaped (hg : g.WellFormed) : g.WellShaped := by
  constructor
  · intro r hr
    exact (Rule.wellFormed_iff.1 (hg.rules r hr)).2.1
  · intro r hr
    exact (Rule.wellFormed_iff.1 (hg.rules r hr)).2.2.1

/-- Rules that are chosen from those of a well-formed grammar. -/
theorem WellFormed.withRules (hg : g.WellFormed) {rules : List Rule}
    (hrules : ∀ r ∈ rules, r ∈ g.rules) : (g.withRules rules).WellFormed :=
  hg.of_rules ⟨rfl, rfl⟩ fun r hr => hg.rules r (hrules r (mem_withRules.1 hr))

theorem WellFormed.sorted (hg : g.WellFormed) : g.sorted.WellFormed :=
  hg.of_rules ⟨rfl, rfl⟩ fun r hr => hg.rules r (g.sorted_perm.mem_iff.1 hr)

/-- The symbols of a shortened body come from a body that is more than the null symbol. -/
theorem WellFormed.eliminateNull (hg : g.WellFormed) : g.eliminateNull.WellFormed := by
  refine hg.of_rules ⟨rfl, rfl⟩ fun r hr => ?_
  obtain ⟨hne, q, hq, hnull, hhead, hform⟩ := mem_eliminateNull.1 hr
  have hwf := hg.rules q hq
  refine ⟨hhead ▸ hwf.head_isUpper, .inr ⟨hne, fun s hs => ?_⟩⟩
  exact hwf.admissible hnull s (mem_of_mem_shortened hform s hs)

/-- A head that inherits a body stands in a unit rule itself, unless the rule is its own. -/
theorem WellFormed.eliminateUnits (hg : g.WellFormed) : g.eliminateUnits.WellFormed := by
  refine hg.of_rules ⟨rfl, rfl⟩ fun r hr => ?_
  obtain ⟨-, B, hreach, hB⟩ := mem_eliminateUnits.1 hr
  have hhead : r.head ∈ g.nonterminals := by
    rcases hreach.cases_head with rfl | ⟨C, hstep, -⟩
    · exact mem_nonterminals.2 ⟨r, hB, .inl rfl⟩
    · exact (mem_nonterminals_of_unitStep hstep).1
  exact (hg.rules _ hB).of_body (hg.isUpper_of_mem_nonterminals hhead) rfl

theorem WellFormed.eliminateUseless (hg : g.WellFormed) : g.eliminateUseless.WellFormed :=
  hg.of_rules ⟨rfl, rfl⟩ fun r hr => hg.rules r (mem_eliminateUseless.1 hr).1

/-- Names are upper-case letters, whether they are old or given out by the supply. -/
theorem WellFormed.binarize (hg : g.WellFormed) (hrun : g.binarize = .ok h) : h.WellFormed := by
  obtain ⟨hstart, hmarker, -⟩ := start_binarize hrun
  refine hg.of_rules ⟨hstart, hmarker⟩ fun q hq => ?_
  have hupper : ∀ X, X = q.head ∨ .nonterminal X ∈ q.body → X.isUpper = true := by
    intro X hX
    rcases mem_nonterminals_binarize hrun (mem_nonterminals.2 ⟨q, hq, hX⟩) with hold | hfree
    · exact hg.isUpper_of_mem_nonterminals hold
    · exact isUpper_of_mem_alphabet (NameSupply.mem_free_ofGrammar.1 hfree).1
  have hlower : ∀ a, .terminal a ∈ q.body → a.isLower = true := by
    intro a ha
    exact hg.isLower_of_mem_terminals (mem_terminals_binarize hrun (mem_terminals.2 ⟨q, hq, ha⟩))
  have hshape := (keeps_binarize hg.wellShaped hrun).wellShaped
  exact Rule.wellFormed_iff.2 ⟨hupper q.head (.inl rfl), hshape.body_ne_nil q hq,
    hshape.null_alone q hq, fun X hX => hupper X (.inr hX), hlower⟩

end Grammar

/-! ## Any pass -/

section Passes

variable {g h : Grammar}

theorem Stage.apply_sameSettings {s : Stage} (hrun : s.apply g = .ok h) : SameSettings g h := by
  cases s with
  | null => cases hrun; exact ⟨rfl, rfl⟩
  | unit => cases hrun; exact ⟨rfl, rfl⟩
  | useless => cases hrun; exact ⟨rfl, rfl⟩
  | normal =>
    obtain ⟨hstart, hmarker, -⟩ := Grammar.start_binarize hrun
    exact ⟨hstart, hmarker⟩

/-- **Every stage keeps a grammar well formed.** -/
theorem Stage.apply_wellFormed {s : Stage} (hg : g.WellFormed) (hrun : s.apply g = .ok h) :
    h.WellFormed := by
  cases s with
  | null => cases hrun; exact hg.eliminateNull
  | unit => cases hrun; exact hg.eliminateUnits
  | useless => cases hrun; exact hg.eliminateUseless
  | normal => exact hg.binarize hrun

/-- A relation between grammars that each stage keeps is kept by any run of stages. -/
theorem runStages_induction {R : Grammar → Grammar → Prop} (hrefl : ∀ g, R g g)
    (htrans : ∀ {g h k}, R g h → R h k → R g k)
    (hstage : ∀ {s : Stage} {g h : Grammar}, s.apply g = .ok h → R g h) {stages : List Stage}
    (hrun : runStages stages g = .ok h) : R g h := by
  induction stages generalizing g with
  | nil =>
    cases hrun
    exact hrefl _
  | cons s rest ih =>
    unfold runStages at hrun
    split at hrun
    · cases hrun
    · rename_i k hk
      exact htrans (hstage hk) (ih hrun)

/-- **No pass changes the start symbol or the marker.** -/
theorem Pass.apply_sameSettings {p : Pass} (hrun : p.apply g = .ok h) : SameSettings g h := by
  rw [apply_eq_runStages] at hrun
  exact runStages_induction .refl .trans Stage.apply_sameSettings hrun

/-- **Every pass keeps a grammar well formed**, whatever its stages and their order. -/
theorem Pass.apply_wellFormed {p : Pass} (hg : g.WellFormed) (hrun : p.apply g = .ok h) :
    h.WellFormed := by
  rw [apply_eq_runStages] at hrun
  exact runStages_induction (R := fun g h => g.WellFormed → h.WellFormed) (fun _ => id)
    (fun hgh hhk hg => hhk (hgh hg)) (fun hrun hg => Stage.apply_wellFormed hg hrun) hrun hg

end Passes

end Chomsky
