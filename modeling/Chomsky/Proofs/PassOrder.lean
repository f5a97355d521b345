import Chomsky.Proofs.Normalization

/-!
# Passes in any order

A chain may run the stages in any order, as often as it likes.  On a grammar whose bodies are as
rule text gives them, each stage keeps the non-empty strings of the start symbol, and leaves such a
grammar again.  Only the removal of useless symbols needs more: it takes the null symbol for a dead
end, so it has to come after some null elimination.

* `Pass.stages`, `runStages` — the stages of a pass from left to right, and a run of stages.
* `Grammar.WellShaped` — no empty body, and the null symbol only as a whole body.
* `NullFirst` — every removal of useless symbols comes after some null elimination.

Principal results: `Pass.apply_eq_runStages` — a pass runs its stages; `Stage.apply_keeps` — what
one stage keeps; `runStages_keeps` — what any run of stages keeps; `Chain.derives_apply` — the same
for chains.
-/

namespace Chomsky

/-! ## The stages of a pass -/

/-- Runs stages one after the other, up to the first that fails. -/
def runStages : List Stage → Grammar → Except GrammarError Grammar
  | [], g => .ok g
  | s :: rest, g =>
    match s.apply g with
    | .error e => .error e
    | .ok h => runStages rest h

theorem runStages_append (before after : List Stage) (g : Grammar) :
    runStages (before ++ after) g =
      match runStages before g with
      | .error e => .error e
      | .ok h => runStages after h := by
  induction before generalizing g with
  | nil => rfl
  | cons s before ih =>
    simp only [List.cons_append, runStages]
    cases s.apply g with
    | error e => rfl
    | ok h => exact ih h

namespace Pass

mutual

/-- The stages of a pass, from left to right, however its chains are nested. -/
def stages : Pass → List Stage
  | stage s => [s]
  | chain _ members => allStages members

/-- The stages of a list of passes. -/
def allStages : List Pass → List Stage
  | [] => []
  | p :: ps => p.stages ++ allStages ps

end

mutual

/-- **A pass runs its stages.** -/
theorem apply_eq_runStages (p : Pass) (g : Grammar) : p.apply g = runStages p.stages g := by
  cases p with
  | stage s =>
    simp only [apply, stages, runStages]
    cases s.apply g <;> rfl
  | chain name members =>
    rw [apply, stages]
    exact applyAll_eq_runStages members g

theorem applyAll_eq_runStages (ps : List Pass) (g : Grammar) :
    applyAll ps g = runStages (allStages ps) g := by
  cases ps with
  | nil => rfl
  | cons p ps =>
    rw [applyAll, allStages, runStages_append, apply_eq_runStages p g]
    cases runStages p.stages g with
    | error e => rfl
    | ok h => exact applyAll_eq_runStages ps h

end

end Pass

/-- The stages of a chain, from left to right. -/
def Chain.stages (c : Chain) : List Stage := c.toPass.stages

theorem Chain.apply_eq_runStages (c : Chain) (g : Grammar) : c.apply g = runStages c.stages g :=
  c.toPass.apply_eq_runStages g

/-! ## What one stage keeps -/

/-- Bodies as rule text gives them: none is empty, and the null symbol is a whole body. -/
structure Grammar.WellShaped (g : Grammar) : Prop where
  body_ne_nil : ∀ r ∈ g.rules, r.body ≠ []
  null_alone : ∀ r ∈ g.rules, .null ∈ r.body → r.body = [.null]

/-- No body uses the null symbol. -/
def Grammar.WithoutNull (g : Grammar) : Prop := ∀ r ∈ g.rules, Symbol.null ∉ r.body

/-- What a run of stages keeps of a grammar. -/
structure Keeps (g h : Grammar) : Prop where
  wellShaped : h.WellShaped
  start : h.start = g.start
  derives : ∀ w, w ≠ [] → (Derives h h.start w ↔ Derives g g.start w)

theorem Keeps.refl {g : Grammar} (hg : g.WellShaped) : Keeps g g :=
  ⟨hg, rfl, fun _ _ => Iff.rfl⟩

theorem Keeps.trans {g h k : Grammar} (hgh : Keeps g h) (hhk : Keeps h k) : Keeps g k :=
  ⟨hhk.wellShaped, hhk.start.trans hgh.start,
    fun w hw => (hhk.derives w hw).trans (hgh.derives w hw)⟩

section Stages

variable {g h : Grammar}

/-- A grammar whose bodies all come from another one has the shape of that one. -/
theorem Grammar.WellShaped.of_bodies (hg : g.WellShaped)
    (hbodies : ∀ r ∈ h.rules, ∃ q ∈ g.rules, q.body = r.body) : h.WellShaped where
  body_ne_nil r hr := by
    obtain ⟨q, hq, hbody⟩ := hbodies r hr
    exact hbody ▸ hg.body_ne_nil q hq
  null_alone r hr := by
    obtain ⟨q, hq, hbody⟩ := hbodies r hr
    exact hbody ▸ hg.null_alone q hq

theorem Grammar.WithoutNull.of_bodies (hg : g.WithoutNull)
    (hbodies : ∀ r ∈ h.rules, ∃ q ∈ g.rules, q.body = r.body) : h.WithoutNull := by
  intro r hr
  obtain ⟨q, hq, hbody⟩ := hbodies r hr
  exact hbody ▸ hg q hq

theorem Grammar.withoutNull_eliminateNull (hg : g.WellShaped) : g.eliminateNull.WithoutNull :=
  fun _ => null_not_mem_eliminateNull hg.null_alone

theorem Grammar.body_of_mem_eliminateUnits (r : Rule) (hr : r ∈ g.eliminateUnits.rules) :
    ∃ q ∈ g.rules, q.body = r.body := by
  obtain ⟨-, B, -, hB⟩ := mem_eliminateUnits.1 hr
  exact ⟨⟨B, r.body⟩, hB, rfl⟩

theorem Grammar.body_of_mem_eliminateUseless (r : Rule) (hr : r ∈ g.eliminateUseless.rules) :
    ∃ q ∈ g.rules, q.body = r.body :=
  ⟨r, (mem_eliminateUseless.1 hr).1, rfl⟩

/-- What binarization writes has no null symbol, unless it is a rule of the grammar. -/
theorem Grammar.mem_or_null_not_mem_of_mem_binarize (hrun : g.binarize = .ok h) (r : Rule)
    (hr : r ∈ h.rules) : r ∈ g.rules ∨ r.body ≠ [] ∧ Symbol.null ∉ r.body := by
  rcases mem_binarize hrun hr with ⟨a, b, hpair⟩ | ⟨hrule, -⟩ | ⟨-, a, hterminal⟩
  · rw [hpair]
    exact .inr (by simp [pairRule])
  · exact .inl hrule
  · rw [hterminal]
    exact .inr (by simp)

theorem keeps_eliminateNull (hg : g.WellShaped) : Keeps g g.eliminateNull where
  wellShaped :=
    ⟨fun _ hr => (Grammar.mem_eliminateNull.1 hr).1,
      fun r hr hnull => absurd hnull (g.withoutNull_eliminateNull hg r hr)⟩
  start := rfl
  derives _ hw :=
    (Grammar.generates_eliminateNull_of_null_alone hg.null_alone).trans (and_iff_right hw)

theorem keeps_eliminateUnits (hg : g.WellShaped) : Keeps g g.eliminateUnits where
  wellShaped := hg.of_bodies Grammar.body_of_mem_eliminateUnits
  start := rfl
  derives _ _ := Grammar.generates_eliminateUnits

theorem keeps_eliminateUseless (hg : g.WellShaped) (hnull : g.WithoutNull) :
    Keeps g g.eliminateUseless where
  wellShaped := hg.of_bodies Grammar.body_of_mem_eliminateUseless
  start := rfl
  derives w _ := by
    have hgen := Grammar.generates_eliminateUseless g.start_mem_reachable (w := w)
    rwa [nullFree_eq_self hnull] at hgen

theorem keeps_binarize (hg : g.WellShaped) (hrun : g.binarize = .ok h) : Keeps g h where
  wellShaped := by
    constructor
    · intro r hr
      rcases Grammar.mem_or_null_not_mem_of_mem_binarize hrun r hr with hrule | ⟨hne, -⟩
      · exact hg.body_ne_nil r hrule
      · exact hne
    · intro r hr hmem
      rcases Grammar.mem_or_null_not_mem_of_mem_binarize hrun r hr with hrule | ⟨-, hnull⟩
      · exact hg.null_alone r hrule hmem
      · exact absurd hmem hnull
  start := (Grammar.start_binarize hrun).1
  derives w _ := by
    rw [(Grammar.start_binarize hrun).1]
    exact Grammar.generates_binarize hrun (.inr rfl)

/-- **What one stage keeps.**  The removal of useless symbols needs a grammar without the null
symbol; null elimination gives one, and no stage brings the null symbol back. -/
theorem Stage.apply_keeps {s : Stage} (hg : g.WellShaped) (hnull : s = .useless → g.WithoutNull)
    (hrun : s.apply g = .ok h) : Keeps g h ∧ (s = .null ∨ g.WithoutNull → h.WithoutNull) := by
  cases s with
  | null =>
    cases hrun
    exact ⟨keeps_eliminateNull hg, fun _ => g.withoutNull_eliminateNull hg⟩
  | unit =>
    cases hrun
    refine ⟨keeps_eliminateUnits hg, fun hfree => ?_⟩
    exact (hfree.resolve_left nofun).of_bodies Grammar.body_of_mem_eliminateUnits
  | useless =>
    cases hrun
    refine ⟨keeps_eliminateUseless hg (hnull rfl), fun _ => ?_⟩
    exact (hnull rfl).of_bodies Grammar.body_of_mem_eliminateUseless
  | normal =>
    refine ⟨keeps_binarize hg hrun, fun hfree r hr => ?_⟩
    rcases Grammar.mem_or_null_not_mem_of_mem_binarize hrun r hr with hrule | ⟨-, hfree'⟩
    · exact hfree.resolve_left nofun r hrule
    · exact hfree'

end Stages

/-! ## What any run of stages keeps -/

/-- Every removal of useless symbols comes after some null elimination. -/
def NullFirst (stages : List Stage) : Prop :=
  ∀ before after, stages = before ++ .useless :: after → .null ∈ before

/-- **What any run of stages keeps.**  From the first null elimination on, the grammar is without
the null symbol. -/
theorem runStages_keeps {stages : List Stage} {g h : Grammar} (hg : g.WellShaped)
    (hstages : ∀ before after, stages = before ++ .useless :: after →
      .null ∈ before ∨ g.WithoutNull)
    (hrun : runStages stages g = .ok h) : Keeps g h := by
  induction stages generalizing g with
  | nil =>
    cases hrun
    exact .refl hg
  | cons s rest ih =>
    unfold runStages at hrun
    split at hrun
    · cases hrun
    · rename_i k hstage
      have hnull : s = .useless → g.WithoutNull := by
        rintro rfl
        exact (hstages [] rest rfl).resolve_left List.not_mem_nil
      obtain ⟨hkeeps, hfree⟩ := s.apply_keeps hg hnull hstage
      refine hkeeps.trans (ih hkeeps.wellShaped ?_ hrun)
      rintro before after rfl
      rcases hstages (s :: before) after rfl with hmem | hg'
      · rcases List.mem_cons.1 hmem with rfl | hmem
        · exact .inr (hfree (.inl rfl))
        · exact .inl hmem
      · exact .inr (hfree (.inr hg'))

namespace Chain

/-- **A chain keeps the non-empty strings**, whatever the order and nesting of its passes. -/
theorem derives_apply {c : Chain} {g h : Grammar} {w : List Char} (hg : g.WellShaped)
    (hc : NullFirst c.stages) (hrun : c.apply g = .ok h) (hw : w ≠ []) :
    Derives h h.start w ↔ Derives g g.start w := by
  rw [apply_eq_runStages] at hrun
  have hkeeps := runStages_keeps hg (fun before after hsplit => .inl (hc before after hsplit)) hrun
  exact hkeeps.derives w hw

/-- Binarization first, on a grammar with a null rule and a unit rule, then the other stages, the
first of them inside an inner chain. -/
def reversed : Chain :=
  ofList [.stage .normal, .chain "inner" [.stage .null, .chain "" []], .stage .useless,
    .stage .unit, .stage .normal]

/-- The strings of `a` that end in nothing or in `b`, by rules of every kind. -/
def ending : Grammar where
  rules := [⟨'S', [.terminal 'a', .nonterminal 'S']⟩, ⟨'S', [.null]⟩, ⟨'S', [.nonterminal 'T']⟩,
    ⟨'T', [.terminal 'b']⟩]
  start := 'S'
  marker := '#'

/-- What `reversed` makes of `ending`. -/
def endingReversed : Grammar where
  rules := [pairRule 'S' 'A' 'S', ⟨'S', [.terminal 'a']⟩, ⟨'S', [.terminal 'b']⟩,
    ⟨'T', [.terminal 'b']⟩, ⟨'A', [.terminal 'a']⟩]
  start := 'S'
  marker := '#'

theorem derives_apply_reversed :
    ending.WellShaped ∧ NullFirst reversed.stages ∧ reversed.apply ending = .ok endingReversed ∧
      (Derives endingReversed 'S' ['a', 'b'] ↔ Derives ending 'S' ['a', 'b']) := by
  have hshape : ending.WellShaped := ⟨by decide, by decide⟩
  have hnull : NullFirst reversed.stages := by
    rw [show reversed.stages = [.normal, .null, .useless, .unit, .normal] from rfl]
    rintro (_ | ⟨first, _ | ⟨second, before⟩⟩) after hsplit
    · cases hsplit
    · cases hsplit
    · obtain ⟨-, hsplit⟩ := List.cons.inj hsplit
      obtain ⟨rfl, -⟩ := List.cons.inj hsplit
      exact List.mem_cons_of_mem _ (List.mem_cons_self ..)
  have hrun : reversed.apply ending = .ok endingReversed := by
    rw [apply_eq_runStages]
    rfl
  exact ⟨hshape, hnull, hrun, derives_apply hshape hnull hrun (List.cons_ne_nil _ _)⟩

end Chain

end Chomsky
