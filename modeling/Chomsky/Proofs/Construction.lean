import Chomsky.Grammar.Reader
import Chomsky.Proofs.InPlace
import Chomsky.Proofs.WellFormedness

/-!
# Grammars that calls can build

A grammar record may hold anything.  Rules are checked in one place only, where a single rule is
made; a text is read without that check, and the stages make rules of their own.  All the same no
run of calls gets at a grammar that is not well formed.

* `Builder.Step`, `Builder.run` — the calls on a builder, and a run of them.
* `Operation` — the operations on a grammar; `Operation.apply` — what they give.
* `Operation.carryOut` — an operation on a grammar that is held in place.
* `Obtained` — the grammars at the end of any run: made, read or built, then changed by operations.

Principal results: `Grammar.wellFormed_parse`, `Grammar.wellFormed_read`, `Builder.wellFormed_run` —
where grammars come from; `Operation.apply_wellFormed` — what one operation keeps;
`Obtained.wellFormed` — what any run keeps; `Operation.carryOut_implements` — an operation that
fails has done nothing; `Grammar.operations_preserve` — all of this together.
-/

namespace Chomsky

/-! ## Rule text -/

section Text

variable {marker head : Char} {line p : Text} {rules : List Rule}

theorem Symbol.admissible_ofLetter {c : Char} (h : c.isAlpha = true) : (ofLetter c).Admissible :=
  (admissible_of_ofChar? (ofChar?_eq_some.2 ⟨h, rfl⟩)).1

/-- An alternative spells the null symbol or letters. -/
theorem IsAlternative.wellFormed (hp : IsAlternative marker p) (hhead : head.isUpper = true) :
    Rule.WellFormed ⟨head, spelledBody marker p⟩ := by
  refine ⟨hhead, ?_⟩
  unfold spelledBody
  split
  · exact .inl rfl
  · rename_i hmarker
    obtain ⟨hne, hletters⟩ := hp.resolve_left hmarker
    refine .inr ⟨by simpa using hne, fun s hs => ?_⟩
    obtain ⟨c, hc, rfl⟩ := List.mem_map.1 hs
    exact Symbol.admissible_ofLetter (hletters c hc)

theorem SpellsLine.wellFormed (h : SpellsLine marker line rules) : ∀ r ∈ rules, r.WellFormed := by
  intro r hr
  cases h with
  | blank => cases hr
  | comment text => cases hr
  | rules hline =>
    obtain ⟨p, hp, rfl⟩ := List.mem_map.1 hr
    exact (hline.alternatives p hp).wellFormed hline.head_isUpper

end Text

namespace Grammar

variable {c : Config} {g h : Grammar} {t : Text} {head start : Char} {bytes : Text.Bytes}

theorem wellFormed_empty (hc : c.validate = .ok ()) : (empty c).WellFormed := by
  obtain ⟨hstart, hmarker⟩ := Config.validate_eq_ok.1 hc
  exact ⟨hstart, hmarker, fun r hr => absurd hr List.not_mem_nil⟩

theorem wellFormed_new (hnew : new start = .ok g) : g.WellFormed := by
  simp only [new] at hnew
  split at hnew
  · cases hnew
  · rename_i hc
    cases hnew
    exact wellFormed_empty hc

/-- **What a text spells is well formed**, line by line. -/
theorem wellFormed_parse (hparse : parse c t = .ok g) : g.WellFormed := by
  have hc : c.validate = .ok () := by
    unfold parse at hparse
    split at hparse
    · cases hparse
    · assumption
  obtain ⟨hstart, hmarker, parts, hparts, hrules⟩ := (parse_eq_ok hc).1 hparse
  refine (wellFormed_empty hc).of_rules ⟨hstart, hmarker⟩ fun r hr => ?_
  rw [hrules, List.mem_flatten] at hr
  obtain ⟨rules, hmem, hr⟩ := hr
  obtain ⟨i, hi, rfl⟩ := List.mem_iff_getElem.1 hmem
  obtain ⟨hlength, hline⟩ := List.forall₂_iff_get.1 hparts
  exact (hline i (hlength ▸ hi) hi).wellFormed r hr

theorem wellFormed_read (hread : read c bytes = .ok g) : g.WellFormed := by
  unfold read at hread
  split at hread
  · cases hread
  · exact wellFormed_parse hread

/-! ## One rule more -/

theorem addRule_sameSettings (hadd : g.addRule head t = .ok h) : SameSettings g h := by
  obtain ⟨body, -, -, rfl⟩ := addRule_eq_ok hadd
  exact ⟨rfl, rfl⟩

theorem WellFormed.addRule (hg : g.WellFormed) (hadd : g.addRule head t = .ok h) :
    h.WellFormed := by
  refine hg.of_rules (addRule_sameSettings hadd) fun r hr => ?_
  obtain ⟨body, hbody, hhead, rfl⟩ := addRule_eq_ok hadd
  rcases List.mem_append.1 hr with hr | hr
  · exact hg.rules r hr
  · obtain ⟨halternative, rfl⟩ := (bodyOfText_eq_ok hg.isMarker).1 hbody
    rw [List.mem_singleton.1 hr]
    exact halternative.wellFormed hhead

end Grammar

/-! ## Builders -/

namespace Builder

variable {b : Builder} {c : Config} {g : Grammar} {e : GrammarError} {head start : Char} {t : Text}
  {ts before after : List Text}

/-- A call on a builder. -/
inductive Step where
  | configure (c : Config)
  | addRules (head : Char) (alternatives : List Text)

def step (b : Builder) : Step → Builder
  | .configure c => b.configure c
  | .addRules head alternatives => b.addRules head alternatives

/-- A builder for a start symbol, after some calls. -/
def run (start : Char) (steps : List Step) : Builder := steps.foldl step (new start)

/-- After a fault nothing is added. -/
theorem addRules_of_fault (hfault : b.fault = some e) (head : Char) (ts : List Text) :
    b.addRules head ts = b := by
  cases ts <;> simp [addRules, hfault]

theorem addRules_append (b : Builder) (head : Char) (before after : List Text) :
    b.addRules head (before ++ after) = (b.addRules head before).addRules head after := by
  induction before generalizing b with
  | nil => rw [List.nil_append, addRules]
  | cons t before ih =>
    rw [List.cons_append, addRules, addRules]
    split
    · rename_i hfault
      rw [addRules_of_fault hfault]
    · split
      · rw [addRules_of_fault rfl]
      · exact ih _

/-- What a fault keeps, and what a rule keeps that is added, all alternatives keep. -/
theorem addRules_induction {P : Builder → Prop} (hb : P b)
    (hfault : ∀ b e, P b → P { b with fault := some e })
    (hadd : ∀ b t g, b.fault = none → b.grammar.addRule head t = .ok g → P b →
      P { b with grammar := g }) : P (b.addRules head ts) := by
  induction ts generalizing b with
  | nil => rwa [addRules]
  | cons t ts ih =>
    rw [addRules]
    split
    · exact hb
    · rename_i hnone
      split
      · exact hfault b _ hb
      · rename_i g hg
        exact ih (hadd b t g hnone hg hb)

theorem addRules_sameSettings : SameSettings b.grammar (b.addRules head ts).grammar := by
  refine addRules_induction (P := fun b' => SameSettings b.grammar b'.grammar) (.refl _)
    (fun b' e hb' => hb') fun b' t g _ hadd hb' => ?_
  exact hb'.trans (Grammar.addRule_sameSettings hadd)

/-- An alternative that is refused leaves the grammar with the rules of those before it. -/
theorem addRules_of_error (hadd : (b.addRules head before).grammar.addRule head t = .error e) :
    (b.addRules head (before ++ t :: after)).grammar = (b.addRules head before).grammar := by
  rw [addRules_append, addRules]
  split
  · rfl
  · rw [hadd]

theorem configure_of_error (hc : c.validate = .error e) : (b.configure c).grammar = b.grammar := by
  rw [configure, hc]

/-- As long as no fault was met the grammar under construction is well formed. -/
def Sound (b : Builder) : Prop := b.fault = none → b.grammar.WellFormed

theorem sound_new (start : Char) : (new start).Sound := by
  simp only [new]
  split
  · exact fun hfault => nomatch hfault
  · rename_i hc
    exact fun _ => Grammar.wellFormed_empty hc

theorem Sound.configure (hb : b.Sound) : (b.configure c).Sound := by
  intro hfault
  unfold Builder.configure at hfault ⊢
  split at hfault
  · simp at hfault
  · rename_i hc
    obtain ⟨hstart, hmarker⟩ := Config.validate_eq_ok.1 hc
    exact ⟨hstart, hmarker, (hb hfault).rules⟩

theorem Sound.addRules (hb : b.Sound) : (b.addRules head ts).Sound := by
  refine addRules_induction hb (fun b e _ hfault => ?_) fun b t g hnone hadd hb _ => ?_
  · cases hfault
  · exact (hb hnone).addRule hadd

theorem sound_run (start : Char) (steps : List Step) : (run start steps).Sound := by
  refine List.foldlRecOn steps step (sound_new start) fun b hb s _ => ?_
  cases s with
  | configure c => exact hb.configure
  | addRules head ts => exact hb.addRules

/-- **What a builder builds is well formed.** -/
theorem wellFormed_run {steps : List Step} (hbuild : (run start steps).build = .ok g) :
    g.WellFormed := by
  unfold build at hbuild
  split at hbuild
  · cases hbuild
  · rename_i hfault
    cases hbuild
    exact sound_run start steps hfault

end Builder

/-! ## Operations -/

/-- The operations on a grammar. -/
inductive Operation where
  | addRule (head : Char) (t : Text)
  | pass (p : Pass)
  | normalize
  | sorted
  | withRules (rules : List Rule)

namespace Operation

variable {op : Operation} {g h : Grammar}

/-- What an operation gives. -/
def apply : Operation → Grammar → Except GrammarError Grammar
  | addRule head t, g => g.addRule head t
  | pass p, g => p.apply g
  | normalize, g => g.normalize
  | sorted, g => .ok g.sorted
  | withRules rules, g => .ok (g.withRules rules)

/-- Rules are chosen among those that the grammar has. -/
def ChoosesFrom (g : Grammar) : Operation → Prop
  | withRules rules => ∀ r ∈ rules, r ∈ g.rules
  | _ => True

/-- An operation on the grammar that is held. -/
def carryOut : Operation → InPlace Grammar Unit
  | addRule head t => Grammar.addRuleInPlace head t
  | op => .replaceBy op.apply

/-- **An operation that is carried out in place gives what it gives elsewhere, and has done nothing
when it fails.** -/
theorem carryOut_implements (op : Operation) :
    op.carryOut.Implements fun g => (op.apply g).map ((), ·) := by
  cases op with
  | addRule head t => exact Grammar.addRuleInPlace_implements head t
  | pass p => exact InPlace.replaceBy_implements (pass p).apply
  | normalize => exact InPlace.replaceBy_implements normalize.apply
  | sorted => exact InPlace.replaceBy_implements sorted.apply
  | withRules rules => exact InPlace.replaceBy_implements (withRules rules).apply

/-- **No operation changes the start symbol or the marker.** -/
theorem apply_sameSettings (hrun : op.apply g = .ok h) : SameSettings g h := by
  cases op with
  | addRule head t => exact Grammar.addRule_sameSettings hrun
  | pass p => exact Pass.apply_sameSettings hrun
  | normalize => exact Pass.apply_sameSettings hrun
  | sorted => cases hrun; exact ⟨rfl, rfl⟩
  | withRules rules => cases hrun; exact ⟨rfl, rfl⟩

/-- **Every operation keeps a grammar well formed.** -/
theorem apply_wellFormed (hg : g.WellFormed) (hchoice : op.ChoosesFrom g)
    (hrun : op.apply g = .ok h) : h.WellFormed := by
  cases op with
  | addRule head t => exact hg.addRule hrun
  | pass p => exact Pass.apply_wellFormed hg hrun
  | normalize => exact Pass.apply_wellFormed hg hrun
  | sorted => cases hrun; exact hg.sorted
  | withRules rules => cases hrun; exact hg.withRules hchoice

end Operation

/-- The grammars at the end of any run of calls: one is made, read or built, and operations change
it. -/
inductive Obtained : Grammar → Prop where
  | new {start : Char} {g : Grammar} : Grammar.new start = .ok g → Obtained g
  | default : Obtained (Grammar.empty {})
  | parse {c : Config} {t : Text} {g : Grammar} : Grammar.parse c t = .ok g → Obtained g
  | read {c : Config} {bytes : Text.Bytes} {g : Grammar} :
      Grammar.read c bytes = .ok g → Obtained g
  | build {start : Char} {steps : List Builder.Step} {g : Grammar} :
      (Builder.run start steps).build = .ok g → Obtained g
  | operate {g h : Grammar} (op : Operation) :
      Obtained g → op.ChoosesFrom g → op.apply g = .ok h → Obtained h

/-- **No run of calls gets at a grammar that is not well formed.** -/
theorem Obtained.wellFormed {g : Grammar} (hg : Obtained g) : g.WellFormed := by
  induction hg with
  | new hnew => exact Grammar.wellFormed_new hnew
  | default => exact Grammar.wellFormed_empty rfl
  | parse hparse => exact Grammar.wellFormed_parse hparse
  | read hread => exact Grammar.wellFormed_read hread
  | build hbuild => exact Builder.wellFormed_run hbuild
  | operate op _ hchoice hrun ih => exact Operation.apply_wellFormed ih hchoice hrun

namespace Grammar

/-- **What every run of calls keeps.**  All grammars that calls get at are well formed; only the
configuration of a builder changes a start symbol or a marker; an operation that fails, a
configuration that is refused and an alternative that is refused leave the grammar as it was. -/
theorem operations_preserve :
    (∀ g, Obtained g → g.WellFormed) ∧
      (∀ (op : Operation) (g h : Grammar), op.apply g = .ok h → SameSettings g h) ∧
        (∀ (b : Builder) (head : Char) (ts : List Text),
          SameSettings b.grammar (b.addRules head ts).grammar) ∧
        (∀ (op : Operation) (g h : Grammar) (e : GrammarError),
          op.carryOut.call g = (.error e, h) → h = g ∧ op.apply g = .error e) ∧
        (∀ (op : Operation) (g h : Grammar),
          op.carryOut.call g = (.ok (), h) → op.apply g = .ok h) ∧
        (∀ (b : Builder) (c : Config) (e : GrammarError),
          c.validate = .error e → (b.configure c).grammar = b.grammar) ∧
        ∀ (b : Builder) (head : Char) (before : List Text) (t : Text) (after : List Text)
          (e : GrammarError), (b.addRules head before).grammar.addRule head t = .error e →
            (b.addRules head (before ++ t :: after)).grammar =
              (b.addRules head before).grammar := by
  refine ⟨fun g => Obtained.wellFormed, fun op g h => Operation.apply_sameSettings,
    fun b head ts => Builder.addRules_sameSettings, ?_, ?_,
    fun b c e => Builder.configure_of_error,
    fun b head before t after e => Builder.addRules_of_error⟩
  · intro op g h e hcall
    obtain ⟨hsame, hrun⟩ := op.carryOut_implements.eq_of_error hcall
    refine ⟨hsame, ?_⟩
    cases happly : op.apply g with
    | error e' => simpa [happly, Except.map] using hrun
    | ok k => simp [happly, Except.map] at hrun
  · intro op g h hcall
    have hrun := op.carryOut_implements.eq_of_ok hcall
    cases happly : op.apply g with
    | error e => simp [happly, Except.map] at hrun
    | ok k => simpa [happly, Except.map] using hrun

/-- The normal form of a grammar for equally many `a` and `b`. -/
def nested : Grammar where
  rules := [⟨'C', [.nonterminal 'T', .nonterminal 'B']⟩,
    ⟨'T', [.nonterminal 'A', .nonterminal 'C']⟩,
    ⟨'T', [.nonterminal 'A', .nonterminal 'B']⟩, ⟨'A', [.terminal 'a']⟩, ⟨'B', [.terminal 'b']⟩]
  start := 'T'
  marker := '#'

/-- It is built, given a rule more, and normalized; a rule that cannot be read does not change
it. -/
theorem operations_preserve_nested :
    Obtained nested ∧ nested.WellFormed ∧
      ∃ h, (Operation.addRule 'T' ['a', '#']).carryOut.call nested =
          (.error (.malformedRule 0 (.mixedMarker ['a', '#'])), h) ∧ h = nested := by
  obtain ⟨hwellFormed, -, -, hfailed, -⟩ := operations_preserve
  have hbuild : (Builder.run 'S' [.configure ⟨'T', '#', false⟩,
      .addRules 'T' [['a', 'T', 'b'], ['#']]]).build =
        .ok ⟨[⟨'T', [.terminal 'a', .nonterminal 'T', .terminal 'b']⟩, ⟨'T', [.null]⟩], 'T', '#'⟩ :=
    rfl
  have hgrown := (Obtained.build hbuild).operate (.addRule 'U' ['T', 'T']) trivial rfl
  have hnested : Obtained nested := hgrown.operate .normalize trivial rfl
  have hcall : (Operation.addRule 'T' ['a', '#']).carryOut.call nested =
      (.error (.malformedRule 0 (.mixedMarker ['a', '#'])), nested) := rfl
  exact ⟨hnested, hwellFormed nested hnested, nested, hcall, (hfailed _ _ _ _ hcall).1⟩

end Grammar

end Chomsky
