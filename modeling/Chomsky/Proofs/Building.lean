import Chomsky.Proofs.Construction

/-!
# Building is calling, up to the first failure

A builder puts off its errors: its steps may follow each other whatever has happened, and only
`build` tells what went wrong.  The same can be said with calls on a grammar that is held in place,
each of which fails at once: take a configuration over, add one alternative.  The builder gives what
these calls give when they are made in order and the first failure ends them.  A step that comes
after it cannot make up for it, nor can it put another error in its place.

* `Builder.Call`, `Builder.calls` — the calls that the steps stand for.
* `Builder.carryOutAll` — calls in order, up to the first that fails.
* `Builder.Alternative`, `Builder.alternatives` — the alternatives with the marker in force at each.
* `Builder.inForce` — the configuration that the last steps leave.

Principal results: `Builder.run_agrees` — the builder after some steps, against the calls;
`Builder.call_carryOutAll_eq_error` — what the first failure is, and that it changes nothing;
`Builder.call_stepCalls_eq_ok` — what the calls make of a grammar when none fails;
`Builder.build_first_fault` — all of this.
-/

namespace Chomsky

/-! ## Adding one alternative -/

section AddRule

variable {g h : Grammar} {head : Char} {t : Text} {body : List Symbol} {e : GrammarError}

theorem Rule.make_of_wellFormed (h : Rule.WellFormed ⟨head, body⟩) :
    Rule.make head body = .ok ⟨head, body⟩ := by
  obtain ⟨hhead, hne, hnull, -, -⟩ := Rule.wellFormed_iff.1 h
  exact Rule.make_eq_ok.2 ⟨rfl, hhead, hne, hnull⟩

/-- **An alternative is added when it and the head are admissible**, as the rule that it spells. -/
theorem Grammar.addRule_eq_ok_iff (hmarker : Config.isMarker g.marker = true) :
    g.addRule head t = .ok h ↔
      (head.isUpper = true ∧ IsAlternative g.marker t) ∧
        h = { g with rules := g.rules ++ [⟨head, spelledBody g.marker t⟩] } := by
  constructor
  · intro hadd
    obtain ⟨body, hbody, hhead, rfl⟩ := Grammar.addRule_eq_ok hadd
    obtain ⟨halternative, rfl⟩ := (bodyOfText_eq_ok hmarker).1 hbody
    exact ⟨⟨hhead, halternative⟩, rfl⟩
  · rintro ⟨⟨hhead, halternative⟩, rfl⟩
    have hbody := (bodyOfText_eq_ok hmarker).2 ⟨halternative, rfl⟩
    have hmake := Rule.make_of_wellFormed (halternative.wellFormed hhead)
    rw [Grammar.addRule, hbody]
    simp only [hmake]

end AddRule

namespace Builder

/-! ## Calls -/

/-- A call on a grammar that is held in place. -/
inductive Call where
  /-- Takes the start symbol and the marker of a configuration over, if it is admissible. -/
  | configure (c : Config)
  /-- Adds one alternative, read with the marker of the grammar. -/
  | addRule (head : Char) (t : Text)

/-- What a call gives. -/
def Call.apply : Call → Grammar → Except GrammarError Grammar
  | configure c, g =>
    match c.validate with
    | .error e => .error e
    | .ok () => .ok { g with start := c.start, marker := c.marker }
  | addRule head t, g => g.addRule head t

/-- The call on the grammar that is held. -/
def Call.carryOut : Call → InPlace Grammar Unit
  | configure c => do
    match c.validate with
    | .error e => throw e
    | .ok () =>
      modify fun g => { g with start := c.start }
      modify fun g => { g with marker := c.marker }
  | addRule head t => Grammar.addRuleInPlace head t

/-- Calls in their order, up to the first that fails. -/
def applyAll : List Call → Grammar → Except GrammarError Grammar
  | [], g => .ok g
  | c :: cs, g =>
    match c.apply g with
    | .error e => .error e
    | .ok h => applyAll cs h

/-- The calls that a step stands for: one for each alternative. -/
def Step.calls : Step → List Call
  | configure c => [.configure c]
  | addRules head alternatives => alternatives.map (.addRule head)

/-- The calls that a builder stands for.  The start symbol is checked first, with the usual
marker. -/
def calls (start : Char) (steps : List Step) : List Call :=
  .configure { start } :: steps.flatMap Step.calls

section Calls

variable {call : Call} {cs ds : List Call} {g h : Grammar} {e : GrammarError}

/-- **A call that fails has changed nothing.** -/
theorem Call.carryOut_implements (call : Call) :
    call.carryOut.Implements fun g => (call.apply g).map ((), ·) := by
  cases call with
  | configure c =>
    intro g
    unfold Call.carryOut Call.apply
    cases hc : c.validate <;> simp [hc, Except.map]
  | addRule head t => exact Grammar.addRuleInPlace_implements head t

theorem Call.carryOut_call_eq_error :
    call.carryOut.call g = (.error e, g) ↔ call.apply g = .error e := by
  rw [call.carryOut_implements g]
  cases happly : call.apply g <;> simp [happly, Except.map]

theorem applyAll_append :
    applyAll (cs ++ ds) g =
      match applyAll cs g with
      | .error e => .error e
      | .ok h => applyAll ds h := by
  induction cs generalizing g with
  | nil => rfl
  | cons c cs ih =>
    rw [List.cons_append, applyAll, applyAll]
    cases c.apply g with
    | error e => rfl
    | ok h => exact ih

/-- **Calls fail with the error of one call**, after the calls before it have been made. -/
theorem applyAll_eq_error :
    applyAll cs g = .error e ↔
      ∃ (before : List Call) (call : Call) (after : List Call) (h : Grammar),
        cs = before ++ call :: after ∧ applyAll before g = .ok h ∧ call.apply h = .error e := by
  constructor
  · intro hfail
    induction cs generalizing g with
    | nil => cases hfail
    | cons c cs ih =>
      rw [applyAll] at hfail
      cases hc : c.apply g with
      | error e' =>
        rw [hc] at hfail
        exact ⟨[], c, cs, g, rfl, rfl, hc.trans hfail⟩
      | ok k =>
        rw [hc] at hfail
        obtain ⟨before, call, after, h, rfl, hbefore, hcall⟩ := ih hfail
        exact ⟨c :: before, call, after, h, rfl, by rw [applyAll, hc]; exact hbefore, hcall⟩
  · rintro ⟨before, call, after, h, rfl, hbefore, hcall⟩
    rw [applyAll_append, hbefore]
    simp only [applyAll, hcall]

end Calls

/-! ## Steps and calls -/

section Steps

variable {b : Builder} {e : GrammarError} {s : Step} {steps more : List Step} {start head : Char}
  {ts : List Text} {g : Grammar}

/-- A builder stands where some calls have got to: at a grammar, or at an error. -/
def Agrees (b : Builder) : Except GrammarError Grammar → Prop
  | .error e => b.fault = some e
  | .ok g => b = ⟨g, none⟩

theorem Agrees.build {r : Except GrammarError Grammar} (h : b.Agrees r) : b.build = r := by
  unfold Builder.build
  cases r with
  | error e =>
    have hfault : b.fault = some e := h
    rw [hfault]
  | ok g =>
    obtain rfl : b = ⟨g, none⟩ := h
    rfl

theorem build_eq_error : b.build = .error e ↔ b.fault = some e := by
  unfold Builder.build
  cases b.fault <;> simp

/-- **No step takes a fault back or puts another one in its place.** -/
theorem fault_step (hfault : b.fault = some e) (s : Step) : (b.step s).fault = some e := by
  cases s with
  | configure c =>
    show (b.configure c).fault = some e
    unfold Builder.configure
    split
    · simp [hfault]
    · exact hfault
  | addRules head ts =>
    show (b.addRules head ts).fault = some e
    rw [addRules_of_fault hfault]
    exact hfault

theorem fault_steps (hfault : b.fault = some e) (steps : List Step) :
    (steps.foldl step b).fault = some e := by
  induction steps generalizing b with
  | nil => exact hfault
  | cons s steps ih => exact ih (fault_step hfault s)

theorem addRules_agrees (g : Grammar) (head : Char) (ts : List Text) :
    (addRules ⟨g, none⟩ head ts).Agrees (applyAll (ts.map (.addRule head)) g) := by
  induction ts generalizing g with
  | nil => exact rfl
  | cons t ts ih =>
    rw [addRules, List.map_cons, applyAll, Call.apply]
    cases g.addRule head t with
    | error e => rfl
    | ok h => exact ih h

/-- One step does what its calls do. -/
theorem step_agrees (g : Grammar) (s : Step) : (step ⟨g, none⟩ s).Agrees (applyAll s.calls g) := by
  cases s with
  | configure c =>
    show (configure ⟨g, none⟩ c).Agrees (applyAll [.configure c] g)
    rw [configure, applyAll, Call.apply]
    cases c.validate <;> rfl
  | addRules head ts => exact addRules_agrees g head ts

/-- **A run does what its calls do**, from any state without a fault. -/
theorem steps_agree (g : Grammar) (steps : List Step) :
    (steps.foldl step ⟨g, none⟩).Agrees (applyAll (steps.flatMap Step.calls) g) := by
  induction steps generalizing g with
  | nil => exact rfl
  | cons s steps ih =>
    rw [List.foldl_cons, List.flatMap_cons, applyAll_append]
    have hstep := step_agrees g s
    cases happly : applyAll s.calls g with
    | error e =>
      -- the calls end here, while the steps go on
      rw [happly] at hstep
      exact fault_steps hstep steps
    | ok h =>
      rw [happly] at hstep
      have heq : step ⟨g, none⟩ s = ⟨h, none⟩ := hstep
      rw [heq]
      exact ih h

/-- After an error it does not matter what follows. -/
theorem build_run_append (hfault : (run start steps).build = .error e) (more : List Step) :
    (run start (steps ++ more)).build = .error e := by
  have hrun : run start (steps ++ more) = more.foldl step (run start steps) := List.foldl_append
  rw [hrun]
  exact build_eq_error.2 (fault_steps (build_eq_error.1 hfault) more)

/-- **A builder is where its calls have got to.** -/
theorem run_agrees (start : Char) (steps : List Step) :
    (run start steps).Agrees (applyAll (calls start steps) (Grammar.empty { start })) := by
  unfold run calls
  rw [applyAll, Call.apply, new]
  cases hc : Config.validate { start } with
  | error e => exact fault_steps rfl steps
  | ok => exact steps_agree _ steps

end Steps

/-! ## What is built when nothing fails -/

/-- An alternative of a rule for a head, with the marker in force where it is added. -/
structure Alternative where
  marker : Char
  head : Char
  text : Text
  deriving DecidableEq, Repr

namespace Alternative

/-- The head is an upper-case letter, and the text is the marker alone or one or more letters. -/
def Admissible (a : Alternative) : Prop := a.head.isUpper = true ∧ IsAlternative a.marker a.text

instance : DecidablePred Admissible := fun a =>
  inferInstanceAs (Decidable (a.head.isUpper = true ∧ IsAlternative a.marker a.text))

/-- The rule that the alternative spells. -/
def rule (a : Alternative) : Rule := ⟨a.head, spelledBody a.marker a.text⟩

end Alternative

/-- The configuration that a step takes over, if it is admissible. -/
def Step.config? : Step → Option Config
  | configure c => some c
  | addRules .. => none

/-- The configurations of the steps. -/
def configs (steps : List Step) : List Config := steps.filterMap Step.config?

/-- The configuration of the last step that has one. -/
def inForce (c : Config) (steps : List Step) : Config := (configs steps).getLastD c

/-- The alternatives of the steps, from a marker that is in force before them. -/
def alternatives : Char → List Step → List Alternative
  | _, [] => []
  | _, .configure c :: steps => alternatives c.marker steps
  | marker, .addRules head ts :: steps =>
    ts.map (⟨marker, head, ·⟩) ++ alternatives marker steps

section Success

variable {c : Config} {g h : Grammar} {head start : Char} {ts : List Text} {steps : List Step}
  {rules : List Rule}

theorem applyAll_addRules_eq_ok (hmarker : Config.isMarker g.marker = true) :
    applyAll (ts.map (.addRule head)) g = .ok h ↔
      (∀ a ∈ ts.map (Alternative.mk g.marker head), a.Admissible) ∧
        h = { g with
          rules := g.rules ++ (ts.map (Alternative.mk g.marker head)).map Alternative.rule } := by
  induction ts generalizing g with
  | nil => simp [applyAll, eq_comm]
  | cons t ts ih =>
    rw [List.map_cons, applyAll, Call.apply, List.map_cons, List.forall_mem_cons]
    cases hadd : g.addRule head t with
    | error e =>
      have hno : ¬ Alternative.Admissible ⟨g.marker, head, t⟩ := fun ha => by
        simp [(Grammar.addRule_eq_ok_iff hmarker).2 ⟨ha, rfl⟩] at hadd
      simp [hno]
    | ok k =>
      obtain ⟨ha, rfl⟩ := (Grammar.addRule_eq_ok_iff hmarker).1 hadd
      have ha : Alternative.Admissible ⟨g.marker, head, t⟩ := ha
      refine (ih (g := { g with rules := g.rules ++ [Alternative.rule ⟨g.marker, head, t⟩] })
        hmarker).trans ?_
      simp only [ha, true_and, List.map_cons, List.append_assoc, List.singleton_append]

/-- **The steps give a grammar when all configurations and alternatives are admissible**: the one
with the rules that the alternatives spell, under the last configuration. -/
theorem applyAll_steps_eq_ok (hmarker : Config.isMarker c.marker = true) :
    applyAll (steps.flatMap Step.calls) ⟨rules, c.start, c.marker⟩ = .ok h ↔
      (∀ d ∈ configs steps, d.validate = .ok ()) ∧
        (∀ a ∈ alternatives c.marker steps, a.Admissible) ∧
        h = ⟨rules ++ (alternatives c.marker steps).map Alternative.rule,
          (inForce c steps).start, (inForce c steps).marker⟩ := by
  induction steps generalizing c rules with
  | nil => simp [applyAll, configs, alternatives, inForce, eq_comm]
  | cons s steps ih =>
    rw [List.flatMap_cons, applyAll_append]
    cases s with
    | configure d =>
      have hconfigs : configs (.configure d :: steps) = d :: configs steps := rfl
      have hforce : inForce c (.configure d :: steps) = inForce d steps := List.getLastD_cons ..
      rw [hconfigs, hforce, List.forall_mem_cons, alternatives, Step.calls, applyAll, Call.apply]
      cases hd : d.validate with
      | error e => simp
      | ok =>
        simp only [applyAll, true_and]
        exact ih (Config.validate_eq_ok.1 hd).2
    | addRules head ts =>
      have hconfigs : configs (.addRules head ts :: steps) = configs steps := rfl
      have hforce : inForce c (.addRules head ts :: steps) = inForce c steps := rfl
      rw [hconfigs, hforce, alternatives, List.forall_mem_append, Step.calls]
      cases happly : applyAll (ts.map (.addRule head)) ⟨rules, c.start, c.marker⟩ with
      | error e =>
        have hno : ¬ ∀ a ∈ ts.map (Alternative.mk c.marker head), a.Admissible := fun ha => by
          have hok := (applyAll_addRules_eq_ok (g := ⟨rules, c.start, c.marker⟩) hmarker).2
            ⟨ha, rfl⟩
          cases happly.symm.trans hok
        simp only [hno, false_and, and_false, reduceCtorEq]
      | ok k =>
        obtain ⟨ha, rfl⟩ :=
          (applyAll_addRules_eq_ok (g := ⟨rules, c.start, c.marker⟩) hmarker).1 happly
        refine ih hmarker |>.trans ?_
        simp only [List.map_append, List.append_assoc]
        exact and_congr_right fun _ => by rw [and_iff_right ha]

/-- The calls that a builder stands for are those of its steps, after a step for its start
symbol. -/
theorem applyAll_calls_eq_ok :
    applyAll (calls start steps) (Grammar.empty { start }) = .ok g ↔
      (∀ c ∈ { start } :: configs steps, c.validate = .ok ()) ∧
        (∀ a ∈ alternatives (Config.marker { start }) steps, a.Admissible) ∧
        g = ⟨(alternatives (Config.marker { start }) steps).map Alternative.rule,
          (inForce { start } steps).start, (inForce { start } steps).marker⟩ := by
  have hforce : inForce { start } (.configure { start } :: steps) = inForce { start } steps :=
    List.getLastD_cons ..
  have hmarker : Config.isMarker (Config.marker { start }) = true := rfl
  show applyAll ((Step.configure { start } :: steps).flatMap Step.calls)
    ⟨[], Config.start { start }, Config.marker { start }⟩ = .ok g ↔ _
  rw [applyAll_steps_eq_ok hmarker, hforce]
  exact Iff.rfl

end Success

/-- **What is built is settled by the first failure.**  A builder gives what the calls give that its
steps stand for, made in order on a grammar without rules.  So it gives the error of the first call
that fails, which leaves the grammar as the calls before it have made it; when none fails, the rules
that all alternatives spell, each by the marker in force where it stands, under the last
configuration; and after an error no step changes what it gives. -/
theorem build_first_fault (start : Char) (steps : List Step) :
    (run start steps).build = applyAll (calls start steps) (Grammar.empty { start }) ∧
      (∀ e, (run start steps).build = .error e ↔
        ∃ (before : List Call) (call : Call) (after : List Call) (g : Grammar),
          calls start steps = before ++ call :: after ∧
          applyAll before (Grammar.empty { start }) = .ok g ∧
          call.carryOut.call g = (.error e, g)) ∧
      (∀ g, (run start steps).build = .ok g ↔
        (∀ c ∈ { start } :: configs steps, c.validate = .ok ()) ∧
          (∀ a ∈ alternatives (Config.marker { start }) steps, a.Admissible) ∧
          g = ⟨(alternatives (Config.marker { start }) steps).map Alternative.rule,
            (inForce { start } steps).start, (inForce { start } steps).marker⟩) ∧
      ∀ e more, (run start steps).build = .error e →
        (run start (steps ++ more)).build = .error e := by
  have hbuild := (run_agrees start steps).build
  refine ⟨hbuild, fun e => ?_, fun g => ?_, fun e more hfault => build_run_append hfault more⟩
  · simp only [hbuild, applyAll_eq_error, Call.carryOut_call_eq_error]
  · rw [hbuild]
    exact applyAll_calls_eq_ok

/-- Steps with good and bad alternatives: the marker is changed between them, so what is admissible
in one step is not in the next one. -/
def unsettled : List Step :=
  [.configure ⟨'T', '#', true⟩, .addRules 'T' [['a', 'T'], ['#']], .configure ⟨'U', '!', false⟩,
    .addRules 'U' [['!'], ['b', '#'], []]]

/-- The first fault is the sign that was the marker before.  A start symbol that is refused comes
before it, and neither more bad alternatives nor a good configuration after it matter. -/
theorem build_first_fault_unsettled :
    (run 'S' unsettled).build = .error (.malformedRule 0 (.notSymbol '#')) ∧
      (run 'S' (unsettled ++ [.addRules 'u' [['c']], .configure ⟨'V', '?', false⟩])).build =
        .error (.malformedRule 0 (.notSymbol '#')) ∧
      (run 's' unsettled).build = .error (.config (.badStart 's')) := by
  obtain ⟨-, -, -, hfollows⟩ := build_first_fault 'S' unsettled
  have hbuild : (run 'S' unsettled).build = .error (.malformedRule 0 (.notSymbol '#')) := by decide
  exact ⟨hbuild, hfollows _ _ hbuild, by decide⟩

end Builder

end Chomsky
