import Chomsky.Pass

/-!
# Events

What passes report while they run.

* `Event` — the reports, each with a level, a source and a message.
* `Stage.events`, `Pass.events` — what a run reports, in order; a failing run reports up to its
  failure.

Principal result: `eventsOfAll_append` — a list of passes reports as its parts do.
-/

namespace Chomsky

/-- How detailed a report is. -/
inductive Level where
  | info
  | debug
  deriving DecidableEq, Repr

namespace Level

def name : Level → String
  | info => "INFO"
  | debug => "DEBUG"

/-- The detailed level shows all events, the other one only the coarse ones. -/
def shows : Level → Level → Bool
  | debug, _ => true
  | info, l => l == info

end Level

inductive Event where
  /-- The nullable symbols known after a pass. -/
  | nullablePass (number : Nat) (known : CharSet)
  | nullEliminated (nullable before after : Nat)
  | closurePass (number : Nat) (changed : Bool)
  | unitsEliminated (before after : Nat)
  | reachable (symbols : CharSet)
  | productive (symbols : CharSet)
  | uselessEliminated (before after : Nat)
  | allocated (name : Char) (purpose : Purpose)
  | binarized (before after : Nat)
  /-- A grammar file is about to be read. -/
  | loading (path : String)
  | loaded (rules : Nat)
  /-- A chain is about to be run. -/
  | running (chain : String)
  deriving DecidableEq

namespace Event

def level : Event → Level
  | nullablePass .. | closurePass .. | reachable _ | productive _ | allocated .. => .debug
  | _ => .info

/-- The part of the program that reports. -/
def source : Event → String
  | nullablePass .. | nullEliminated .. => "cfg_normalizer::nullable"
  | closurePass .. | unitsEliminated .. => "cfg_normalizer::unit"
  | reachable _ | productive _ | uselessEliminated .. => "cfg_normalizer::useless"
  | allocated .. | binarized .. => "cfg_normalizer::cnf"
  | loading _ | loaded _ | running _ => "cfg_normalize"

/-- The members of a set between braces, each quoted. -/
def setMessage (s : CharSet) : String :=
  let members := s.toList.map fun c => (Text.quotedChar c).string
  "\x7b" ++ ", ".intercalate members ++ "\x7d"

def message : Event → String
  | nullablePass number known => s!"nullable pass {number}: {setMessage known}"
  | nullEliminated nullable before after =>
    s!"null elimination: {nullable} nullable, {before} -> {after} rules"
  | closurePass number changed => s!"unit closure pass {number}: changed={changed}"
  | unitsEliminated before after => s!"unit elimination: {before} -> {after} rules"
  | reachable symbols => s!"reachable: {setMessage symbols}"
  | productive symbols => s!"productive: {setMessage symbols}"
  | uselessEliminated before after => s!"useless-symbol elimination: {before} -> {after} rules"
  | allocated name purpose => s!"allocated {name} for {purpose.message}"
  | binarized before after => s!"cnf transform: {before} -> {after} rules"
  | loading path => s!"Loading grammar from {path}"
  | loaded rules => s!"Loaded {rules} rules"
  | running chain => s!"Running {chain}"

end Event

/-- What a stage reports. -/
def Stage.events : Stage → Grammar → List Event
  | .null, g =>
    let sets := g.generatingPasses (· == .null)
    (sets.zipIdx 1).map (fun p => .nullablePass p.2 p.1) ++
      [.nullEliminated g.nullable.size g.rules.length g.eliminateNull.rules.length]
  | .unit, g =>
    let count := g.closurePasses.length
    (List.range' 1 count).map (fun n => .closurePass n (n < count)) ++
      [.unitsEliminated g.rules.length g.eliminateUnits.rules.length]
  | .useless, g =>
    [.reachable g.reachable, .productive g.productive,
      .uselessEliminated g.rules.length g.eliminateUseless.rules.length]
  | .normal, g =>
    g.grantedNames.map (fun p => .allocated p.1 p.2) ++
      match g.binarize with
      | .error _ => []
      | .ok h => [.binarized g.rules.length h.rules.length]

namespace Pass

mutual

/-- What a pass reports. -/
def events : Pass → Grammar → List Event
  | stage s, g => s.events g
  | chain _ members, g => eventsOfAll members g

/-- What passes report that run one after the other. -/
def eventsOfAll : List Pass → Grammar → List Event
  | [], _ => []
  | p :: ps, g =>
    p.events g ++
      match p.apply g with
      | .error _ => []
      | .ok h => eventsOfAll ps h

end

theorem eventsOfAll_append (ps qs : List Pass) (g : Grammar) :
    eventsOfAll (ps ++ qs) g = eventsOfAll ps g ++
      match applyAll ps g with
      | .error _ => []
      | .ok h => eventsOfAll qs h := by
  induction ps generalizing g with
  | nil => simp [eventsOfAll, applyAll]
  | cons p ps ih =>
    simp only [List.cons_append, eventsOfAll, applyAll, List.append_assoc]
    cases p.apply g with
    | error e => rfl
    | ok h => simp only [ih h]

end Pass

end Chomsky
