import Chomsky.Binarization
import Chomsky.NullElimination
import Chomsky.UnitElimination
import Chomsky.UsefulSymbols

/-!
# Passes and chains

* `Stage` — the four rewritings of grammars.
* `Pass` — a stage, or a chain of passes under a name.
* `Pass.apply` — runs a pass; a chain runs its members one after the other and stops at the first
  that fails.
* `Chain` — the chains, built with `ofList`, `add` and `Pass.followedBy`.
* `Chain.standard`, `Grammar.normalize` — all four stages in their usual order.

Principal results: `applyAll_append` — a list of passes runs as its parts do; `apply_ofList` — a
chain does what its members do.
-/

namespace Chomsky

/-- The rewritings that a pass is made of. -/
inductive Stage where
  | null
  | unit
  | useless
  | normal
  deriving DecidableEq, Repr

namespace Stage

def name : Stage → String
  | null => "null"
  | unit => "unit"
  | useless => "useless"
  | normal => "cnf"

/-- Only binarization can fail. -/
def apply : Stage → Grammar → Except GrammarError Grammar
  | null, g => .ok g.eliminateNull
  | unit, g => .ok g.eliminateUnits
  | useless, g => .ok g.eliminateUseless
  | normal, g => g.binarize

end Stage

/-- A rewriting of grammars: one stage, or several passes in a row. -/
inductive Pass where
  | stage (s : Stage)
  | chain (name : String) (members : List Pass)

namespace Pass

def name : Pass → String
  | stage s => s.name
  | chain name _ => name

mutual

/-- Runs a pass. -/
def apply : Pass → Grammar → Except GrammarError Grammar
  | stage s, g => s.apply g
  | chain _ members, g => applyAll members g

/-- Runs passes one after the other, up to the first that fails. -/
def applyAll : List Pass → Grammar → Except GrammarError Grammar
  | [], g => .ok g
  | p :: ps, g =>
    match p.apply g with
    | .error e => .error e
    | .ok h => applyAll ps h

end

theorem applyAll_append (ps qs : List Pass) (g : Grammar) :
    applyAll (ps ++ qs) g =
      match applyAll ps g with
      | .error e => .error e
      | .ok h => applyAll qs h := by
  induction ps generalizing g with
  | nil => simp [applyAll]
  | cons p ps ih =>
    simp only [List.cons_append, applyAll]
    cases p.apply g with
    | error e => rfl
    | ok h => exact ih h

end Pass

/-- A named list of passes. -/
structure Chain where
  name : String
  members : List Pass

namespace Chain

/-- Names with plus signs between them. -/
def joinNames : List String → String
  | [] => ""
  | [n] => n
  | n :: m :: rest => n ++ "+" ++ joinNames (m :: rest)

/-- A chain is a pass. -/
def toPass (c : Chain) : Pass := .chain c.name c.members

def apply (c : Chain) (g : Grammar) : Except GrammarError Grammar := c.toPass.apply g

/-- The passes in a row, named by all their names. -/
def ofList (ps : List Pass) : Chain := ⟨joinNames (ps.map Pass.name), ps⟩

/-- One more pass at the end.  A chain without a name takes that of the pass. -/
def add (c : Chain) (p : Pass) : Chain :=
  ⟨if c.name = "" then p.name else c.name ++ "+" ++ p.name, c.members ++ [p]⟩

def size (c : Chain) : Nat := c.members.length

/-- Null elimination, unit elimination, useless symbols, binarization. -/
def standard : Chain :=
  ofList [.stage .null, .stage .unit, .stage .useless, .stage .normal]

theorem apply_ofList (ps : List Pass) (g : Grammar) : (ofList ps).apply g = Pass.applyAll ps g := by
  rw [apply, toPass, Pass.apply]
  rfl

theorem apply_add (c : Chain) (p : Pass) (g : Grammar) :
    (c.add p).apply g =
      match c.apply g with
      | .error e => .error e
      | .ok h => p.apply h := by
  simp only [apply, toPass, add, Pass.apply, Pass.applyAll_append]
  cases Pass.applyAll c.members g with
  | error e => rfl
  | ok h =>
    simp only [Pass.applyAll]
    cases p.apply h <;> rfl

end Chain

/-- One pass after another. -/
def Pass.followedBy (p q : Pass) : Chain := .ofList [p, q]

/-- The grammar in Chomsky normal form. -/
def Grammar.normalize (g : Grammar) : Except GrammarError Grammar := Chain.standard.apply g

end Chomsky
