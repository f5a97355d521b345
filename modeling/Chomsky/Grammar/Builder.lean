import Chomsky.Grammar.Parser

/-!
# Building grammars rule by rule

* `Rule.make` — a rule, if it is well formed.
* `Grammar.addRule` — a grammar with one more rule, given as text.
* `Builder` — a grammar under construction.  The first fault is kept, and nothing that follows it
  has an effect on what is built.

Principal results: `make_eq_ok` — what a well-formed rule is; `addRule_eq_ok` — what a rule adds.
-/

namespace Chomsky

/-- A rule with an upper-case head and a body that is not empty and in which the null symbol
stands alone, if anywhere. -/
def Rule.make (head : Char) (body : List Symbol) : Except Malformation Rule :=
  if !head.isUpper then .error (.badHeadName head)
  else if body = [] then .error .emptyBody
  else if 1 < body.length ∧ .null ∈ body then .error .mixedNull
  else .ok ⟨head, body⟩

theorem Rule.make_eq_ok {head : Char} {body : List Symbol} {r : Rule} :
    Rule.make head body = .ok r ↔
      r = ⟨head, body⟩ ∧ head.isUpper = true ∧ body ≠ [] ∧ (.null ∈ body → body = [.null]) := by
  unfold Rule.make
  split
  · simp_all
  split
  · simp_all
  split
  · rename_i h
    simp only [reduceCtorEq, false_iff]
    rintro ⟨-, -, -, hnull⟩
    rw [hnull h.2] at h
    exact absurd h.1 (by decide)
  · rename_i hu hne hmix
    have hnull : .null ∈ body → body = [.null] := fun h => by
      match body with
      | [] => exact absurd h List.not_mem_nil
      | [s] => rw [List.mem_singleton.1 h]
      | s :: t :: ss => exact absurd ⟨by simp, h⟩ hmix
    simp only [Except.ok.injEq]
    exact ⟨fun h => ⟨h.symm, by simpa using hu, hne, hnull⟩, fun h => h.1.symm⟩

/-- One more rule at the end, its body given as text.  The text is read before the head is
checked, and faults are reported for line 0. -/
def Grammar.addRule (g : Grammar) (head : Char) (t : Text) : Except GrammarError Grammar :=
  match bodyOfText g.marker t with
  | .error reason => .error (.malformedRule 0 reason)
  | .ok body =>
    match Rule.make head body with
    | .error reason => .error (.malformedRule 0 reason)
    | .ok rule => .ok { g with rules := g.rules ++ [rule] }

theorem Grammar.addRule_eq_ok {g h : Grammar} {head : Char} {t : Text}
    (ho : g.addRule head t = .ok h) :
    ∃ body, bodyOfText g.marker t = .ok body ∧ head.isUpper = true ∧
      h = { g with rules := g.rules ++ [⟨head, body⟩] } := by
  unfold Grammar.addRule at ho
  split at ho
  · cases ho
  · rename_i body hb
    split at ho
    · cases ho
    · rename_i rule hr
      obtain ⟨rfl, hu, -, -⟩ := Rule.make_eq_ok.1 hr
      cases ho
      exact ⟨body, hb, hu, rfl⟩

/-- A grammar under construction, or the first fault met. -/
structure Builder where
  grammar : Grammar
  fault : Option GrammarError
  deriving DecidableEq, Repr

namespace Builder

/-- Nothing built yet; a bad start symbol is the first fault. -/
def new (start : Char) : Builder :=
  let c : Config := { start }
  match c.validate with
  | .error e => ⟨Grammar.empty c, some e⟩
  | .ok () => ⟨Grammar.empty c, none⟩

/-- Takes the start symbol and the marker of a configuration over, for the rules that follow. -/
def configure (b : Builder) (c : Config) : Builder :=
  match c.validate with
  | .error e => { b with fault := b.fault.or (some e) }
  | .ok () => { b with grammar := { b.grammar with start := c.start, marker := c.marker } }

/-- Adds a rule for each alternative, up to the first fault. -/
def addRules (b : Builder) (head : Char) : List Text → Builder
  | [] => b
  | t :: ts =>
    match b.fault with
    | some _ => b
    | none =>
      match b.grammar.addRule head t with
      | .error e => { b with fault := some e }
      | .ok g => addRules { b with grammar := g } head ts

/-- The grammar, or the first fault. -/
def build (b : Builder) : Except GrammarError Grammar :=
  match b.fault with
  | some e => .error e
  | none => .ok b.grammar

end Builder

end Chomsky
