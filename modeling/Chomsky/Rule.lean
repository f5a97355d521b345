import Chomsky.Symbol
import Chomsky.Text.Lines

/-!
# Rules

* `Rule` — a head and the body that may replace it.
* `isNull`, `isUnit`, `isNormal` — the three shapes of a body that matter: the null symbol alone, a
  nonterminal alone, and the two shapes of Chomsky normal form.
* `bodyText`, `text` — a rule as it is written.
* `key` — the place of a rule in the order of rules.

Principal results: `unitTarget?_eq_some` — what a unit rule is; `key_injective` — the order keeps
different rules apart.
-/

namespace Chomsky

/-- A rule lets its body replace its head.  An empty body stands for the empty string, as the
null symbol does. -/
structure Rule where
  head : Char
  body : List Symbol
  deriving DecidableEq, Repr

namespace Rule

/-- The body is the null symbol alone. -/
def isNull (r : Rule) : Bool := r.body == [Symbol.null]

/-- The nonterminal that is the whole body. -/
def unitTarget? (r : Rule) : Option Char :=
  match r.body with
  | [.nonterminal name] => some name
  | _ => none

/-- The body is one nonterminal. -/
def isUnit (r : Rule) : Bool := r.unitTarget?.isSome

/-- The body is one terminal or two nonterminals. -/
def isNormal (r : Rule) : Bool :=
  match r.body with
  | [.terminal _] => true
  | [.nonterminal _, .nonterminal _] => true
  | _ => false

/-- The nonterminals of the body, from left to right. -/
def bodyNonterminals (r : Rule) : List Char := r.body.filterMap Symbol.nonterminal?

/-- The terminals of the body, from left to right. -/
def bodyTerminals (r : Rule) : List Char := r.body.filterMap Symbol.terminal?

/-- The body as it is written. -/
def bodyText (marker : Char) (r : Rule) : Text := r.body.map (·.toChar marker)

/-- The rule as it is written. -/
def text (marker : Char) (r : Rule) : Text := r.head :: [' ', '-', '>', ' '] ++ r.bodyText marker

theorem unitTarget?_eq_some {r : Rule} {c : Char} :
    r.unitTarget? = some c ↔ r.body = [.nonterminal c] := by
  unfold unitTarget?
  split <;> simp_all

/-- Whether a rule is a unit rule depends on its body only. -/
theorem isUnit_congr {r q : Rule} (h : r.body = q.body) : r.isUnit = q.isUnit := by
  rw [isUnit, isUnit, unitTarget?, unitTarget?, h]

theorem isNull_iff {r : Rule} : r.isNull = true ↔ r.body = [.null] := by
  simp [isNull]

@[simp] theorem mem_bodyNonterminals {r : Rule} {c : Char} :
    c ∈ r.bodyNonterminals ↔ .nonterminal c ∈ r.body := by
  simp [bodyNonterminals]

@[simp] theorem mem_bodyTerminals {r : Rule} {c : Char} :
    c ∈ r.bodyTerminals ↔ .terminal c ∈ r.body := by
  simp [bodyTerminals]

/-! ## The order of rules -/

/-- Rules are ordered by head; among rules with one head the bodies are ordered as words are in a
dictionary. -/
def key (r : Rule) : List Nat := r.head.toNat :: r.body.map Symbol.key

instance : LT Rule := ⟨fun r s => r.key < s.key⟩

instance : LE Rule := ⟨fun r s => ¬ s.key < r.key⟩

instance (r s : Rule) : Decidable (r < s) := inferInstanceAs (Decidable (r.key < s.key))

instance (r s : Rule) : Decidable (r ≤ s) := inferInstanceAs (Decidable (¬ s.key < r.key))

/-- How a rule compares with another one. -/
instance : Ord Rule := ⟨fun r s => if r < s then .lt else if r = s then .eq else .gt⟩

theorem key_injective {r s : Rule} (h : r.key = s.key) : r = s := by
  obtain ⟨a, as⟩ := r
  obtain ⟨b, bs⟩ := s
  obtain ⟨hab, habs⟩ := List.cons.inj h
  have hhead : a = b := Char.toNat_inj.1 hab
  have hbody : as = bs := List.map_inj_right (fun _ _ => Symbol.key_injective) |>.1 habs
  rw [hhead, hbody]

end Rule

end Chomsky
