import Chomsky.Grammar

/-!
# Derivations

* `Yields rules body word` — the rules turn the symbols of `body`, from left to right, into the
  parts of the terminal string `word`.
* `Derives g name word` — the nonterminal `name` yields `word` in the grammar `g`.

The null symbol and the empty body stand for the empty string.

Principal results: `yields_append` — a body yields what its parts yield; `derives_iff` — a
nonterminal yields what the bodies of its rules yield; `Yields.mono` — more rules yield more.
-/

namespace Chomsky

/-- The rules turn a list of symbols into a string of terminals. -/
inductive Yields (rules : List Rule) : List Symbol → List Char → Prop where
  | nil : Yields rules [] []
  | terminal (letter : Char) {rest : List Symbol} {word : List Char} :
      Yields rules rest word → Yields rules (.terminal letter :: rest) (letter :: word)
  | null {rest : List Symbol} {word : List Char} :
      Yields rules rest word → Yields rules (.null :: rest) word
  | nonterminal {r : Rule} {rest : List Symbol} {first word : List Char} :
      r ∈ rules → Yields rules r.body first → Yields rules rest word →
      Yields rules (.nonterminal r.head :: rest) (first ++ word)

/-- A nonterminal yields a string in a grammar. -/
def Derives (g : Grammar) (name : Char) (word : List Char) : Prop :=
  Yields g.rules [.nonterminal name] word

namespace Yields

variable {rules more : List Rule} {as bs : List Symbol} {v w : List Char}

theorem append (ha : Yields rules as v) (hb : Yields rules bs w) :
    Yields rules (as ++ bs) (v ++ w) := by
  induction ha with
  | nil => exact hb
  | terminal letter _ ih => exact ih.terminal letter
  | null _ ih => exact ih.null
  | nonterminal hr hbody _ _ ih =>
    rw [List.append_assoc]
    exact .nonterminal hr hbody ih

theorem mono (h : ∀ r ∈ rules, r ∈ more) (ha : Yields rules as w) : Yields more as w := by
  induction ha with
  | nil => exact .nil
  | terminal letter _ ih => exact ih.terminal letter
  | null _ ih => exact ih.null
  | nonterminal hr _ _ ihbody ih => exact .nonterminal (h _ hr) ihbody ih

/-- A body splits where the list of its symbols does. -/
theorem split (h : Yields rules (as ++ bs) w) :
    ∃ u v, w = u ++ v ∧ Yields rules as u ∧ Yields rules bs v := by
  induction as generalizing w with
  | nil => exact ⟨[], w, rfl, .nil, h⟩
  | cons a as ih =>
    cases h with
    | terminal letter h =>
      obtain ⟨u, v, rfl, hu, hv⟩ := ih h
      exact ⟨letter :: u, v, rfl, hu.terminal letter, hv⟩
    | null h =>
      obtain ⟨u, v, rfl, hu, hv⟩ := ih h
      exact ⟨u, v, rfl, hu.null, hv⟩
    | nonterminal hr hbody h =>
      obtain ⟨u, v, rfl, hu, hv⟩ := ih h
      exact ⟨_, v, (List.append_assoc ..).symm, .nonterminal hr hbody hu, hv⟩

end Yields

/-- **A body yields what its parts yield.** -/
theorem yields_append {rules : List Rule} {as bs : List Symbol} {w : List Char} :
    Yields rules (as ++ bs) w ↔ ∃ u v, w = u ++ v ∧ Yields rules as u ∧ Yields rules bs v :=
  ⟨Yields.split, fun ⟨_, _, h, ha, hb⟩ => h ▸ ha.append hb⟩

/-- A nonterminal yields what the bodies of its rules yield. -/
theorem derives_iff {g : Grammar} {name : Char} {w : List Char} :
    Derives g name w ↔ ∃ r ∈ g.rules, r.head = name ∧ Yields g.rules r.body w := by
  constructor
  · intro h
    cases h with
    | nonterminal hr hbody hrest =>
      cases hrest
      exact ⟨_, hr, rfl, by simpa using hbody⟩
  · rintro ⟨r, hr, rfl, h⟩
    have := Yields.nonterminal hr h .nil
    rwa [List.append_nil] at this

end Chomsky
