import Chomsky.Grammar

/-!
# A supply of nonterminal names

New nonterminals are named by letters that a grammar does not use yet.

* `NameSupply` — the names taken, the terminals that have a stand-in, and the names granted so far.
* `NameSupply.ofGrammar` — the supply for a grammar, with nothing granted.
* `fresh` — the first letter that is not taken.
* `standIn` — the nonterminal that stands for a terminal; it stays the same once granted.
* `rules` — the rules that turn stand-ins into their terminals.

Principal results: `fresh_eq_ok` — which name is granted; `fresh_eq_error` — only a supply without
free letters refuses.
-/

namespace Chomsky

/-- The names a nonterminal can be given, in the order they are tried. -/
def alphabet : List Char :=
  ['A', 'B', 'C', 'D', 'E', 'F', 'G', 'H', 'I', 'J', 'K', 'L', 'M', 'N', 'O', 'P', 'Q', 'R', 'S',
    'T', 'U', 'V', 'W', 'X', 'Y', 'Z']

/-- What is known while names are given out. -/
structure NameSupply where
  /-- The names that may not be given out. -/
  taken : CharSet
  /-- Terminals and their stand-ins, by terminal in ascending order. -/
  standIns : List (Char × Char)
  /-- The names given out, with their purposes, in order. -/
  granted : List (Char × Purpose)
  deriving DecidableEq

/-- Puts a stand-in at the place of its terminal. -/
def insertStandIn (letter name : Char) : List (Char × Char) → List (Char × Char)
  | [] => [(letter, name)]
  | (l, n) :: rest =>
    if letter < l then (letter, name) :: (l, n) :: rest
    else (l, n) :: insertStandIn letter name rest

theorem mem_insertStandIn {letter name : Char} {es : List (Char × Char)} {e : Char × Char} :
    e ∈ insertStandIn letter name es ↔ e = (letter, name) ∨ e ∈ es := by
  induction es with
  | nil => simp [insertStandIn]
  | cons d es ih =>
    obtain ⟨l, n⟩ := d
    unfold insertStandIn
    split
    · simp
    · rw [List.mem_cons, ih, List.mem_cons]
      exact or_left_comm

namespace NameSupply

/-- All names of a grammar are taken, its start symbol too. -/
def ofGrammar (g : Grammar) : NameSupply := ⟨g.nonterminals.insert g.start, [], []⟩

/-- Grants the first letter of the alphabet that is not taken. -/
def fresh (s : NameSupply) (purpose : Purpose) : Except GrammarError (Char × NameSupply) :=
  match alphabet.find? (· ∉ s.taken) with
  | none => .error (.exhausted purpose)
  | some name =>
    .ok (name, { s with
      taken := s.taken.insert name
      granted := s.granted ++ [(name, purpose)] })

/-- The nonterminal for a terminal, a new one when the terminal has none yet. -/
def standIn (s : NameSupply) (letter : Char) : Except GrammarError (Char × NameSupply) :=
  match s.standIns.lookup letter with
  | some name => .ok (name, s)
  | none =>
    match s.fresh (.terminal letter) with
    | .error e => .error e
    | .ok (name, s) =>
      .ok (name, { s with standIns := insertStandIn letter name s.standIns })

/-- Each stand-in turns into its terminal; the rules are in the order of the terminals. -/
def rules (s : NameSupply) : List Rule :=
  s.standIns.map fun e => ⟨e.2, [.terminal e.1]⟩

theorem fresh_eq_ok {s t : NameSupply} {purpose : Purpose} {name : Char}
    (h : s.fresh purpose = .ok (name, t)) :
    name ∈ alphabet ∧ name ∉ s.taken ∧ t.taken = s.taken.insert name ∧
      t.standIns = s.standIns ∧ t.granted = s.granted ++ [(name, purpose)] := by
  unfold fresh at h
  split at h
  · cases h
  · rename_i n hn
    cases h
    exact ⟨List.mem_of_find?_eq_some hn, by simpa using List.find?_some hn, rfl, rfl, rfl⟩

theorem fresh_eq_error {s : NameSupply} {purpose : Purpose} {e : GrammarError} :
    s.fresh purpose = .error e ↔ e = .exhausted purpose ∧ ∀ name ∈ alphabet, name ∈ s.taken := by
  unfold fresh
  split
  · rename_i hn
    have hall : ∀ name ∈ alphabet, name ∈ s.taken := fun name hname => by
      simpa using List.find?_eq_none.1 hn name hname
    simpa [eq_comm] using fun _ => hall
  · rename_i n hn
    simp only [reduceCtorEq, false_iff, not_and]
    intro _ hall
    exact absurd (hall n (List.mem_of_find?_eq_some hn)) (by simpa using List.find?_some hn)

end NameSupply

end Chomsky
