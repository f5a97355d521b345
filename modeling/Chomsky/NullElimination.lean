import Chomsky.Generating

/-!
# Null elimination

Rules that say `X -> null` are dropped, and every other rule is replaced by its shortened forms:
the bodies that are left when some of the nullable symbols are dropped.

* `shortened` — the shortened forms of a body, without duplicates.
* `Grammar.eliminateNull` — the grammar of all shortened rules that are not empty.

Principal results: `mem_shortened_self` — a body is one of its shortened forms;
`nonempty_of_mem_eliminateNull` — no empty body is left.
-/

namespace Chomsky

/-- The forms of a body with some nullable symbols dropped.  Of two forms that differ first at
some symbol, the one that keeps it comes first. -/
def shortened (nullable : CharSet) : List Symbol → List (List Symbol)
  | [] => [[]]
  | s :: rest =>
    let forms := shortened nullable rest
    firstOccurrences <| forms.map (s :: ·) ++
      if s.generatesIn (· == .null) nullable then forms else []

theorem mem_shortened_self (nullable : CharSet) (body : List Symbol) :
    body ∈ shortened nullable body := by
  induction body with
  | nil => exact List.mem_singleton.2 rfl
  | cons s rest ih =>
    rw [shortened, mem_firstOccurrences, List.mem_append]
    exact .inl (List.mem_map.2 ⟨rest, ih, rfl⟩)

/-- The rules that replace one rule. -/
def shortenedRules (nullable : CharSet) (r : Rule) : List Rule :=
  if r.isNull then []
  else ((shortened nullable r.body).filter (!·.isEmpty)).map (⟨r.head, ·⟩)

/-- All shortened rules, each where the first rule that has it as a shortened form stands. -/
def Grammar.eliminateNull (g : Grammar) : Grammar :=
  g.withRules (g.rules.flatMap (shortenedRules g.nullable))

theorem nonempty_of_mem_eliminateNull {g : Grammar} {r : Rule}
    (h : r ∈ g.eliminateNull.rules) : r.body ≠ [] := by
  obtain ⟨q, -, hq⟩ := List.mem_flatMap.1 (Grammar.mem_withRules.1 h)
  unfold shortenedRules at hq
  split at hq
  · exact absurd hq List.not_mem_nil
  · obtain ⟨body, hb, rfl⟩ := List.mem_map.1 hq
    simpa using (List.mem_filter.1 hb).2

end Chomsky
