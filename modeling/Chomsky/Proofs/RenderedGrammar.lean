import Chomsky.Grammar.Json
import Chomsky.Proofs.JsonDecoding
import Chomsky.Proofs.WellFormedness
import Mathlib

/-!
# A rendered grammar is read back

The JSON text of a grammar holds its rules as heads and written bodies.  Two encodings stand one in
the other: a body is a text of letters or the marker alone, and that text is a string with its
escapes.  The marker may be any character that stands for itself in rule text, so also a quote, a
backslash or a control character.

* `Rule.ofJson?` — the rule that an object of a head and a written body stands for.

Principal results: `Grammar.decode_jsonText` — the text of any grammar decodes to the value that it
was written for; `Rule.ofJson?_toJson` — a well-formed rule is read back;
`Grammar.jsonText_lossless` — the start symbol and the rules are recovered from the text, in order
and with duplicates; `Grammar.jsonText_injective` — two grammars with one marker are not written
alike.
-/

namespace Chomsky

/-! ## Rules -/

/-- The rule that an object with a head and a written body stands for, and nothing besides. -/
def Rule.ofJson? (marker : Char) : Json → Option Rule
  | .object [(headKey, .string [head]), (bodyKey, .string body)] =>
    if headKey = "lhs".toList ∧ bodyKey = "rhs".toList then
      match bodyOfText marker body with
      | .ok body => some ⟨head, body⟩
      | .error _ => none
    else none
  | _ => none

/-- **A well-formed rule is read back** under an admissible marker. -/
theorem Rule.ofJson?_toJson {marker : Char} {r : Rule} (hr : r.WellFormed)
    (hm : Config.isMarker marker = true) : ofJson? marker (r.toJson marker) = some r := by
  obtain ⟨halternative, hspelled⟩ := hr.spelledBody_bodyText hm
  have hbody : bodyOfText marker (r.bodyText marker) = .ok r.body :=
    (bodyOfText_eq_ok hm).2 ⟨halternative, hspelled.symm⟩
  simp [toJson, ofJson?, hbody]

theorem Rule.mapM_ofJson?_toJson {marker : Char} (hm : Config.isMarker marker = true)
    {rules : List Rule} (hrules : ∀ r ∈ rules, r.WellFormed) :
    (rules.map (·.toJson marker)).mapM (Rule.ofJson? marker) = some rules := by
  induction rules with
  | nil => rfl
  | cons r rules ih =>
    obtain ⟨hr, hrules⟩ := List.forall_mem_cons.1 hrules
    simp [List.mapM_cons, Rule.ofJson?_toJson hr hm, ih hrules]

/-! ## Grammars -/

namespace Grammar

theorem proper_toJson (g : Grammar) : g.toJson.Proper := by
  have hitems : ∀ rules : List Rule, Json.ProperItems (rules.map (·.toJson g.marker)) := by
    intro rules
    induction rules with
    | nil => trivial
    | cons r rules ih => exact ⟨⟨trivial, trivial, trivial⟩, ih⟩
  exact ⟨trivial, hitems g.rules, trivial⟩

/-- **The text of a grammar decodes to the value that it was written for.** -/
theorem decode_jsonText (g : Grammar) : Json.decode g.jsonText = some g.toJson :=
  Json.decode_eq_some.2
    ⟨g.jsonText, [], .of_self (Json.spells_write .indented 0 g.toJson g.proper_toJson),
      Json.isSpaces_nil, by simp⟩

/-- **The JSON text of a grammar loses nothing.**  It decodes to an object with exactly a start
symbol and rules; the start symbol is that of the grammar, and its rules are those of the grammar,
in order and with duplicates. -/
theorem jsonText_lossless {g : Grammar} (hg : g.WellFormed) :
    ∃ items,
      Json.decode g.jsonText =
          some (.object [("start_symbol".toList, .string [g.start]),
            ("rules".toList, .array items)]) ∧
        items.mapM (Rule.ofJson? g.marker) = some g.rules :=
  ⟨_, g.decode_jsonText, Rule.mapM_ofJson?_toJson hg.isMarker hg.rules⟩

/-- A grammar whose marker is the quote, with a rule that stands twice and with one that derives
nothing. -/
def quoted : Grammar where
  rules := [⟨'S', [.terminal 'a', .nonterminal 'S']⟩, ⟨'B', [.null]⟩,
    ⟨'S', [.terminal 'a', .nonterminal 'S']⟩]
  start := 'S'
  marker := '"'

theorem jsonText_lossless_quoted :
    quoted.WellFormed ∧
      ∃ items,
        Json.decode quoted.jsonText =
            some (.object [("start_symbol".toList, .string ['S']),
              ("rules".toList, .array items)]) ∧
          items.mapM (Rule.ofJson? '"') = some quoted.rules :=
  have hg : quoted.WellFormed := ⟨rfl, rfl, by decide⟩
  ⟨hg, jsonText_lossless hg⟩

/-- **Grammars with one marker are not written alike.** -/
theorem jsonText_injective {g h : Grammar} (hg : g.WellFormed) (hh : h.WellFormed)
    (hmarker : g.marker = h.marker) (heq : g.jsonText = h.jsonText) : g = h := by
  have hvalue : g.toJson = h.toJson :=
    Option.some.inj (g.decode_jsonText.symm.trans (heq ▸ h.decode_jsonText))
  simp only [toJson, Json.object.injEq, List.cons.injEq, Prod.mk.injEq, Json.string.injEq,
    Json.array.injEq, true_and, and_true] at hvalue
  obtain ⟨hstart, hitems⟩ := hvalue
  have hrules : g.rules = h.rules := by
    have hread := Rule.mapM_ofJson?_toJson hg.isMarker hg.rules
    rw [hitems, hmarker, Rule.mapM_ofJson?_toJson hh.isMarker hh.rules] at hread
    exact (Option.some.inj hread).symm
  obtain ⟨rules, start, marker⟩ := g
  simp only at hstart hrules hmarker
  rw [hstart, hrules, hmarker]

end Grammar

end Chomsky
