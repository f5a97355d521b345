import Chomsky.Grammar.Printer
import Chomsky.Proofs.LineGrammar

/-!
# Reading what was printed

A grammar is printed as one rule line for each rule, and a rule line with one alternative is read as
that rule.  The marker may be any character that is no letter, no blank and no bar, also one that is
part of the arrow or begins a comment: on a line it only stands after the arrow, and alone.

* `Rule.WellFormed` — a rule that rule text can hold.

Principal results: `Rule.WellFormed.ruleLine` — a printed rule is a rule line with one piece;
`Grammar.map_trim_physicalLines_text` — the lines of a printed grammar are its rules;
`Grammar.parse_text` — a printed grammar is read back.
-/

namespace Chomsky

/-- A rule that rule text can hold: the head is an upper-case letter, and the body the null symbol
alone or one or more symbols that are letters. -/
structure Rule.WellFormed (r : Rule) : Prop where
  head_isUpper : r.head.isUpper = true
  body : r.body = [.null] ∨ r.body ≠ [] ∧ ∀ s ∈ r.body, s.Admissible

instance (r : Rule) : Decidable r.WellFormed :=
  decidable_of_iff
    (r.head.isUpper = true ∧ (r.body = [.null] ∨ r.body ≠ [] ∧ ∀ s ∈ r.body, s.Admissible))
    ⟨fun ⟨hhead, hbody⟩ => ⟨hhead, hbody⟩, fun ⟨hhead, hbody⟩ => ⟨hhead, hbody⟩⟩

/-! ## Pieces -/

namespace Text

theorem pieces_cons_of_isSeparator {c : Char} (hc : isSeparator c = true) (t : Text) :
    pieces (c :: t) = pieces t := by
  have hsplit := List.splitOnP_append_cons_of_forall_mem (p := isSeparator)
    (List.forall_mem_nil _) c hc t
  rw [pieces, ← List.nil_append (c :: t), hsplit]
  rfl

theorem pieces_of_forall {t : Text} (hne : t ≠ []) (ht : ∀ c ∈ t, isSeparator c = false) :
    pieces t = [t] := by
  rw [pieces, List.splitOnP_eq_singleton ht]
  simp [hne]

end Text

/-! ## One rule -/

section Symbols

variable {s : Symbol} {marker : Char}

theorem Symbol.toChar_of_admissible (hs : s.Admissible) (marker : Char) :
    (s.toChar marker).isAlpha = true ∧ ofLetter (s.toChar marker) = s := by
  obtain ⟨halpha, hletter⟩ := ofChar?_eq_some.1 (ofChar?_toChar hs marker)
  exact ⟨halpha, hletter.symm⟩

theorem Text.isSeparator_of_isAlpha {c : Char} (h : c.isAlpha = true) :
    Text.isSeparator c = false := by
  have hbar : c ≠ '|' := by
    rintro rfl
    exact absurd h (by decide)
  simp [Text.isSeparator, hbar, Text.isBlank_of_isAlpha h]

theorem Config.isSeparator_of_isMarker (hm : Config.isMarker marker = true) :
    Text.isSeparator marker = false := by
  simp only [isMarker, Bool.not_eq_true', Bool.or_eq_false_iff] at hm
  simp [Text.isSeparator, hm.1.2, hm.2]

end Symbols

namespace Rule.WellFormed

variable {r : Rule} {marker : Char}

theorem bodyText_ne_nil (hr : r.WellFormed) : r.bodyText marker ≠ [] := by
  rcases hr.body with hnull | ⟨hne, -⟩
  · simp [Rule.bodyText, hnull]
  · simpa [Rule.bodyText] using hne

/-- No bar and no blank is printed in a body. -/
theorem isSeparator_of_mem_bodyText (hr : r.WellFormed) (hm : Config.isMarker marker = true)
    {c : Char} (hc : c ∈ r.bodyText marker) : Text.isSeparator c = false := by
  obtain ⟨s, hs, rfl⟩ := List.mem_map.1 hc
  rcases hr.body with hnull | ⟨-, hadmissible⟩
  · obtain rfl : s = .null := by simpa [hnull] using hs
    exact Config.isSeparator_of_isMarker hm
  · exact Text.isSeparator_of_isAlpha (Symbol.toChar_of_admissible (hadmissible s hs) marker).1

theorem isBlank_of_mem_bodyText (hr : r.WellFormed) (hm : Config.isMarker marker = true)
    {c : Char} (hc : c ∈ r.bodyText marker) : Text.isBlank c = false := by
  have h := hr.isSeparator_of_mem_bodyText hm hc
  rw [Text.isSeparator, Bool.or_eq_false_iff] at h
  exact h.2

/-- A printed body is an alternative that spells the body. -/
theorem spelledBody_bodyText (hr : r.WellFormed) (hm : Config.isMarker marker = true) :
    IsAlternative marker (r.bodyText marker) ∧
      spelledBody marker (r.bodyText marker) = r.body := by
  rcases hr.body with hnull | ⟨hne, hadmissible⟩
  · simp [IsAlternative, spelledBody, Rule.bodyText, hnull, Symbol.toChar]
  · have hletters : ∀ c ∈ r.bodyText marker, c.isAlpha = true := by
      intro c hc
      obtain ⟨s, hs, rfl⟩ := List.mem_map.1 hc
      exact (Symbol.toChar_of_admissible (hadmissible s hs) marker).1
    have hmarker : r.bodyText marker ≠ [marker] := fun h => by
      have := hletters marker (h ▸ List.mem_singleton.2 rfl)
      simp [Config.isAlpha_of_isMarker hm] at this
    refine ⟨.inr ⟨hr.bodyText_ne_nil, hletters⟩, ?_⟩
    rw [spelledBody, if_neg hmarker, Rule.bodyText, List.map_map]
    refine (List.map_congr_left fun s hs => ?_).trans (List.map_id _)
    exact (Symbol.toChar_of_admissible (hadmissible s hs) marker).2

theorem pieces_bodyText (hr : r.WellFormed) (hm : Config.isMarker marker = true) :
    Text.pieces (' ' :: r.bodyText marker) = [r.bodyText marker] := by
  rw [Text.pieces_cons_of_isSeparator (by decide),
    Text.pieces_of_forall hr.bodyText_ne_nil fun c => hr.isSeparator_of_mem_bodyText hm]

/-- **A printed rule is a rule line**, with the body as its only piece. -/
theorem ruleLine (hr : r.WellFormed) (hm : Config.isMarker marker = true) :
    RuleLine marker (r.text marker) r.head (' ' :: r.bodyText marker) where
  shape := ⟨[' '], List.forall_mem_singleton.2 (by decide), rfl⟩
  head_isUpper := hr.head_isUpper
  pieces_ne_nil := by simp [hr.pieces_bodyText hm]
  alternatives := by
    rw [hr.pieces_bodyText hm]
    exact List.forall_mem_singleton.2 (hr.spelledBody_bodyText hm).1

/-- A printed rule spells that rule and no other. -/
theorem spellsLine (hr : r.WellFormed) (hm : Config.isMarker marker = true) :
    SpellsLine marker (r.text marker) [r] := by
  have h := SpellsLine.rules (hr.ruleLine hm)
  rwa [hr.pieces_bodyText hm, List.map_singleton, (hr.spelledBody_bodyText hm).2] at h

theorem isAlpha_head (hr : r.WellFormed) : r.head.isAlpha = true := by
  simp [Char.isAlpha, hr.head_isUpper]

/-- A printed rule has no blanks at its ends. -/
theorem trim_text (hr : r.WellFormed) (hm : Config.isMarker marker = true) :
    Text.trim (r.text marker) = r.text marker := by
  refine Text.trim_eq_self (fun c hc => ?_) fun c hc => ?_
  · obtain rfl : r.head = c := by simpa [Rule.text] using hc
    exact Text.isBlank_of_isAlpha hr.isAlpha_head
  · have hlast : (r.text marker).getLast? = (r.bodyText marker).getLast? := by
      rw [Rule.text, List.cons_append, ← List.cons_append, List.getLast?_append_of_ne_nil]
      exact hr.bodyText_ne_nil
    exact hr.isBlank_of_mem_bodyText hm (List.mem_of_mem_getLast? (hlast ▸ hc))

/-- A rule is printed on one line. -/
theorem ne_feed_of_mem_text (hr : r.WellFormed) (hm : Config.isMarker marker = true)
    {c : Char} (hc : c ∈ r.text marker) : (c == '\n') = false := by
  have hblank : Text.isBlank '\n' = true := by decide
  rw [beq_eq_false_iff_ne]
  rintro rfl
  rcases List.mem_append.1 hc with hc | hc
  · have hhead : '\n' = r.head := by simpa using hc
    rw [hhead, Text.isBlank_of_isAlpha hr.isAlpha_head] at hblank
    cases hblank
  · rw [hr.isBlank_of_mem_bodyText hm hc] at hblank
    cases hblank

end Rule.WellFormed

/-! ## All rules -/

namespace Grammar

variable {marker : Char}

/-- **The lines of a printed grammar are its rules.** -/
theorem map_trim_physicalLines_text (hm : Config.isMarker marker = true) (start : Char)
    {rules : List Rule} (hrules : ∀ r ∈ rules, r.WellFormed) :
    (text ⟨rules, start, marker⟩).physicalLines.map Text.trim = rules.map (·.text marker) := by
  rw [Text.map_trim_physicalLines]
  induction rules with
  | nil => rfl
  | cons r rules ih =>
    obtain ⟨hr, hrules⟩ := List.forall_mem_cons.1 hrules
    rw [text_cons, cutAfter_append_cons (fun c => hr.ne_feed_of_mem_text hm) rfl, List.map_cons,
      Text.trim_append_feed, hr.trim_text hm, ih hrules, List.map_cons]

theorem grammarLines_text (marker : Char) (rules : List Rule) :
    grammarLines marker (rules.map (·.text marker)) = rules.map (·.text marker) :=
  beforeBreak_eq_self fun line hline => by
    obtain ⟨r, -, rfl⟩ := List.mem_map.1 hline
    rfl

/-- **A printed grammar is read back**: the same rules in the same order, as often as they stand
there. -/
theorem parse_text {c : Config} {g : Grammar} (hc : c.validate = .ok ())
    (hstart : c.start = g.start)
    (hmarker : c.marker = g.marker) (hrules : ∀ r ∈ g.rules, r.WellFormed) :
    parse c g.text = .ok g := by
  obtain ⟨rules, start, marker⟩ := g
  obtain rfl : c.start = start := hstart
  obtain rfl : c.marker = marker := hmarker
  have hm := (Config.validate_eq_ok.1 hc).2
  have hspells : List.Forall₂ (SpellsLine c.marker) (rules.map (·.text c.marker))
      (rules.map ([·])) := by
    rw [List.forall₂_map_left_iff, List.forall₂_map_right_iff, List.forall₂_same]
    exact fun r hr => (hrules r hr).spellsLine hm
  have hflatten : (rules.map ([·])).flatten = rules := List.flatMap_singleton' rules
  refine (parse_eq_ok hc).2 ⟨rfl, rfl, rules.map ([·]), ?_, hflatten.symm⟩
  rwa [map_trim_physicalLines_text hm c.start hrules, grammarLines_text]

/-- Null rules between other rules, one of them twice. -/
def recurrent : List Rule :=
  [⟨'S', [.terminal 'a', .nonterminal 'S', .terminal 'b']⟩, ⟨'S', [.null]⟩,
    ⟨'T', [.nonterminal 'S']⟩, ⟨'S', [.null]⟩]

theorem parse_text_recurrent :
    (∀ r ∈ recurrent, r.WellFormed) ∧
      text ⟨recurrent, 'S', '>'⟩ = "S -> aSb\nS -> >\nT -> S\nS -> >\n".toList ∧
      ∀ marker ∈ ['#', '-', '>', '\x01'],
        (⟨'S', marker, false⟩ : Config).validate = .ok () ∧
          parse ⟨'S', marker, false⟩ (text ⟨recurrent, 'S', marker⟩) =
            .ok ⟨recurrent, 'S', marker⟩ := by
  have hrules : ∀ r ∈ recurrent, r.WellFormed := by decide
  have hread : ∀ marker, (⟨'S', marker, false⟩ : Config).validate = .ok () →
      (⟨'S', marker, false⟩ : Config).validate = .ok () ∧
        parse ⟨'S', marker, false⟩ (text ⟨recurrent, 'S', marker⟩) =
          .ok ⟨recurrent, 'S', marker⟩ :=
    fun marker hc => ⟨hc, parse_text hc rfl rfl hrules⟩
  refine ⟨hrules, rfl, ?_⟩
  simp only [List.forall_mem_cons]
  exact ⟨hread '#' rfl, hread '-' rfl, hread '>' rfl, hread '\x01' rfl, List.forall_mem_nil _⟩

end Grammar

end Chomsky
