import Chomsky.Grammar.Parser
import Chomsky.Proofs.Lines

/-!
# The grammar of rule text

What a text has to be to spell a grammar, said line by line and without the order in which the lines
are read.

* `IsAlternative`, `spelledBody` — the texts of a body, and the body that such a text spells.
* `RuleLine`, `IsRuleLine` — an upper-case letter, an arrow and a rest of alternatives.
* `SpellsLine` — the rules on a line that is blank, a comment or a rule line.
* `IsGrammarLine` — the lines that spell rules, be it none.
* `grammarLines` — the lines before the first blank one that comes after a rule line.

Principal results: `splitArrow?_eq_some` — where the arrow of a line is; `rulesOfLine_eq_ok` — a
line with content is read when it is a rule line; `rulesOfLines_of_spells`,
`rulesOfLines_of_not_grammarLine` — lines are read up to the first one that spells nothing;
`rulesOfLines_block` — the two ways to find the break give the same; `Grammar.parse_eq` — nothing
but the grammar lines counts; `Grammar.parse_line_grammar` — which texts spell which grammar, and
where the first fault of any other text is.
-/

namespace Chomsky

/-! ## Alternatives -/

/-- The symbol that a letter stands for: a nonterminal in upper case, a terminal in lower case. -/
def Symbol.ofLetter (c : Char) : Symbol := if c.isUpper then .nonterminal c else .terminal c

/-- An alternative is the marker alone, or one or more letters. -/
def IsAlternative (marker : Char) (p : Text) : Prop :=
  p = [marker] ∨ p ≠ [] ∧ ∀ c ∈ p, c.isAlpha = true

instance (marker : Char) (p : Text) : Decidable (IsAlternative marker p) :=
  decidable_of_iff (p = [marker] ∨ p ≠ [] ∧ p.all Char.isAlpha = true)
    (by rw [IsAlternative, List.all_eq_true])

/-- The body that an alternative spells. -/
def spelledBody (marker : Char) (p : Text) : List Symbol :=
  if p = [marker] then [.null] else p.map Symbol.ofLetter

theorem Symbol.ofChar?_eq_some {c : Char} {s : Symbol} :
    ofChar? c = some s ↔ c.isAlpha = true ∧ s = ofLetter c := by
  cases hupper : c.isUpper <;> cases hlower : c.isLower <;>
    simp [ofChar?, ofLetter, Char.isAlpha, hupper, hlower, eq_comm]

theorem symbolsOfText_eq_ok_iff {t : Text} {body : List Symbol} :
    symbolsOfText t = .ok body ↔ (∀ c ∈ t, c.isAlpha = true) ∧ body = t.map Symbol.ofLetter := by
  rw [symbolsOfText_eq_ok]
  induction t generalizing body with
  | nil => cases body <;> simp
  | cons c t ih =>
    cases body with
    | nil => simp
    | cons s body =>
      simp only [List.map_cons, List.cons.injEq, Symbol.ofChar?_eq_some, ih, List.forall_mem_cons]
      exact and_and_and_comm

/-- A marker is no letter. -/
theorem Config.isAlpha_of_isMarker {marker : Char} (hm : Config.isMarker marker = true) :
    marker.isAlpha = false := by
  by_contra halpha
  have halphabetic := Text.isAlphabetic_of_isAlpha (by simpa using halpha)
  simp [Config.isMarker, halphabetic] at hm

/-- **A piece is read when it is an alternative**, as the body that it spells. -/
theorem bodyOfText_eq_ok {marker : Char} (hm : Config.isMarker marker = true) {p : Text}
    {body : List Symbol} :
    bodyOfText marker p = .ok body ↔ IsAlternative marker p ∧ body = spelledBody marker p := by
  by_cases hnil : p = []
  · simp [bodyOfText, IsAlternative, hnil]
  by_cases hone : p = [marker]
  · simp [bodyOfText, IsAlternative, spelledBody, hone, eq_comm (a := body)]
  by_cases hmem : marker ∈ p
  · have hletters : ¬ ∀ c ∈ p, c.isAlpha = true := fun h => by
      simpa [Config.isAlpha_of_isMarker hm] using h marker hmem
    simp [bodyOfText, IsAlternative, hnil, hone, hmem, hletters]
  · simp [bodyOfText, IsAlternative, spelledBody, hnil, hone, hmem, symbolsOfText_eq_ok_iff]

theorem rulesOfPieces_eq_ok {marker : Char} (hm : Config.isMarker marker = true) {head : Char}
    {ps : List Text} {rules : List Rule} :
    rulesOfPieces marker head ps = .ok rules ↔
      (∀ p ∈ ps, IsAlternative marker p) ∧
        rules = ps.map fun p => ⟨head, spelledBody marker p⟩ := by
  induction ps generalizing rules with
  | nil => simp [rulesOfPieces, eq_comm]
  | cons p ps ih =>
    rw [rulesOfPieces, List.forall_mem_cons, List.map_cons]
    cases hp : bodyOfText marker p with
    | error e =>
      have hno : ¬ IsAlternative marker p := fun h => by
        simp [(bodyOfText_eq_ok hm).2 ⟨h, rfl⟩] at hp
      simp [hno]
    | ok body =>
      obtain ⟨halternative, rfl⟩ := (bodyOfText_eq_ok hm).1 hp
      cases hps : rulesOfPieces marker head ps with
      | error e =>
        have hno : ¬ ∀ q ∈ ps, IsAlternative marker q := fun h => by
          simp [ih.2 ⟨h, rfl⟩] at hps
        simp [hno]
      | ok more =>
        obtain ⟨hall, rfl⟩ := ih.1 hps
        have hboth : IsAlternative marker p ∧ ∀ q ∈ ps, IsAlternative marker q :=
          ⟨halternative, hall⟩
        rw [Except.ok.injEq, and_iff_right hboth, eq_comm]

/-! ## Rule lines -/

theorem takeWhile_append_boundary {α : Type} {p : α → Bool} {l rest : List α}
    (hl : ∀ x ∈ l, p x = true) (hrest : ∀ x ∈ rest.head?, p x = false) :
    (l ++ rest).takeWhile p = l ∧ (l ++ rest).dropWhile p = rest := by
  rw [List.takeWhile_append_of_pos hl, List.dropWhile_append_of_pos hl]
  cases rest with
  | nil => simp
  | cons x rest => simp [hrest x rfl]

/-- **Where the arrow of a line is**: after a head without blanks, hyphens and angles, and after the
blanks that follow it. -/
theorem splitArrow?_eq_some {line before after : Text} :
    splitArrow? line = some (before, after) ↔
      before ≠ [] ∧ (∀ c ∈ before, isHeadChar c = true) ∧
        ∃ gap, (∀ c ∈ gap, Text.isBlank c = true) ∧
          line = before ++ (gap ++ '-' :: '>' :: after) := by
  constructor
  · intro h
    unfold splitArrow? at h
    split at h
    · rename_i c cs rest hbefore hafter
      cases h
      refine ⟨List.cons_ne_nil _ _, ?_, (line.dropWhile isHeadChar).takeWhile Text.isBlank, ?_, ?_⟩
      · intro x hx
        exact List.mem_takeWhile_imp (hbefore ▸ hx)
      · intro x hx
        exact List.mem_takeWhile_imp hx
      · rw [← hafter, List.takeWhile_append_dropWhile, ← hbefore, List.takeWhile_append_dropWhile]
    · cases h
  · rintro ⟨hne, hbefore, gap, hgap, rfl⟩
    have hboundary : ∀ x ∈ (gap ++ '-' :: '>' :: after).head?, isHeadChar x = false := by
      intro x hx
      cases gap with
      | nil =>
        obtain rfl : '-' = x := by simpa using hx
        decide
      | cons c gap =>
        obtain rfl : c = x := by simpa using hx
        simp [isHeadChar, hgap c (List.mem_cons_self ..)]
    obtain ⟨htake, hdrop⟩ := takeWhile_append_boundary hbefore hboundary
    have hhyphen : ∀ x ∈ ('-' :: '>' :: after).head?, Text.isBlank x = false := by
      intro x hx
      obtain rfl : '-' = x := by simpa using hx
      decide
    obtain ⟨-, hblank⟩ := takeWhile_append_boundary hgap hhyphen
    unfold splitArrow?
    rw [htake, hdrop, hblank]
    cases before with
    | nil => exact absurd rfl hne
    | cons c cs => rfl

theorem headOfText_eq_ok {t : Text} {c : Char} :
    headOfText t = .ok c ↔ t = [c] ∧ c.isUpper = true := by
  unfold headOfText
  split
  · rename_i d
    cases hd : d.isUpper <;> simp
    · rintro rfl
      simp [hd]
    · rintro rfl
      exact hd
  · rename_i hne
    simp only [reduceCtorEq, false_iff, not_and]
    rintro rfl
    exact absurd rfl (hne c)

theorem isHeadChar_of_isUpper {c : Char} (h : c.isUpper = true) : isHeadChar c = true := by
  have hletter : c.isAlpha = true := by simp [Char.isAlpha, h]
  have hhyphen : c ≠ '-' := by
    rintro rfl
    exact absurd hletter (by decide)
  have hangle : c ≠ '>' := by
    rintro rfl
    exact absurd hletter (by decide)
  simp [isHeadChar, Text.isBlank_of_isAlpha hletter, hhyphen, hangle]

/-- A rule line is an upper-case letter, perhaps blanks, an arrow, and a rest with one or more
pieces, all of them alternatives. -/
structure RuleLine (marker : Char) (line : Text) (head : Char) (rest : Text) : Prop where
  shape : ∃ gap, (∀ c ∈ gap, Text.isBlank c = true) ∧ line = head :: (gap ++ '-' :: '>' :: rest)
  head_isUpper : head.isUpper = true
  pieces_ne_nil : rest.pieces ≠ []
  alternatives : ∀ p ∈ rest.pieces, IsAlternative marker p

/-- A line is a rule line for some head and some rest. -/
def IsRuleLine (marker : Char) (line : Text) : Prop := ∃ head rest, RuleLine marker line head rest

/-- The head and the rest of a rule line are those that the arrow keeps apart. -/
theorem ruleLine_iff {marker head : Char} {line rest : Text} :
    RuleLine marker line head rest ↔
      splitArrow? line = some ([head], rest) ∧ head.isUpper = true ∧ rest.pieces ≠ [] ∧
        ∀ p ∈ rest.pieces, IsAlternative marker p := by
  rw [splitArrow?_eq_some]
  constructor
  · rintro ⟨⟨gap, hgap, hline⟩, hupper, hne, hall⟩
    refine ⟨⟨List.cons_ne_nil _ _, ?_, gap, hgap, hline⟩, hupper, hne, hall⟩
    exact List.forall_mem_singleton.2 (isHeadChar_of_isUpper hupper)
  · rintro ⟨⟨-, -, gap, hgap, hline⟩, hupper, hne, hall⟩
    exact ⟨⟨gap, hgap, hline⟩, hupper, hne, hall⟩

instance (marker : Char) (line : Text) : Decidable (IsRuleLine marker line) :=
  match h : splitArrow? line with
  | some ([head], rest) =>
    decidable_of_iff
      (head.isUpper = true ∧ rest.pieces ≠ [] ∧ ∀ p ∈ rest.pieces, IsAlternative marker p)
      (by simp [IsRuleLine, ruleLine_iff, h])
  | some ([], _) => .isFalse (by simp [IsRuleLine, ruleLine_iff, h])
  | some (_ :: _ :: _, _) => .isFalse (by simp [IsRuleLine, ruleLine_iff, h])
  | none => .isFalse (by simp [IsRuleLine, ruleLine_iff, h])

/-- **A line with content is read when it is a rule line**, as one rule for each of its pieces. -/
theorem rulesOfLine_eq_ok {marker : Char} (hm : Config.isMarker marker = true) {line : Text}
    {rules : List Rule} :
    rulesOfLine marker line = .ok rules ↔
      ∃ head rest, RuleLine marker line head rest ∧
        rules = rest.pieces.map fun p => ⟨head, spelledBody marker p⟩ := by
  simp only [ruleLine_iff]
  constructor
  · intro h
    unfold rulesOfLine at h
    split at h
    · cases h
    rename_i before after hsplit
    split at h
    · cases h
    rename_i head hhead
    obtain ⟨rfl, hupper⟩ := headOfText_eq_ok.1 hhead
    split at h
    · cases h
    rename_i hne
    obtain ⟨hall, hrules⟩ := (rulesOfPieces_eq_ok hm).1 h
    exact ⟨head, after, ⟨hsplit, hupper, hne, hall⟩, hrules⟩
  · rintro ⟨head, rest, ⟨hsplit, hupper, hne, hall⟩, hrules⟩
    have hhead : headOfText [head] = .ok head := headOfText_eq_ok.2 ⟨rfl, hupper⟩
    have hpieces := (rulesOfPieces_eq_ok hm).2 ⟨hall, hrules⟩
    rw [rulesOfLine, hsplit]
    simp only [hhead]
    exact hpieces

theorem IsRuleLine.isContent {marker : Char} {line : Text} (h : IsRuleLine marker line) :
    isContent line = true := by
  obtain ⟨head, rest, h⟩ := h
  obtain ⟨gap, -, rfl⟩ := h.shape
  have hne : head ≠ '#' := by
    rintro rfl
    exact absurd h.head_isUpper (by decide)
  simp [Chomsky.isContent, hne]

/-! ## Lines -/

/-- The rules that a line spells: none where it is blank or a comment, one for each piece where it
is a rule line. -/
inductive SpellsLine (marker : Char) : Text → List Rule → Prop where
  | blank : SpellsLine marker [] []
  | comment (text : Text) : SpellsLine marker ('#' :: text) []
  | rules {line : Text} {head : Char} {rest : Text} (h : RuleLine marker line head rest) :
      SpellsLine marker line (rest.pieces.map fun p => ⟨head, spelledBody marker p⟩)

/-- A line of a grammar is blank, a comment or a rule line. -/
def IsGrammarLine (marker : Char) (line : Text) : Prop :=
  line = [] ∨ (∃ text, line = '#' :: text) ∨ IsRuleLine marker line

instance (marker : Char) (line : Text) : Decidable (IsGrammarLine marker line) :=
  decidable_of_iff (line = [] ∨ line.head? = some '#' ∨ IsRuleLine marker line)
    (by cases line <;> simp [IsGrammarLine])

/-- The lines of a grammar are those that spell rules, be it none. -/
theorem exists_spellsLine_iff {marker : Char} {line : Text} :
    (∃ rules, SpellsLine marker line rules) ↔ IsGrammarLine marker line := by
  constructor
  · rintro ⟨rules, h⟩
    cases h with
    | blank => exact .inl rfl
    | comment text => exact .inr (.inl ⟨text, rfl⟩)
    | rules h => exact .inr (.inr ⟨_, _, h⟩)
  · rintro (rfl | ⟨text, rfl⟩ | ⟨head, rest, h⟩)
    · exact ⟨[], .blank⟩
    · exact ⟨[], .comment text⟩
    · exact ⟨_, .rules h⟩

/-- Blank lines and comments spell no rules, and lines with content what is read of them. -/
theorem spellsLine_iff {marker : Char} (hm : Config.isMarker marker = true) {line : Text}
    {rules : List Rule} :
    SpellsLine marker line rules ↔
      if isContent line then rulesOfLine marker line = .ok rules else rules = [] := by
  constructor
  · intro h
    cases h with
    | blank => rfl
    | comment text => rfl
    | rules h =>
      rw [if_pos (IsRuleLine.isContent ⟨_, _, h⟩)]
      exact (rulesOfLine_eq_ok hm).2 ⟨_, _, h, rfl⟩
  · intro h
    split at h
    · obtain ⟨head, rest, hline, rfl⟩ := (rulesOfLine_eq_ok hm).1 h
      exact .rules hline
    · rename_i hcontent
      subst h
      cases line with
      | nil => exact .blank
      | cons c text =>
        obtain rfl : c = '#' := by simpa [isContent] using hcontent
        exact .comment text

theorem exists_forall₂_iff {α β : Type} {R : α → β → Prop} {l : List α} :
    (∃ l', List.Forall₂ R l l') ↔ ∀ a ∈ l, ∃ b, R a b := by
  induction l with
  | nil => simp
  | cons a l ih =>
    rw [List.forall_mem_cons, ← ih]
    constructor
    · rintro ⟨_, _ | ⟨ha, hl⟩⟩
      exact ⟨⟨_, ha⟩, _, hl⟩
    · rintro ⟨⟨b, ha⟩, l', hl⟩
      exact ⟨b :: l', .cons ha hl⟩

section Lines

variable {marker : Char} {line : Text} {rules : List Rule} {rest lines : List Text} {n : Nat}

/-- A line that spells rules puts them before the rules of the lines after it. -/
theorem rulesOfLines_cons_of_spells (hm : Config.isMarker marker = true)
    (h : SpellsLine marker line rules) :
    rulesOfLines marker n (line :: rest) =
      match rulesOfLines marker (n + 1) rest with
      | .error e => .error e
      | .ok more => .ok (rules ++ more) := by
  rw [spellsLine_iff hm] at h
  rw [rulesOfLines]
  split at h
  · rename_i hcontent
    cases rulesOfLines marker (n + 1) rest <;> simp only [hcontent, if_true, h]
  · rename_i hcontent
    rw [if_neg hcontent, h]
    cases rulesOfLines marker (n + 1) rest <;> rfl

/-- A line that spells nothing is reported, whatever comes after it. -/
theorem rulesOfLines_cons_of_not_grammarLine (hm : Config.isMarker marker = true)
    (h : ¬ IsGrammarLine marker line) :
    ∃ reason, ∀ n rest,
      rulesOfLines marker n (line :: rest) = .error (.malformedRule n reason) := by
  simp only [← exists_spellsLine_iff, spellsLine_iff hm, not_exists] at h
  split at h
  · rename_i hcontent
    cases hline : rulesOfLine marker line with
    | error reason => exact ⟨reason, fun n rest => by rw [rulesOfLines, if_pos hcontent, hline]⟩
    | ok rules => exact absurd hline (h rules)
  · exact absurd rfl (h [])

/-- **Lines that spell rules are read**, as their rules in order. -/
theorem rulesOfLines_of_spells (hm : Config.isMarker marker = true) {parts : List (List Rule)}
    (h : List.Forall₂ (SpellsLine marker) lines parts) (n : Nat) :
    rulesOfLines marker n lines = .ok parts.flatten := by
  induction h generalizing n with
  | nil => rfl
  | cons hline _ ih => rw [rulesOfLines_cons_of_spells hm hline, ih, List.flatten_cons]

/-- **The first line that spells nothing is reported** under its number. -/
theorem rulesOfLines_of_not_grammarLine (hm : Config.isMarker marker = true)
    {before : List Text} (hbefore : ∀ l ∈ before, IsGrammarLine marker l)
    (hline : ¬ IsGrammarLine marker line) (after : List Text) (n : Nat) :
    ∃ reason, rulesOfLines marker n (before ++ line :: after) =
      .error (.malformedRule (n + before.length) reason) := by
  induction before generalizing n with
  | nil =>
    obtain ⟨reason, h⟩ := rulesOfLines_cons_of_not_grammarLine hm hline
    exact ⟨reason, h n after⟩
  | cons l before ih =>
    obtain ⟨hl, hbefore⟩ := List.forall_mem_cons.1 hbefore
    obtain ⟨rules, hl⟩ := exists_spellsLine_iff.2 hl
    obtain ⟨reason, h⟩ := ih hbefore (n + 1)
    refine ⟨reason, ?_⟩
    rw [List.cons_append, rulesOfLines_cons_of_spells hm hl, h, List.length_cons, Nat.add_assoc,
      Nat.add_comm 1]

/-- Lines are read when each of them spells rules. -/
theorem rulesOfLines_eq_ok (hm : Config.isMarker marker = true) :
    rulesOfLines marker n lines = .ok rules ↔
      ∃ parts, List.Forall₂ (SpellsLine marker) lines parts ∧ rules = parts.flatten := by
  constructor
  · intro h
    induction lines generalizing n rules with
    | nil =>
      cases h
      exact ⟨[], .nil, rfl⟩
    | cons line lines ih =>
      by_cases hline : IsGrammarLine marker line
      · obtain ⟨first, hfirst⟩ := exists_spellsLine_iff.2 hline
        rw [rulesOfLines_cons_of_spells hm hfirst] at h
        split at h
        · cases h
        · rename_i more hmore
          cases h
          obtain ⟨parts, hparts, rfl⟩ := ih hmore
          exact ⟨first :: parts, .cons hfirst hparts, rfl⟩
      · obtain ⟨reason, hreason⟩ := rulesOfLines_cons_of_not_grammarLine hm hline
        rw [hreason] at h
        cases h
  · rintro ⟨parts, hparts, rfl⟩
    exact rulesOfLines_of_spells hm hparts n

end Lines

/-! ## The lines of a grammar -/

/-- The lines before the first blank one that comes after a rule line; all of them if there is
none. -/
def grammarLines (marker : Char) (lines : List Text) : List Text :=
  beforeBreak (fun line => IsRuleLine marker line) List.isEmpty lines

/-- The lines that are read are those before the first blank one after a line with content. -/
theorem block_eq (lines : List Text) : block lines = beforeBreak isContent List.isEmpty lines := by
  induction lines with
  | nil => rfl
  | cons line lines ih =>
    rw [block, beforeBreak_cons, ih]
    split
    · rename_i hcontent
      cases line with
      | nil => cases hcontent
      | cons c line => rfl
    · rfl

section Block

variable {marker : Char}

theorem grammarLines_cons {line : Text} {lines : List Text} :
    grammarLines marker (line :: lines) =
      if IsRuleLine marker line then line :: lines.takeWhile (!·.isEmpty)
      else line :: grammarLines marker lines := by
  unfold grammarLines
  rw [beforeBreak_cons]
  by_cases hrule : IsRuleLine marker line
  · have hne : line ≠ [] := by
      rintro rfl
      cases hrule.isContent
    rw [if_pos (decide_eq_true hrule), if_pos hrule, List.takeWhile_cons_of_pos]
    simpa using hne
  · rw [if_neg (by simpa using hrule), if_neg hrule]

/-- The two breaks differ only where the first line with content is no rule line, and that line is
reported in both cases. -/
theorem rulesOfLines_block (hm : Config.isMarker marker = true) (n : Nat) (lines : List Text) :
    rulesOfLines marker n (block lines) = rulesOfLines marker n (grammarLines marker lines) := by
  induction lines generalizing n with
  | nil => rfl
  | cons line lines ih =>
    rw [block, grammarLines_cons]
    by_cases hline : IsGrammarLine marker line
    · by_cases hcontent : isContent line = true
      · have hrule : IsRuleLine marker line := by
          rcases hline with rfl | ⟨text, rfl⟩ | hrule
          · cases hcontent
          · cases hcontent
          · exact hrule
        rw [if_pos hcontent, if_pos hrule]
      · have hrule : ¬ IsRuleLine marker line := fun h => hcontent h.isContent
        rw [if_neg hcontent, if_neg hrule, rulesOfLines, rulesOfLines, if_neg hcontent,
          if_neg hcontent, ih]
    · obtain ⟨reason, hreason⟩ := rulesOfLines_cons_of_not_grammarLine hm hline
      split <;> split <;> simp only [hreason]

/-- A blank line at the end changes nothing. -/
theorem rulesOfLines_block_append_blank (n : Nat) (lines : List Text) :
    rulesOfLines marker n (block (lines ++ [[]])) = rulesOfLines marker n (block lines) := by
  induction lines generalizing n with
  | nil => rfl
  | cons line lines ih =>
    rw [List.cons_append, block, block]
    split
    · have htake : (lines ++ [[]]).takeWhile (!·.isEmpty) = lines.takeWhile (!·.isEmpty) := by
        rw [List.takeWhile_append]
        split
        · rename_i hlength
          rw [(List.takeWhile_prefix _).eq_of_length hlength]
          simp
        · rfl
      rw [htake]
    · rename_i hcontent
      rw [rulesOfLines, rulesOfLines, if_neg hcontent, if_neg hcontent, ih]

theorem rulesOfLines_block_dropBlankTail (n : Nat) (lines : List Text) :
    rulesOfLines marker n (block (dropBlankTail lines)) = rulesOfLines marker n (block lines) := by
  induction lines using List.reverseRecOn with
  | nil => rfl
  | append_singleton lines line ih =>
    cases line with
    | nil => rw [dropBlankTail_append_blank, ih, rulesOfLines_block_append_blank]
    | cons c line => rw [dropBlankTail, List.rdropWhile_concat_neg _ _ _ (by simp)]

end Block

namespace Grammar

/-- Texts with the same lines, but for blank ones at the end, spell the same grammar. -/
theorem parse_congr {c : Config} {s t : Text} (h : dropBlankTail s.lines = dropBlankTail t.lines) :
    parse c s = parse c t := by
  unfold parse
  rw [← rulesOfLines_block_dropBlankTail 1 s.lines, h, rulesOfLines_block_dropBlankTail]

/-- Of a text only the lines count that it is cut into, trimmed, up to the break. -/
theorem parse_congr_of_cut {c : Config} {s t : Text}
    (h : block ((cutAfter (· == '\n') s).map Text.trim) =
      block ((cutAfter (· == '\n') t).map Text.trim)) :
    parse c s = parse c t := by
  unfold parse
  rw [← rulesOfLines_block_dropBlankTail 1 s.lines, ← rulesOfLines_block_dropBlankTail 1 t.lines,
    Text.dropBlankTail_lines, Text.dropBlankTail_lines, rulesOfLines_block_dropBlankTail,
    rulesOfLines_block_dropBlankTail, Text.map_trim_physicalLines, Text.map_trim_physicalLines, h]

/-- **Nothing but the grammar lines counts**, and of them nothing but what is left when they are
trimmed. -/
theorem parse_eq {c : Config} (hc : c.validate = .ok ()) (t : Text) :
    parse c t =
      match rulesOfLines c.marker 1 (grammarLines c.marker (t.physicalLines.map Text.trim)) with
      | .error e => .error e
      | .ok rules => .ok ⟨rules, c.start, c.marker⟩ := by
  have hm := (Config.validate_eq_ok.1 hc).2
  rw [parse, hc, ← rulesOfLines_block_dropBlankTail, Text.dropBlankTail_lines,
    rulesOfLines_block_dropBlankTail, rulesOfLines_block hm]
  rfl

/-- A text is read when its grammar lines spell rules, and as these rules. -/
theorem parse_eq_ok {c : Config} (hc : c.validate = .ok ()) {t : Text} {g : Grammar} :
    parse c t = .ok g ↔
      g.start = c.start ∧ g.marker = c.marker ∧
        ∃ parts, List.Forall₂ (SpellsLine c.marker)
          (grammarLines c.marker (t.physicalLines.map Text.trim)) parts ∧
            g.rules = parts.flatten := by
  rw [parse_eq hc, ← rulesOfLines_eq_ok (Config.validate_eq_ok.1 hc).2 (n := 1)]
  split
  · rename_i e he
    simp [he]
  · rename_i rules hrules
    rw [hrules]
    constructor
    · intro h
      cases h
      exact ⟨rfl, rfl, rfl⟩
    · rintro ⟨hstart, hmarker, h⟩
      obtain ⟨grules, gstart, gmarker⟩ := g
      cases h
      rw [← hstart, ← hmarker]

/-- **A text spells a grammar when each of its grammar lines is blank, a comment or a rule line.**
The grammar has the rules that these lines spell, in order.  Otherwise the first line that is none
of these is reported under its number. -/
theorem parse_line_grammar {c : Config} (hc : c.validate = .ok ()) (t : Text) :
    let lines := grammarLines c.marker (t.physicalLines.map Text.trim)
    ((∃ g, parse c t = .ok g) ↔ ∀ line ∈ lines, IsGrammarLine c.marker line) ∧
    (∀ g, parse c t = .ok g ↔
      g.start = c.start ∧ g.marker = c.marker ∧
        ∃ parts, List.Forall₂ (SpellsLine c.marker) lines parts ∧ g.rules = parts.flatten) ∧
    ∀ before line after, lines = before ++ line :: after →
      (∀ l ∈ before, IsGrammarLine c.marker l) → ¬ IsGrammarLine c.marker line →
        ∃ reason, parse c t = .error (.malformedRule (before.length + 1) reason) := by
  refine ⟨?_, fun g => parse_eq_ok hc, ?_⟩
  · simp only [← exists_spellsLine_iff, ← exists_forall₂_iff]
    constructor
    · rintro ⟨g, hg⟩
      obtain ⟨-, -, parts, hparts, -⟩ := (parse_eq_ok hc).1 hg
      exact ⟨parts, hparts⟩
    · rintro ⟨parts, hparts⟩
      exact ⟨⟨parts.flatten, c.start, c.marker⟩,
        (parse_eq_ok hc).2 ⟨rfl, rfl, parts, hparts, rfl⟩⟩
  · intro before line after hlines hbefore hline
    have hm := (Config.validate_eq_ok.1 hc).2
    obtain ⟨reason, h⟩ := rulesOfLines_of_not_grammarLine hm hbefore hline after 1
    refine ⟨reason, ?_⟩
    rw [parse_eq hc, hlines, h, Nat.add_comm]

/-- A marker that is also half of the arrow. -/
def angled : Config where
  marker := '>'

/-- Rules after a blank line and a comment, with both kinds of line ends, and something after the
blank line that ends them. -/
def angledText : Text := "\n #\r\nS ->>|aSb\t> \r\nT->S S\n \r\nnot read".toList

/-- The last line has an arrow and nothing after it. -/
def armless : Text := "#\r\n\nS->a >\n T -> | \n".toList

theorem parse_line_grammar_angled :
    angled.validate = .ok () ∧
      grammarLines '>' (angledText.physicalLines.map Text.trim) =
        ["".toList, "#".toList, "S ->>|aSb\t>".toList, "T->S S".toList] ∧
      parse angled angledText = .ok ⟨[⟨'S', [.null]⟩,
        ⟨'S', [.terminal 'a', .nonterminal 'S', .terminal 'b']⟩, ⟨'S', [.null]⟩,
        ⟨'T', [.nonterminal 'S']⟩, ⟨'T', [.nonterminal 'S']⟩], 'S', '>'⟩ ∧
      ∃ reason, parse angled armless = .error (.malformedRule 4 reason) := by
  have hlines : grammarLines '>' (angledText.physicalLines.map Text.trim) =
      ["".toList, "#".toList, "S ->>|aSb\t>".toList, "T->S S".toList] := by decide
  obtain ⟨-, hspells, -⟩ := parse_line_grammar (c := angled) rfl angledText
  obtain ⟨-, -, hfault⟩ := parse_line_grammar (c := angled) rfl armless
  refine ⟨rfl, hlines, (hspells _).2 ⟨rfl, rfl, ?_⟩, ?_⟩
  · have hS : RuleLine '>' "S ->>|aSb\t>".toList 'S' ">|aSb\t>".toList :=
      ruleLine_iff.2 (by decide)
    have hT : RuleLine '>' "T->S S".toList 'T' "S S".toList := ruleLine_iff.2 (by decide)
    have hparts : List.Forall₂ (SpellsLine '>')
        ["".toList, "#".toList, "S ->>|aSb\t>".toList, "T->S S".toList] _ :=
      .cons .blank (.cons (.comment []) (.cons (.rules hS) (.cons (.rules hT) .nil)))
    exact ⟨_, hlines.symm ▸ hparts, by decide⟩
  · exact hfault ["#".toList, [], "S->a >".toList] "T -> |".toList [] (by decide) (by decide)
      (by decide)

end Grammar

end Chomsky
