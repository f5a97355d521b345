import Chomsky.Proofs.Building

/-!
# Rules that are written down, and rules that are added

There are two ways to give rules.  A text has a line for each head, with an arrow and the
alternatives after it; it is cut into lines, each line at its arrow and at its bars, and what is
found makes rules that nobody checks again.  A builder is given each head and its alternatives
apart, and each rule is checked when it is made.  Both ways take the same entries, as the same rules
in the same order, and both stop at the same alternative for the same reason.  The text knows on
which line that is; the builder has no lines.

* `Entry` — a head and its alternatives.
* `Entry.line`, `Entry.step` — an entry as a line of text, and as a call on a builder.
* `Entry.Writable` — what can be told apart on a line.
* `Entry.Refused` — an entry with an alternative that is not admissible, and why the first such one
  is not.

Principal results: `Text.pieces_intercalate` — the alternatives on a line are found again;
`Entry.rulesOfLines_eq`, `Entry.build_eq` and `Entry.rulesOfLines_refused`, `Entry.build_refused` —
what each way gives; `Entry.exists_refused` — where the first fault is; `Entry.parse_agrees` — both
ways agree.
-/

namespace Chomsky

/-! ## Alternatives between bars -/

namespace Text

variable {t : Text} {ts : List Text}

/-- What stands between two alternatives. -/
def bar : Text := [' ', '|', ' ']

theorem pieces_append_cons {c : Char} (hne : t ≠ []) (ht : ∀ d ∈ t, isSeparator d = false)
    (hc : isSeparator c = true) (rest : Text) : pieces (t ++ c :: rest) = t :: pieces rest := by
  rw [pieces, List.splitOnP_append_cons_of_forall_mem ht c hc, List.filter_cons_of_pos (by simpa)]
  rfl

/-- **Alternatives between bars are the pieces of the text.** -/
theorem pieces_intercalate (hne : ∀ t ∈ ts, t ≠ [])
    (hsep : ∀ t ∈ ts, ∀ c ∈ t, isSeparator c = false) : pieces (bar.intercalate ts) = ts := by
  induction ts with
  | nil => rfl
  | cons t ts ih =>
    obtain ⟨ht, hne⟩ := List.forall_mem_cons.1 hne
    obtain ⟨htsep, hsep⟩ := List.forall_mem_cons.1 hsep
    cases ts with
    | nil => rw [List.intercalate_singleton, pieces_of_forall ht htsep]
    | cons u us =>
      have hbar : bar.intercalate (t :: u :: us) =
          t ++ ' ' :: '|' :: ' ' :: bar.intercalate (u :: us) := by
        rw [List.intercalate_cons_cons, List.append_assoc]
        rfl
      rw [hbar, pieces_append_cons ht htsep (by decide), pieces_cons_of_isSeparator (by decide),
        pieces_cons_of_isSeparator (by decide), ih hne hsep]

/-- The last character between bars belongs to an alternative. -/
theorem exists_getLast?_intercalate (hts : ts ≠ []) (hne : ∀ t ∈ ts, t ≠ []) :
    bar.intercalate ts ≠ [] ∧ ∃ t ∈ ts, (bar.intercalate ts).getLast? = t.getLast? := by
  induction ts with
  | nil => exact absurd rfl hts
  | cons t ts ih =>
    obtain ⟨ht, hne⟩ := List.forall_mem_cons.1 hne
    cases ts with
    | nil =>
      rw [List.intercalate_singleton]
      exact ⟨ht, t, List.mem_cons_self .., rfl⟩
    | cons u us =>
      obtain ⟨hrest, v, hv, hlast⟩ := ih (List.cons_ne_nil _ _) hne
      rw [List.intercalate_cons_cons, List.getLast?_append_of_ne_nil _ hrest]
      exact ⟨by simp [ht], v, List.mem_cons_of_mem _ hv, hlast⟩

theorem mem_intercalate {c : Char} (hc : c ∈ bar.intercalate ts) : c ∈ bar ∨ ∃ t ∈ ts, c ∈ t := by
  induction ts with
  | nil => cases hc
  | cons t ts ih =>
    cases ts with
    | nil =>
      rw [List.intercalate_singleton] at hc
      exact .inr ⟨t, List.mem_cons_self .., hc⟩
    | cons u us =>
      rw [List.intercalate_cons_cons, List.mem_append, List.mem_append] at hc
      rcases hc with (hc | hc) | hc
      · exact .inr ⟨t, List.mem_cons_self .., hc⟩
      · exact .inl hc
      · rcases ih hc with hbar | ⟨v, hv, hcv⟩
        · exact .inl hbar
        · exact .inr ⟨v, List.mem_cons_of_mem _ hv, hcv⟩

theorem dropLineEnd_append_feed (ht : '\n' ∉ t) (hreturn : '\r' ∉ t) :
    dropLineEnd (t ++ ['\n']) = t := by
  induction t with
  | nil => rfl
  | cons c t ih =>
    simp only [List.mem_cons, not_or] at ht hreturn
    rw [List.cons_append, dropLineEnd, ih ht.2 hreturn.2]
    · intro _ htail
      simp at htail
    · rintro rfl
      exact absurd rfl hreturn.1

end Text

/-! ## Entries -/

/-- A head and its alternatives. -/
structure Entry where
  head : Char
  alternatives : List Text
  deriving DecidableEq, Repr

namespace Entry

/-- An entry as a line of text. -/
def line (e : Entry) : Text :=
  e.head :: ' ' :: '-' :: '>' :: ' ' :: Text.bar.intercalate e.alternatives

/-- An entry as a call on a builder. -/
def step (e : Entry) : Builder.Step := .addRules e.head e.alternatives

/-- The lines of the entries, each with its end. -/
def text (entries : List Entry) : Text := entries.flatMap fun e => e.line ++ ['\n']

/-- The head is an upper-case letter, and there is at least one alternative; an alternative is any
text that is not empty and has no blanks and no bars. -/
structure Writable (e : Entry) : Prop where
  head_isUpper : e.head.isUpper = true
  alternatives_ne_nil : e.alternatives ≠ []
  ne_nil : ∀ t ∈ e.alternatives, t ≠ []
  isSeparator : ∀ t ∈ e.alternatives, ∀ c ∈ t, Text.isSeparator c = false

instance (e : Entry) : Decidable e.Writable :=
  decidable_of_iff (e.head.isUpper = true ∧ e.alternatives ≠ [] ∧ (∀ t ∈ e.alternatives, t ≠ []) ∧
      ∀ t ∈ e.alternatives, t.all (!Text.isSeparator ·) = true)
    (by
      simp only [List.all_eq_true, Bool.not_eq_true']
      exact ⟨fun ⟨hhead, hne, hts, hsep⟩ => ⟨hhead, hne, hts, hsep⟩,
        fun ⟨hhead, hne, hts, hsep⟩ => ⟨hhead, hne, hts, hsep⟩⟩)

/-- All alternatives are the marker alone, or letters. -/
def Admissible (marker : Char) (e : Entry) : Prop := ∀ t ∈ e.alternatives, IsAlternative marker t

instance (marker : Char) (e : Entry) : Decidable (e.Admissible marker) :=
  inferInstanceAs (Decidable (∀ t ∈ e.alternatives, IsAlternative marker t))

/-- The rules that the alternatives spell. -/
def rules (marker : Char) (e : Entry) : List Rule :=
  e.alternatives.map fun t => ⟨e.head, spelledBody marker t⟩

/-- The first alternative that is not admissible is no body for the given reason. -/
def Refused (marker : Char) (e : Entry) (reason : Malformation) : Prop :=
  ∃ before t after, e.alternatives = before ++ t :: after ∧ (∀ u ∈ before, IsAlternative marker u) ∧
    bodyOfText marker t = .error reason

section Faults

variable {marker head : Char} {e : Entry} {entries : List Entry} {reason : Malformation}

/-- Where not all is as it should be, something comes first that is not. -/
theorem exists_first {α : Type} {p : α → Prop} [DecidablePred p] {l : List α}
    (h : ¬ ∀ a ∈ l, p a) :
    ∃ before a after, l = before ++ a :: after ∧ (∀ b ∈ before, p b) ∧ ¬ p a := by
  cases hfind : l.find? fun a => ¬ p a with
  | none =>
    have hall := List.find?_eq_none.1 hfind
    exact absurd (fun a ha => by simpa using hall a ha) h
  | some a =>
    obtain ⟨ha, before, after, hl, hbefore⟩ := List.find?_eq_some_iff_append.1 hfind
    exact ⟨before, a, after, hl, fun b hb => by simpa using hbefore b hb, by simpa using ha⟩

/-- **An entry is refused when it is not admissible.** -/
theorem exists_refused_iff (hm : Config.isMarker marker = true) :
    (∃ reason, e.Refused marker reason) ↔ ¬ e.Admissible marker := by
  constructor
  · rintro ⟨reason, before, t, after, hsplit, -, ht⟩ hall
    have hbody := (bodyOfText_eq_ok hm).2 ⟨hall t (by simp [hsplit]), rfl⟩
    cases hbody.symm.trans ht
  · intro hno
    obtain ⟨before, t, after, hsplit, hbefore, hrefused⟩ := exists_first hno
    cases ht : bodyOfText marker t with
    | ok body => exact absurd ((bodyOfText_eq_ok hm).1 ht).1 hrefused
    | error reason => exact ⟨reason, before, t, after, hsplit, hbefore, ht⟩

/-- **Of entries that are not all admissible one is the first that is refused.** -/
theorem exists_refused (hm : Config.isMarker marker = true)
    (h : ¬ ∀ e ∈ entries, e.Admissible marker) :
    ∃ before bad after reason, entries = before ++ bad :: after ∧
      (∀ e ∈ before, e.Admissible marker) ∧ bad.Refused marker reason := by
  obtain ⟨before, bad, after, hsplit, hbefore, hbad⟩ := exists_first h
  obtain ⟨reason, hreason⟩ := (exists_refused_iff hm).2 hbad
  exact ⟨before, bad, after, reason, hsplit, hbefore, hreason⟩

end Faults

/-! ## Entries as lines -/

section Lines

variable {marker : Char} {e : Entry} {entries before after : List Entry} {reason : Malformation}
  {n : Nat}

theorem Writable.pieces (he : e.Writable) :
    Text.pieces (' ' :: Text.bar.intercalate e.alternatives) = e.alternatives := by
  rw [Text.pieces_cons_of_isSeparator (by decide),
    Text.pieces_intercalate he.ne_nil he.isSeparator]

/-- The arrow of a line stands after the head, and the alternatives after the arrow. -/
theorem Writable.splitArrow?_line (he : e.Writable) :
    splitArrow? e.line = some ([e.head], ' ' :: Text.bar.intercalate e.alternatives) := by
  refine splitArrow?_eq_some.2 ⟨List.cons_ne_nil _ _, ?_, [' '], ?_, rfl⟩
  · exact List.forall_mem_singleton.2 (isHeadChar_of_isUpper he.head_isUpper)
  · exact List.forall_mem_singleton.2 (by decide)

/-- The line of an admissible entry spells its rules. -/
theorem Writable.spellsLine (he : e.Writable) (hadm : e.Admissible marker) :
    SpellsLine marker e.line (e.rules marker) := by
  have hline : RuleLine marker e.line e.head (' ' :: Text.bar.intercalate e.alternatives) := by
    refine ruleLine_iff.2 ⟨he.splitArrow?_line, he.head_isUpper, ?_⟩
    rw [he.pieces]
    exact ⟨he.alternatives_ne_nil, hadm⟩
  have hspells := SpellsLine.rules hline
  rwa [he.pieces] at hspells

theorem rulesOfPieces_refused (hm : Config.isMarker marker = true) (head : Char)
    (h : e.Refused marker reason) : rulesOfPieces marker head e.alternatives = .error reason := by
  obtain ⟨before, t, after, hsplit, hbefore, ht⟩ := h
  rw [hsplit]
  clear hsplit
  induction before with
  | nil => rw [List.nil_append, rulesOfPieces, ht]
  | cons u before ih =>
    obtain ⟨hu, hbefore⟩ := List.forall_mem_cons.1 hbefore
    rw [List.cons_append, rulesOfPieces, (bodyOfText_eq_ok hm).2 ⟨hu, rfl⟩, ih hbefore]

/-- The line of an entry that is refused is refused for the same reason. -/
theorem Writable.rulesOfLine_line (he : e.Writable) (hm : Config.isMarker marker = true)
    (h : e.Refused marker reason) : rulesOfLine marker e.line = .error reason := by
  have hhead : headOfText [e.head] = .ok e.head := headOfText_eq_ok.2 ⟨rfl, he.head_isUpper⟩
  have hpieces := rulesOfPieces_refused hm e.head h
  rw [rulesOfLine, he.splitArrow?_line]
  simp only [hhead, he.pieces]
  split
  · exact absurd ‹_› he.alternatives_ne_nil
  · exact hpieces

theorem Writable.isContent_line (he : e.Writable) : isContent e.line = true := by
  have hne : e.head ≠ '#' := by
    intro h
    exact absurd (h ▸ he.head_isUpper) (by decide)
  simp [line, isContent, hne]

/-- **The lines of admissible entries are read** as their rules. -/
theorem rulesOfLines_eq (hm : Config.isMarker marker = true) (hentries : ∀ e ∈ entries, e.Writable)
    (hadm : ∀ e ∈ entries, e.Admissible marker) :
    rulesOfLines marker n (entries.map line) = .ok (entries.flatMap (rules marker)) := by
  have hspells : List.Forall₂ (SpellsLine marker) (entries.map line)
      (entries.map (rules marker)) := by
    rw [List.forall₂_map_left_iff, List.forall₂_map_right_iff, List.forall₂_same]
    exact fun e he => (hentries e he).spellsLine (hadm e he)
  rw [rulesOfLines_of_spells hm hspells, List.flatMap_def]

/-- **The first entry that is refused is reported** under the number of its line. -/
theorem rulesOfLines_refused (hm : Config.isMarker marker = true) {bad : Entry}
    (hentries : ∀ e ∈ before ++ bad :: after, e.Writable) (hadm : ∀ e ∈ before, e.Admissible marker)
    (hbad : bad.Refused marker reason) :
    rulesOfLines marker n ((before ++ bad :: after).map line) =
      .error (.malformedRule (n + before.length) reason) := by
  induction before generalizing n with
  | nil =>
    have hwritable : bad.Writable := hentries bad (List.mem_cons_self ..)
    rw [List.nil_append, List.map_cons, rulesOfLines, if_pos hwritable.isContent_line,
      hwritable.rulesOfLine_line hm hbad]
    rfl
  | cons e before ih =>
    obtain ⟨he, hentries⟩ := List.forall_mem_cons.1 hentries
    obtain ⟨headm, hadm⟩ := List.forall_mem_cons.1 hadm
    rw [List.cons_append, List.map_cons, rulesOfLines_cons_of_spells hm (he.spellsLine headm),
      ih hentries hadm, List.length_cons, Nat.add_assoc, Nat.add_comm 1]

/-- No blank stands at an end of a line. -/
theorem Writable.trim_line (he : e.Writable) : Text.trim e.line = e.line := by
  refine Text.trim_eq_self (fun c hc => ?_) fun c hc => ?_
  · obtain rfl : e.head = c := by simpa [line] using hc
    exact Text.isBlank_of_isAlpha (by simp [Char.isAlpha, he.head_isUpper])
  · obtain ⟨hne, t, ht, hlast⟩ :=
      Text.exists_getLast?_intercalate he.alternatives_ne_nil he.ne_nil
    have hline : e.line.getLast? = t.getLast? := by
      rw [← hlast]
      exact List.getLast?_append_of_ne_nil [e.head, ' ', '-', '>', ' '] hne
    have hsep := he.isSeparator t ht c (List.mem_of_mem_getLast? (hline ▸ hc))
    simp only [Text.isSeparator, Bool.or_eq_false_iff] at hsep
    exact hsep.2

/-- The only blank on a line is the space. -/
theorem Writable.eq_space_of_isBlank (he : e.Writable) {c : Char} (hc : c ∈ e.line)
    (hblank : Text.isBlank c = true) : c = ' ' := by
  have hhyphen : Text.isBlank '-' = false := rfl
  have hangle : Text.isBlank '>' = false := rfl
  have hbar : Text.isBlank '|' = false := rfl
  simp only [line, List.mem_cons] at hc
  rcases hc with rfl | rfl | rfl | rfl | rfl | hc
  · have hletter := Text.isBlank_of_isAlpha (c := e.head) (by simp [Char.isAlpha, he.head_isUpper])
    cases hblank.symm.trans hletter
  · rfl
  · cases hblank.symm.trans hhyphen
  · cases hblank.symm.trans hangle
  · rfl
  · rcases Text.mem_intercalate hc with hc | ⟨t, ht, hct⟩
    · simp only [Text.bar, List.mem_cons, List.not_mem_nil, or_false] at hc
      rcases hc with rfl | rfl | rfl
      · rfl
      · cases hblank.symm.trans hbar
      · rfl
    · have hsep := he.isSeparator t ht c hct
      simp [Text.isSeparator, hblank] at hsep

/-- **The lines of the text are the lines of the entries.** -/
theorem physicalLines_text (hentries : ∀ e ∈ entries, e.Writable) :
    (text entries).physicalLines = entries.map line := by
  induction entries with
  | nil => rfl
  | cons e entries ih =>
    obtain ⟨he, hentries⟩ := List.forall_mem_cons.1 hentries
    have hfeed : ∀ c ∈ e.line, (c == '\n') = false := by
      intro c hc
      refine beq_eq_false_iff_ne.2 ?_
      rintro rfl
      exact absurd (he.eq_space_of_isBlank hc (by decide)) (by decide)
    have hreturn : '\r' ∉ e.line := fun hc =>
      absurd (he.eq_space_of_isBlank hc (by decide)) (by decide)
    have hnofeed : '\n' ∉ e.line := fun hc => by simpa using hfeed '\n' hc
    have htext : text (e :: entries) = e.line ++ '\n' :: text entries := by simp [text]
    rw [htext, Text.physicalLines, cutAfter_append_cons hfeed rfl, List.map_cons,
      Text.dropLineEnd_append_feed hnofeed hreturn, List.map_cons]
    exact congrArg _ (ih hentries)

end Lines

/-! ## Entries as calls -/

section Calls

variable {c : Config} {start marker : Char} {e : Entry} {entries before after : List Entry}
  {reason : Malformation}

/-- The calls that give the entries to a builder, after a configuration. -/
def steps (c : Config) (entries : List Entry) : List Builder.Step :=
  .configure c :: entries.map step

theorem configs_steps (c : Config) (entries : List Entry) :
    Builder.configs (steps c entries) = [c] := by
  have hnone : Builder.configs (entries.map step) = [] := by
    rw [Builder.configs, List.filterMap_map]
    exact List.filterMap_eq_nil_iff.2 fun e _ => rfl
  show c :: Builder.configs (entries.map step) = [c]
  rw [hnone]

theorem alternatives_steps (marker : Char) (c : Config) (entries : List Entry) :
    Builder.alternatives marker (steps c entries) =
      entries.flatMap fun e => e.alternatives.map (⟨c.marker, e.head, ·⟩) := by
  show Builder.alternatives c.marker (entries.map step) = _
  induction entries with
  | nil => rfl
  | cons e entries ih =>
    rw [List.map_cons, List.flatMap_cons, step, Builder.alternatives, ih]

/-- **A builder that is given admissible entries builds their rules.** -/
theorem build_eq (hc : c.validate = .ok ()) (hstart : start.isUpper = true)
    (hadm : ∀ e ∈ entries, e.head.isUpper = true ∧ e.Admissible c.marker) :
    (Builder.run start (steps c entries)).build =
      .ok ⟨entries.flatMap (rules c.marker), c.start, c.marker⟩ := by
  rw [(Builder.run_agrees start _).build, Builder.applyAll_calls_eq_ok, configs_steps,
    alternatives_steps]
  refine ⟨?_, ?_, ?_⟩
  · refine List.forall_mem_cons.2 ⟨?_, List.forall_mem_singleton.2 hc⟩
    exact Config.validate_eq_ok.2 ⟨hstart, rfl⟩
  · intro a ha
    obtain ⟨e, he, ha⟩ := List.mem_flatMap.1 ha
    obtain ⟨t, ht, rfl⟩ := List.mem_map.1 ha
    exact ⟨(hadm e he).1, (hadm e he).2 t ht⟩
  · have hforce : Builder.inForce { start } (steps c entries) = c := by
      rw [Builder.inForce, configs_steps]
      rfl
    rw [hforce, List.map_flatMap]
    simp only [List.map_map]
    rfl

/-- **A builder stops at the first entry that is refused**, after the rules before it are added. -/
theorem build_refused (hc : c.validate = .ok ()) (hstart : start.isUpper = true) {bad : Entry}
    (hadm : ∀ e ∈ before, e.head.isUpper = true ∧ e.Admissible c.marker)
    (hhead : bad.head.isUpper = true) (hbad : bad.Refused c.marker reason) :
    (Builder.run start (steps c (before ++ bad :: after))).build =
      .error (.malformedRule 0 reason) := by
  obtain ⟨good, t, rest, hsplit, hgood, ht⟩ := hbad
  -- what has been added when the alternative comes that is no body
  have hadded : ∀ e ∈ before ++ [⟨bad.head, good⟩], e.head.isUpper = true ∧
      e.Admissible c.marker := by
    intro e he
    rcases List.mem_append.1 he with he | he
    · exact hadm e he
    · rw [List.mem_singleton.1 he]
      exact ⟨hhead, hgood⟩
  have hprefix := build_eq hc hstart hadded
  rw [(Builder.run_agrees start _).build] at hprefix
  have hcalls : Builder.calls start (steps c (before ++ bad :: after)) =
      Builder.calls start (steps c (before ++ [⟨bad.head, good⟩])) ++
        .addRule bad.head t ::
          (rest.map (.addRule bad.head) ++ (after.map step).flatMap Builder.Step.calls) := by
    simp [Builder.calls, steps, step, Builder.Step.calls, hsplit]
  rw [(Builder.run_agrees start _).build, hcalls, Builder.applyAll_append, hprefix]
  simp only [Builder.applyAll, Builder.Call.apply, Grammar.addRule, ht]

end Calls

/-! ## Both ways -/

section Both

variable {c : Config} {start : Char} {entries : List Entry} {t : Text}

/-- A text whose lines are those of the entries is read line by line. -/
theorem parse_eq_rulesOfLines (hc : c.validate = .ok ()) (hentries : ∀ e ∈ entries, e.Writable)
    (ht : t.physicalLines = entries.map line) :
    Grammar.parse c t =
      match rulesOfLines c.marker 1 (entries.map line) with
      | .error e => .error e
      | .ok rules => .ok ⟨rules, c.start, c.marker⟩ := by
  have htrim : (entries.map line).map Text.trim = entries.map line := by
    rw [List.map_map]
    exact List.map_congr_left fun e he => (hentries e he).trim_line
  have hlines : grammarLines c.marker (entries.map line) = entries.map line := by
    refine beforeBreak_eq_self fun l hl => ?_
    obtain ⟨e, -, rfl⟩ := List.mem_map.1 hl
    rfl
  cases hrules : rulesOfLines c.marker 1 (entries.map line) with
  | error e => simp only [Grammar.parse_eq hc, ht, htrim, hlines, hrules]
  | ok rules => simp only [Grammar.parse_eq hc, ht, htrim, hlines, hrules]

/-- **Rules that are written down and rules that are added are the same rules.**  A text with a line
for each entry is read as a grammar exactly when a builder that is given the entries builds it, and
then all alternatives are admissible and the grammar has the rules that they spell, in order.
Otherwise both stop at the first entry that is refused, for the same reason, which the text reports
with the number of the line and the builder with no line. -/
theorem parse_agrees (hc : c.validate = .ok ()) (hstart : start.isUpper = true)
    (hentries : ∀ e ∈ entries, e.Writable) (ht : t.physicalLines = entries.map line) :
    (∀ g, Grammar.parse c t = .ok g ↔ (Builder.run start (steps c entries)).build = .ok g) ∧
      (∀ g, Grammar.parse c t = .ok g ↔ (∀ e ∈ entries, e.Admissible c.marker) ∧
        g = ⟨entries.flatMap (rules c.marker), c.start, c.marker⟩) ∧
      ∀ e f, Grammar.parse c t = .error e →
        (Builder.run start (steps c entries)).build = .error f →
          ∃ before bad after reason, entries = before ++ bad :: after ∧
            (∀ e ∈ before, e.Admissible c.marker) ∧ bad.Refused c.marker reason ∧
            e = .malformedRule (before.length + 1) reason ∧ f = .malformedRule 0 reason := by
  have hm := (Config.validate_eq_ok.1 hc).2
  by_cases hadm : ∀ e ∈ entries, e.Admissible c.marker
  · have hbuild := build_eq hc hstart fun e he => ⟨(hentries e he).head_isUpper, hadm e he⟩
    have hparse : Grammar.parse c t =
        .ok ⟨entries.flatMap (rules c.marker), c.start, c.marker⟩ := by
      rw [parse_eq_rulesOfLines hc hentries ht, rulesOfLines_eq hm hentries hadm]
    refine ⟨fun g => by rw [hparse, hbuild], fun g => ?_, fun e f he => ?_⟩
    · rw [hparse, Except.ok.injEq, and_iff_right hadm, eq_comm]
    · cases hparse.symm.trans he
  · obtain ⟨before, bad, after, reason, rfl, hbefore, hbad⟩ := exists_refused hm hadm
    have hbuild : (Builder.run start (steps c (before ++ bad :: after))).build =
        .error (.malformedRule 0 reason) :=
      build_refused hc hstart
        (fun e he => ⟨(hentries e (List.mem_append_left _ he)).head_isUpper, hbefore e he⟩)
        (hentries bad (by simp)).head_isUpper hbad
    have hparse : Grammar.parse c t = .error (.malformedRule (before.length + 1) reason) := by
      rw [parse_eq_rulesOfLines hc hentries ht, rulesOfLines_refused hm hentries hbefore hbad,
        Nat.add_comm]
    refine ⟨fun g => by simp [hparse, hbuild], fun g => ?_, fun e f he hf => ?_⟩
    · rw [hparse]
      exact ⟨nofun, fun h => absurd h.1 hadm⟩
    · have hline : .malformedRule (before.length + 1) reason = e :=
        Except.error.inj (hparse.symm.trans he)
      have hnone : .malformedRule 0 reason = f := Except.error.inj (hbuild.symm.trans hf)
      exact ⟨before, bad, after, reason, rfl, hbefore, hbad, hline.symm, hnone.symm⟩

/-- Alternatives that hold parts of an arrow and the sign of comments, which is the marker here. -/
def interspersed : List Entry :=
  [⟨'T', [['a', 'T'], ['#']]⟩, ⟨'U', [['b'], ['T', '#'], ['-', '>']]⟩, ⟨'T', [['é']]⟩]

/-- Both ways take the first entry, and both stop at the second alternative of the second one. -/
theorem parse_agrees_interspersed :
    (∀ e ∈ interspersed, e.Writable) ∧
      text interspersed = "T -> aT | #\nU -> b | T# | ->\nT -> é\n".toList ∧
      (∃ before bad after reason, interspersed = before ++ bad :: after ∧
        (∀ e ∈ before, e.Admissible '#') ∧ bad.Refused '#' reason ∧
        Grammar.parse ⟨'T', '#', false⟩ (text interspersed) =
          .error (.malformedRule (before.length + 1) reason) ∧
        (Builder.run 'S' (steps ⟨'T', '#', false⟩ interspersed)).build =
          .error (.malformedRule 0 reason)) ∧
      Grammar.parse ⟨'T', '#', false⟩ "T -> aT | #\r\n".toList =
        .ok ⟨[⟨'T', [.terminal 'a', .nonterminal 'T']⟩, ⟨'T', [.null]⟩], 'T', '#'⟩ := by
  have hwritable : ∀ e ∈ interspersed, e.Writable := by decide
  have hparse : Grammar.parse ⟨'T', '#', false⟩ (text interspersed) =
    .error (.malformedRule 2 (.mixedMarker ['T', '#'])) := rfl
  have hbuild : (Builder.run 'S' (steps ⟨'T', '#', false⟩ interspersed)).build =
    .error (.malformedRule 0 (.mixedMarker ['T', '#'])) := rfl
  have hstart : Char.isUpper 'S' = true := rfl
  obtain ⟨-, -, hfault⟩ := parse_agrees (c := ⟨'T', '#', false⟩) rfl hstart hwritable
    (physicalLines_text hwritable)
  obtain ⟨before, bad, after, reason, hsplit, hbefore, hbad, hline, hnone⟩ :=
    hfault _ _ hparse hbuild
  have hfirst : ∀ e ∈ interspersed.take 1, e.Writable := by decide
  obtain ⟨-, hok, -⟩ := parse_agrees (c := ⟨'T', '#', false⟩) (t := "T -> aT | #\r\n".toList) rfl
    hstart
    hfirst rfl
  refine ⟨hwritable, rfl, ?_, (hok _).2 ⟨by decide, rfl⟩⟩
  exact ⟨before, bad, after, reason, hsplit, hbefore, hbad, hparse.trans (congrArg _ hline),
    hbuild.trans (congrArg _ hnone)⟩

end Both

end Entry

end Chomsky
