import Chomsky.CommandLine.Run
import Chomsky.Proofs.ReadBytes
import Chomsky.Proofs.Sorting

/-!
# Sorted output

A run prints the rules of its result in their order, or sorted.  A rule is printed on lines of its
own, as text and as JSON, so the lines are the same in any order of the rules.  As JSON all rules
but the last are followed by a comma, whichever comes last.

* `Rule.memberLines` — the lines of a rule as JSON, without the closing brace.
* `Options.result` — the grammar that a run prints.

Principal results: `Grammar.physicalLines_text_perm`, `Grammar.physicalLines_jsonText_perm` — the
lines do not depend on the order of the rules; `Options.process_sorted`, `Request.answer_sorted` —
sorting moves lines and changes nothing else about a run; `Grammar.sorted_canonical` — what sorting
is, in one statement.
-/

namespace Chomsky

theorem SameSettings.symm {g h : Grammar} (hsame : SameSettings g h) : SameSettings h g :=
  ⟨hsame.start.symm, hsame.marker.symm⟩

/-! ## Lines that follow a line feed -/

theorem cutAfter_append_cut {α : Type} {p : α → Bool} {a : α} (ha : p a = true) (l rest : List α) :
    cutAfter p (l ++ a :: rest) = cutAfter p (l ++ [a]) ++ cutAfter p rest := by
  induction l using cut_induction (p := p) with
  | whole l hl => simp [cutAfter_append_cons hl ha, cutAfter]
  | cut l b more hl hb ih =>
    simp only [List.append_assoc, List.cons_append, cutAfter_append_cons hl hb, ih]

namespace Text

theorem physicalLines_append_feed (t rest : Text) :
    physicalLines (t ++ '\n' :: rest) = physicalLines (t ++ ['\n']) ++ physicalLines rest := by
  rw [physicalLines, cutAfter_append_cut rfl, List.map_append]
  rfl

end Text

/-! ## The lines of a grammar as text -/

namespace Grammar

variable {g h : Grammar}

theorem physicalLines_text_eq (g : Grammar) :
    g.text.physicalLines =
      g.rules.flatMap fun r => Text.physicalLines (r.text g.marker ++ ['\n']) := by
  obtain ⟨rules, start, marker⟩ := g
  induction rules with
  | nil => rfl
  | cons r rules ih => rw [text_cons, Text.physicalLines_append_feed, ih, List.flatMap_cons]

/-- **The lines of a grammar do not depend on the order of its rules.** -/
theorem physicalLines_text_perm (hmarker : h.marker = g.marker) (hperm : g.rules.Perm h.rules) :
    g.text.physicalLines.Perm h.text.physicalLines := by
  rw [physicalLines_text_eq, physicalLines_text_eq, hmarker]
  exact hperm.flatMap_right _

end Grammar

/-! ## The lines of a grammar as JSON -/

/-- A rule as JSON from its opening brace on, without the closing brace and the line feed before
it. -/
def Rule.memberLines (marker : Char) (r : Rule) : Text :=
  [' ', ' ', ' ', ' ', '{'] ++ Json.Layout.indented.lineBreak 3 ++
    Json.writeMember .indented 3 ("lhs".toList, .string [r.head]) ++
      ',' :: Json.Layout.indented.lineBreak 3 ++
    Json.writeMember .indented 3 ("rhs".toList, .string (r.bodyText marker))

/-- The line of the brace that closes a rule. -/
def closingLine : Text := [' ', ' ', ' ', ' ', '}']

namespace Grammar

variable {g h : Grammar} {marker : Char}

/-- A rule on its lines. -/
theorem lineBreak_append_write (marker : Char) (r : Rule) (rest : Text) :
    Json.Layout.indented.lineBreak 2 ++ ((r.toJson marker).write .indented 2 ++ rest) =
      '\n' :: (r.memberLines marker ++ '\n' :: (closingLine ++ rest)) := by
  simp [Rule.toJson, Rule.memberLines, closingLine, Json.write, Json.writeMembers,
    Json.Layout.lineBreak, List.replicate_succ]

/-- The rules behind the first one. -/
theorem writeItems_map_toJson (marker : Char) (rules : List Rule) :
    Json.writeItems .indented 2 (rules.map (·.toJson marker)) =
      rules.flatMap fun r => ',' :: '\n' :: (r.memberLines marker ++ '\n' :: closingLine) := by
  induction rules with
  | nil => rfl
  | cons r rules ih =>
    rw [List.map_cons, Json.writeItems, ih, List.flatMap_cons, List.append_assoc, List.cons_append,
      lineBreak_append_write]
    simp

/-- What stands before the first rule, without the last line feed. -/
def jsonHead (start : Char) : Text :=
  ['{', '\n', ' ', ' '] ++ Json.writeMember .indented 1 ("start_symbol".toList, .string [start]) ++
    [',', '\n', ' ', ' '] ++ Json.encodeText "rules".toList ++ [':', ' ', '[']

theorem jsonText_cons (r : Rule) (rules : List Rule) (start marker : Char) :
    jsonText ⟨r :: rules, start, marker⟩ =
      jsonHead start ++ '\n' :: (r.memberLines marker ++ '\n' :: (closingLine ++
        ((rules.flatMap fun r => ',' :: '\n' :: (r.memberLines marker ++ '\n' :: closingLine)) ++
          ['\n', ' ', ' ', ']', '\n', '}']))) := by
  simp only [jsonText, toJson, List.map_cons, Json.write, Json.writeMember, Json.writeMembers,
    Nat.zero_add,
    Nat.reduceAdd, writeItems_map_toJson, List.append_assoc, List.cons_append,
    lineBreak_append_write]
  simp [jsonHead, Json.write, Json.writeMember, Json.Layout.lineBreak, Json.Layout.colon,
    List.replicate_succ]

/-- Behind the lines of the first rule stand those of the others, a closing line with a comma for
each of them, and the last closing line. -/
theorem physicalLines_closingLine_perm (marker : Char) (rules : List Rule) (rest : Text) :
    (Text.physicalLines (closingLine ++
      ((rules.flatMap fun r => ',' :: '\n' :: (r.memberLines marker ++ '\n' :: closingLine)) ++
        '\n' :: rest))).Perm
      ((rules.flatMap fun r => Text.physicalLines (r.memberLines marker ++ ['\n'])) ++
        (List.replicate rules.length (closingLine ++ [',']) ++
          closingLine :: Text.physicalLines rest)) := by
  induction rules with
  | nil => rw [List.flatMap_nil, List.nil_append, Text.physicalLines_append_feed]; exact .refl _
  | cons r rules ih =>
    -- The comma and the lines of the next rule come first, then its closing line and what is behind
    -- it.
    have hsplit : closingLine ++
        (((r :: rules).flatMap fun r => ',' :: '\n' ::
          (r.memberLines marker ++ '\n' :: closingLine)) ++
          '\n' :: rest) =
        (closingLine ++ [',']) ++ '\n' :: (r.memberLines marker ++ '\n' :: (closingLine ++
          ((rules.flatMap fun r => ',' :: '\n' :: (r.memberLines marker ++ '\n' :: closingLine)) ++
            '\n' :: rest))) := by
      simp
    have hcomma : Text.physicalLines ((closingLine ++ [',']) ++ ['\n']) = [closingLine ++ [',']] :=
      rfl
    rw [hsplit, Text.physicalLines_append_feed, hcomma,
      Text.physicalLines_append_feed (r.memberLines marker),
      List.flatMap_cons, List.length_cons, List.replicate_succ, List.singleton_append]
    refine (List.Perm.cons _ (ih.append_left _)).trans ?_
    rw [← List.append_assoc]
    exact List.perm_middle.symm

/-- The lines of a grammar with rules as JSON, but for the order. -/
theorem physicalLines_jsonText (hne : g.rules ≠ []) :
    (Text.physicalLines (g.jsonText ++ ['\n'])).Perm
      (Text.physicalLines (jsonHead g.start ++ ['\n']) ++
        ((g.rules.flatMap fun r => Text.physicalLines (r.memberLines g.marker ++ ['\n'])) ++
          (List.replicate (g.rules.length - 1) (closingLine ++ [',']) ++
            [closingLine, [' ', ' ', ']'], ['}']]))) := by
  obtain ⟨rules, start, marker⟩ := g
  obtain ⟨r, rules, rfl⟩ := List.exists_cons_of_ne_nil hne
  rw [jsonText_cons]
  simp only [List.append_assoc, List.cons_append, List.nil_append, List.flatMap_cons]
  rw [Text.physicalLines_append_feed, Text.physicalLines_append_feed (r.memberLines marker)]
  exact ((physicalLines_closingLine_perm marker rules _).append_left _).append_left _

/-- **The lines of a grammar as JSON do not depend on the order of its rules.** -/
theorem physicalLines_jsonText_perm (hsame : SameSettings g h) (hperm : g.rules.Perm h.rules) :
    (Text.physicalLines (g.jsonText ++ ['\n'])).Perm
      (Text.physicalLines (h.jsonText ++ ['\n'])) := by
  by_cases hg : g.rules = []
  · have hh : h.rules = [] := by rw [← List.nil_perm, ← hg]; exact hperm
    have heq : g = h := by
      obtain ⟨_, _, _⟩ := g
      obtain ⟨_, _, _⟩ := h
      obtain rfl : _ = [] := hg
      obtain rfl : _ = [] := hh
      rw [mk.injEq]
      exact ⟨rfl, hsame.start.symm, hsame.marker.symm⟩
    rw [heq]
  · have hh : h.rules ≠ [] := fun hnil => hg (by rw [hnil] at hperm; exact hperm.eq_nil)
    refine (physicalLines_jsonText hg).trans (.trans ?_ (physicalLines_jsonText hh).symm)
    rw [hsame.start, hsame.marker, hperm.length_eq]
    exact ((hperm.flatMap_right _).append_right _).append_left _

theorem settings_of_read {c : Config} {bytes : Text.Bytes}
    (h : read c bytes = .ok g) : g.start = c.start ∧ g.marker = c.marker := by
  unfold read at h
  split at h
  · cases h
  · unfold parse at h
    split at h
    · cases h
    · split at h
      · cases h
      · cases h
        exact ⟨rfl, rfl⟩

end Grammar

/-! ## Runs -/

/-- Two runs end alike, but for the order of the lines they print. -/
structure Outcome.SameLines (a b : Outcome) : Prop where
  exitCode : a.exitCode = b.exitCode
  errors : a.errors = b.errors
  output : (Text.physicalLines a.output.toList).Perm (Text.physicalLines b.output.toList)

theorem Outcome.SameLines.refl (a : Outcome) : a.SameLines a := ⟨rfl, rfl, .refl _⟩

namespace Options

variable {o : Options} {c : Config} {g h : Grammar}

/-- The grammar that a run prints. -/
def result (o : Options) (c : Config) (bytes : Text.Bytes) : Except GrammarError Grammar :=
  match Grammar.read c bytes with
  | .error e => .error e
  | .ok g =>
    match o.chain with
    | .error e => .error e
    | .ok chain => chain.apply g

/-- A grammar, sorted or not, has the same rules. -/
theorem ite_sorted (b : Bool) (g : Grammar) :
    SameSettings g (if b then g.sorted else g) ∧
      g.rules.Perm (if b then g.sorted else g).rules := by
  cases b with
  | false => exact ⟨.refl g, .refl _⟩
  | true => exact ⟨⟨rfl, rfl⟩, g.sorted_perm.symm⟩

/-- What is printed, as a text. -/
theorem toList_print (o : Options) (c : Config) (g : Grammar) :
    (o.print c g).toList =
      if o.json then (if c.sorted then g.sorted else g).jsonText ++ ['\n']
      else (if c.sorted then g.sorted else g).text := by
  simp only [print]
  split
  · rw [String.toList_append, Text.string, String.toList_ofList]
    rfl
  · rw [Text.string, String.toList_ofList]

/-- The same rules are printed on the same lines, sorted or not. -/
theorem print_perm (o : Options) (c : Config) (b b' : Bool) (g : Grammar) :
    (Text.physicalLines (o.print { c with sorted := b } g).toList).Perm
      (Text.physicalLines (o.print { c with sorted := b' } g).toList) := by
  obtain ⟨hsame, hperm⟩ := ite_sorted b g
  obtain ⟨hsame', hperm'⟩ := ite_sorted b' g
  have hsettings := hsame.symm.trans hsame'
  have hrules := hperm.symm.trans hperm'
  rw [toList_print, toList_print]
  split
  · exact Grammar.physicalLines_jsonText_perm hsettings hrules
  · exact Grammar.physicalLines_text_perm hsettings.marker hrules

theorem print_congr {o' : Options} (hjson : o.json = o'.json) : o.print c g = o'.print c g := by
  simp only [print, hjson]

/-- Sorted rules are printed alike if they are the same, equally often. -/
theorem print_sorted_eq (o : Options) (hc : c.sorted = true) (hsame : SameSettings g h)
    (hperm : g.rules.Perm h.rules) : o.print c g = o.print c h := by
  have hsorted := (Grammar.sorted_eq_sorted_iff hsame).2 hperm
  simp only [print, hc, if_true, hsorted]

theorem succeeded_sameLines {log : List Event} {s t : String}
    (h : (Text.physicalLines s.toList).Perm (Text.physicalLines t.toList)) :
    (o.succeeded log s).SameLines (o.succeeded log t) :=
  ⟨rfl, rfl, h⟩

/-- **Sorting moves lines, and changes nothing else about a run.** -/
theorem process_sorted (o : Options) (c : Config) (b b' : Bool)
    (bytes : Except FileFault Text.Bytes) :
    (o.process { c with sorted := b } bytes).SameLines
      (o.process { c with sorted := b' } bytes) := by
  cases bytes with
  | error fault => exact .refl _
  | ok bytes =>
    have hread : ∀ b, Grammar.read { c with sorted := b } bytes = Grammar.read c bytes :=
      fun _ => rfl
    unfold process
    simp only [hread]
    cases Grammar.read c bytes with
    | error e => exact .refl _
    | ok g =>
      cases o.chain with
      | error e => exact .refl _
      | ok chain =>
        cases hresult : chain.apply g with
        | error e =>
          simp only [hresult]
          exact .refl _
        | ok h =>
          simp only [hresult]
          exact succeeded_sameLines (o.print_perm c b b' h)

/-- What a run prints is its result. -/
theorem output_process {bytes : Text.Bytes} (h : o.result c bytes = .ok g) :
    (o.process c (.ok bytes)).output = o.print c g := by
  unfold result at h
  unfold process
  cases hread : Grammar.read c bytes with
  | error e => simp only [hread, reduceCtorEq] at h
  | ok g' =>
    cases hchain : o.chain with
    | error e => simp only [hread, hchain, reduceCtorEq] at h
    | ok chain =>
      simp only [hread, hchain] at h
      simp only [hread, h]
      rfl

/-- The result has the settings of the configuration. -/
theorem settings_of_result {bytes : Text.Bytes} (h : o.result c bytes = .ok g) :
    g.start = c.start ∧ g.marker = c.marker := by
  unfold result at h
  split at h
  · cases h
  · rename_i g' hread
    split at h
    · cases h
    · rename_i chain hchain
      have hsame : SameSettings g' g := Pass.apply_sameSettings (p := chain.toPass) h
      have hsettings := Grammar.settings_of_read hread
      exact ⟨hsame.start.trans hsettings.1, hsame.marker.trans hsettings.2⟩

end Options

/-- The configuration of a run. -/
def Options.config (o : Options) (read : Option Text → Except FileFault Text.Bytes) :
    Except GrammarError Config :=
  match o.configFile with
  | none => .ok {}
  | some path => configOfBytes (read (some path))

/-- A run reads its configuration, and then its grammar. -/
theorem Request.answer_run (o : Options) (read : Option Text → Except FileFault Text.Bytes) :
    (Request.run o).answer (m := Id) read =
      match o.config read with
      | .error e => o.failed [] e
      | .ok c => o.process (o.override c) (read o.grammarFile) := by
  simp only [answer, Options.config]
  cases o.configFile with
  | none => rfl
  | some path =>
    show (match Options.configOfBytes (read (some path)) with
      | .error e => pure (o.failed [] e)
      | .ok c => pure (o.process (o.override c) (read o.grammarFile)) : Id Outcome) =
        match Options.configOfBytes (read (some path)) with
        | .error e => o.failed [] e
        | .ok c => o.process (o.override c) (read o.grammarFile)
    split <;> rfl

/-- **A run prints the same lines with and without the option to sort.** -/
theorem Request.answer_sorted (o : Options) (read : Option Text → Except FileFault Text.Bytes)
    (b b' : Bool) :
    Outcome.SameLines ((Request.run { o with sorted := b }).answer (m := Id) read)
      ((Request.run { o with sorted := b' }).answer (m := Id) read) := by
  have hconfig : ∀ b : Bool, Options.config { o with sorted := b } read = o.config read :=
    fun _ => rfl
  have hprocess : ∀ (b : Bool) (c : Config) (bytes : Except FileFault Text.Bytes),
      Options.process { o with sorted := b } (Options.override { o with sorted := b } c) bytes =
        o.process { o.override c with sorted := b || c.sorted } bytes :=
    fun _ _ _ => rfl
  rw [answer_run, answer_run, hconfig b, hconfig b']
  cases o.config read with
  | error e => exact .refl _
  | ok c =>
    simp only [hprocess]
    exact o.process_sorted (o.override c) _ _ (read o.grammarFile)

/-! ## Sorting as a canonical form -/

namespace Grammar

/-- **Sorting gives a canonical form.**  The order of rules is strict and total, and only equal
rules compare equal.  Under the same settings, grammars are sorted alike if and only if their rules
are the same up to the order.  A sorted grammar has the same rules in order, and is sorted already.
With the option to sort, a run prints the lines it prints without, in another order, and ends
alike; and what it prints depends on the rules of its result, and how often each of them is there,
only. -/
theorem sorted_canonical :
    IsStrictTotalOrder Rule Rule.Before ∧
      (∀ r s : Rule, (compare r s = .lt ↔ r.Before s) ∧ (compare r s = .eq ↔ r = s) ∧
        (compare r s = .gt ↔ s.Before r)) ∧
      (∀ g h : Grammar, SameSettings g h → (g.sorted = h.sorted ↔ g.rules.Perm h.rules)) ∧
      (∀ g : Grammar, SameSettings g g.sorted ∧ g.sorted.rules.Perm g.rules ∧
        g.sorted.rules.Pairwise (fun r s => ¬ s.Before r) ∧ g.sorted.sorted = g.sorted) ∧
      (∀ (o : Options) (read : Option Text → Except FileFault Text.Bytes),
        Outcome.SameLines ((Request.run { o with sorted := true }).answer (m := Id) read)
          ((Request.run { o with sorted := false }).answer (m := Id) read)) ∧
      ∀ (o o' : Options) (c : Config) (bytes bytes' : Text.Bytes) (g g' : Grammar),
        o.result c bytes = .ok g → o'.result c bytes' = .ok g' → o.json = o'.json →
          c.sorted = true →
        g.rules.Perm g'.rules →
          (o.process c (.ok bytes)).output = (o'.process c (.ok bytes')).output := by
  refine ⟨Rule.isStrictTotalOrder_before, Rule.compare_iff, fun g h => sorted_eq_sorted_iff, ?_,
    fun o read => Request.answer_sorted o read true false, ?_⟩
  · intro g
    refine ⟨⟨rfl, rfl⟩, g.sorted_perm, ?_, sorted_eq_self g.pairwise_sorted⟩
    exact g.pairwise_sorted.imp Rule.le_iff_not_before.1
  · intro o o' c bytes bytes' g g' hresult hresult' hjson hc hperm
    have hsettings := Options.settings_of_result hresult
    have hsettings' := Options.settings_of_result hresult'
    have hsame : SameSettings g g' :=
      ⟨hsettings'.1.trans hsettings.1.symm, hsettings'.2.trans hsettings.2.symm⟩
    rw [Options.output_process hresult, Options.output_process hresult',
      Options.print_sorted_eq o hc hsame hperm,
      Options.print_congr hjson]

/-- Three rules, and the same rules in another order. -/
def interleaved : Grammar × Grammar :=
  (⟨[⟨'T', [.terminal 'b']⟩, ⟨'S', [.terminal 'b']⟩, ⟨'S', [.nonterminal 'T']⟩], 'S', '\\'⟩,
    ⟨[⟨'S', [.nonterminal 'T']⟩, ⟨'T', [.terminal 'b']⟩, ⟨'S', [.terminal 'b']⟩], 'S', '\\'⟩)

theorem sorted_canonical_shuffled :
    let c : Config := { sorted := true }
    let o : Options := { stopAfter := some "null".toList }
    let bytes := Text.encode "T -> b\nS -> b | T".toList
    let bytes' := Text.encode "S -> T\nT -> b\n# S\nS -> b\n".toList
    interleaved.1.sorted = interleaved.2.sorted ∧
      o.result c bytes = .ok interleaved.1 ∧ o.result c bytes' = .ok interleaved.2 ∧
      (o.process c (.ok bytes)).output = (o.process c (.ok bytes')).output := by
  intro c o bytes bytes'
  have hperm : interleaved.1.rules.Perm interleaved.2.rules := by decide
  have hchain : o.chain = .ok (.ofList [.stage .null]) := by
    have hname : Text.string "null".toList = "null" := String.ofList_toList
    simp only [Options.chain, o, hname]
    rfl
  have hread : read c bytes = .ok interleaved.1 := (read_encode c _).trans rfl
  have hread' : read c bytes' = .ok interleaved.2 := (read_encode c _).trans rfl
  have hresult : o.result c bytes = .ok interleaved.1 := by
    simp only [Options.result, hread, hchain]
    rfl
  have hresult' : o.result c bytes' = .ok interleaved.2 := by
    simp only [Options.result, hread', hchain]
    rfl
  obtain ⟨-, -, hsorted, -, -, hprocess⟩ := sorted_canonical
  exact ⟨(hsorted interleaved.1 interleaved.2 ⟨rfl, rfl⟩).2 hperm, hresult, hresult',
    hprocess o o c bytes bytes' _ _ hresult hresult' rfl rfl hperm⟩

end Grammar

end Chomsky
