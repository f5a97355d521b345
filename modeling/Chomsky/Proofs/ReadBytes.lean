import Chomsky.Grammar.Reader
import Chomsky.Proofs.Bytes
import Chomsky.Proofs.LineGrammar

/-!
# Reading a grammar from bytes

Bytes are read line by line, each line is decoded by itself, and the reading ends with the blank
line after a line with content.  A grammar ends with the blank line after a rule line.  The two ends
differ only where a line with content is no rule line, and that line is reported
(`rulesOfLines_block`).

* `isBlankLine`, `isContentLine` — bytes that spell a blank line, and a line that is neither blank
  nor a comment.
* `linesRead` — the lines that are read, with their ends.

Principal results: `readLines_of_undecodable`, `readLines_of_decodable` — what the loop over the
lines gives; `linesRead_append` — what follows the lines that are read does not matter;
`Grammar.read_eq_parse` — bytes are read as the text that these lines spell.
-/

namespace Chomsky

open Text (feedByte)

/-- The bytes spell a blank line. -/
def isBlankLine (line : Text.Bytes) : Bool := (Text.decode? line).any (·.trim.isEmpty)

/-- The bytes spell a line that is neither blank nor a comment. -/
def isContentLine (line : Text.Bytes) : Bool := (Text.decode? line).any (isContent ·.trim)

/-- The lines that are read, with their ends: those up to the first blank one that comes after one
with content, and this blank one; all lines if there is none. -/
def linesRead (bytes : Text.Bytes) : List Text.Bytes :=
  let lines := cutAfter (· == feedByte) bytes
  lines.take ((beforeBreak isContentLine isBlankLine lines).length + 1)

section Line

variable {line : Text.Bytes} {t : Text}

theorem isBlankLine_of_decode? (h : Text.decode? line = some t) :
    isBlankLine line = t.trim.isEmpty := by
  rw [isBlankLine, h, Option.any_some]

theorem isContentLine_of_decode? (h : Text.decode? line = some t) :
    isContentLine line = isContent t.trim := by
  rw [isContentLine, h, Option.any_some]

theorem isBlankLine_of_isContentLine (h : isContentLine line = true) :
    isBlankLine line = false := by
  cases hline : Text.decode? line with
  | none => simp [isBlankLine, hline]
  | some t =>
    rw [isContentLine_of_decode? hline] at h
    rw [isBlankLine_of_decode? hline]
    cases ht : t.trim with
    | nil =>
      rw [ht] at h
      cases h
    | cons c rest => rfl

end Line

/-! ## The loop over the lines -/

/-- The lines that are read of a list of lines, when there was a line with content before or not. -/
def linesReadFrom : Bool → List Text.Bytes → List Text.Bytes
  | _, [] => []
  | seen, line :: rest =>
    if seen && isBlankLine line then [line]
    else line :: linesReadFrom (seen || isContentLine line) rest

theorem linesReadFrom_true (lines : List Text.Bytes) :
    linesReadFrom true lines = lines.take ((lines.takeWhile (!isBlankLine ·)).length + 1) := by
  induction lines with
  | nil => rfl
  | cons line lines ih =>
    cases h : isBlankLine line <;> simp [linesReadFrom, h, ih]

theorem linesReadFrom_false (lines : List Text.Bytes) :
    linesReadFrom false lines =
      lines.take ((beforeBreak isContentLine isBlankLine lines).length + 1) := by
  induction lines with
  | nil => rfl
  | cons line lines ih =>
    cases h : isContentLine line
    · simp [linesReadFrom, h, ih, beforeBreak_cons]
    · simp [linesReadFrom, h, linesReadFrom_true, beforeBreak_cons, isBlankLine_of_isContentLine h]

theorem linesRead_eq (bytes : Text.Bytes) :
    linesRead bytes = linesReadFrom false (cutAfter (· == feedByte) bytes) :=
  (linesReadFrom_false _).symm

section ReadLines

variable {bytes line : Text.Bytes} {rest : List Text.Bytes} {t : Text} {seen : Bool}

theorem linesReadFrom_singleton (seen : Bool) (line : Text.Bytes) :
    linesReadFrom seen [line] = [line] := by
  simp [linesReadFrom]

/-- The end of a line does not change whether it is the last one that is read. -/
theorem linesReadFrom_cons_of_decode? (h : Text.decode? line = some t) :
    linesReadFrom seen ((line ++ [feedByte]) :: rest) =
      if seen && t.trim.isEmpty then [line ++ [feedByte]]
      else (line ++ [feedByte]) :: linesReadFrom (seen || isContent t.trim) rest := by
  have hend : Text.decode? (line ++ [feedByte]) = some (t ++ ['\n']) := by
    rw [Text.decode?_append_feed, h]
    rfl
  rw [linesReadFrom, isBlankLine_of_decode? hend, isContentLine_of_decode? hend,
    Text.trim_append_feed]

/-- **The first line that is not decoded ends the reading** with a fault. -/
theorem readLines_of_undecodable
    (h : ∃ line ∈ linesReadFrom seen (cutAfter (· == feedByte) bytes), Text.decode? line = none) :
    readLines seen (bytes.splitOnP (· == feedByte)) = .error .notUtf8 := by
  induction bytes using cut_induction (p := (· == feedByte)) generalizing seen with
  | whole l hl =>
    cases l with
    | nil => simp [cutAfter, linesReadFrom] at h
    | cons b l =>
      rw [cutAfter_of_forall hl (List.cons_ne_nil _ _), linesReadFrom_singleton] at h
      obtain ⟨line, hline, hnone⟩ := h
      rw [List.mem_singleton.1 hline] at hnone
      rw [List.splitOnP_eq_singleton hl, readLines, hnone]
  | cut l b rest hl hb ih =>
    obtain rfl : b = feedByte := beq_iff_eq.1 hb
    rw [cutAfter_append_cons hl hb] at h
    rw [List.splitOnP_append_cons_of_forall_mem hl feedByte hb, readLines]
    cases hdecode : Text.decode? l with
    | none => rfl
    | some t =>
      rw [linesReadFrom_cons_of_decode? hdecode] at h
      split at h
      · simp [Text.decode?_append_feed, hdecode] at h
      · rename_i hgo
        have hrest : ∃ line ∈ linesReadFrom (seen || isContent t.trim)
            (cutAfter (· == feedByte) rest), Text.decode? line = none := by
          simpa [Text.decode?_append_feed, hdecode] using h
        simp only [hgo, ih hrest]
        rfl

/-- The last line is read but for a blank one, and a blank one at the end does not matter. -/
theorem readLines_last (h : Text.decode? line = some t)
    (hline : ∀ b ∈ line, (b == feedByte) = false) :
    ∃ lines, readLines seen [line] = .ok lines ∧
      dropBlankTail (Text.lines (lines.flatMap (· ++ ['\n']))) = dropBlankTail (Text.lines t) := by
  have ht := Text.ne_feed_of_decode? h hline
  rw [readLines, h, Text.lines_of_forall ht]
  cases hstop : seen && t.trim.isEmpty with
  | true =>
    have hblank := List.isEmpty_iff.1 (Bool.and_eq_true_iff.1 hstop).2
    refine ⟨[], by simp only [hstop]; rfl, ?_⟩
    rw [hblank]
    rfl
  | false =>
    refine ⟨[t], by simp only [hstop]; rfl, ?_⟩
    rw [List.flatMap_singleton, Text.lines_append_cons ht rfl]
    exact dropBlankTail_append_blank [t.trim]

/-- **Lines that are decoded are read**, as lines of the text that they spell together. -/
theorem readLines_of_decodable {texts : List Text}
    (h : (linesReadFrom seen (cutAfter (· == feedByte) bytes)).map Text.decode? = texts.map some) :
    ∃ lines, readLines seen (bytes.splitOnP (· == feedByte)) = .ok lines ∧
      dropBlankTail (Text.lines (lines.flatMap (· ++ ['\n']))) =
        dropBlankTail (Text.lines texts.flatten) := by
  induction bytes using cut_induction (p := (· == feedByte)) generalizing seen texts with
  | whole l hl =>
    have hlast : Text.decode? l = some texts.flatten := by
      cases l with
      | nil =>
        obtain rfl : texts = [] := by simpa [cutAfter, linesReadFrom] using h.symm
        exact Text.decode?_eq_some.2 rfl
      | cons b l =>
        rw [cutAfter_of_forall hl (List.cons_ne_nil _ _), linesReadFrom_singleton] at h
        obtain ⟨t, rfl, hdecode⟩ := List.map_eq_singleton_iff.1 h.symm
        rw [List.flatten_singleton, hdecode]
    rw [List.splitOnP_eq_singleton hl]
    exact readLines_last hlast hl
  | cut l b rest hl hb ih =>
    obtain rfl : b = feedByte := beq_iff_eq.1 hb
    rw [cutAfter_append_cons hl hb] at h
    rw [List.splitOnP_append_cons_of_forall_mem hl feedByte hb, readLines]
    cases hdecode : Text.decode? l with
    | none =>
      cases texts <;> rw [linesReadFrom] at h <;> split at h <;>
        simp [Text.decode?_append_feed, hdecode] at h
    | some t =>
      have ht := Text.ne_feed_of_decode? hdecode hl
      have hend : Text.decode? (l ++ [feedByte]) = some (t ++ ['\n']) := by
        rw [Text.decode?_append_feed, hdecode]
        rfl
      rw [linesReadFrom_cons_of_decode? hdecode] at h
      split at h
      · rename_i hstop
        obtain ⟨t', rfl, ht'⟩ := List.map_eq_singleton_iff.1 h.symm
        obtain rfl : t' = t ++ ['\n'] := Option.some.inj (ht'.trans hend)
        have hblank := List.isEmpty_iff.1 (Bool.and_eq_true_iff.1 hstop).2
        refine ⟨[], by simp only [hstop]; rfl, ?_⟩
        rw [List.flatten_singleton, Text.lines_append_cons ht rfl, hblank]
        rfl
      · rename_i hgo
        cases texts with
        | nil => simp at h
        | cons t' texts =>
          obtain ⟨ht', hrest⟩ := List.cons.inj h
          obtain rfl : t ++ ['\n'] = t' := Option.some.inj (hend.symm.trans ht')
          obtain ⟨lines, hlines, htail⟩ := ih hrest
          refine ⟨t :: lines, by simp only [hgo, hlines]; rfl, ?_⟩
          rw [List.flatMap_cons, List.flatten_cons, List.append_assoc, List.append_assoc,
            List.singleton_append, List.singleton_append, Text.lines_append_cons ht rfl,
            Text.lines_append_cons ht rfl]
          exact dropBlankTail_cons_congr htail

end ReadLines

/-! ## What is read -/

/-- **What follows the lines that are read does not matter.** -/
theorem linesRead_append {bytes : Text.Bytes}
    (h : linesRead bytes ≠ cutAfter (· == feedByte) bytes) (more : Text.Bytes) :
    linesRead ((linesRead bytes).flatten ++ more) = linesRead bytes := by
  obtain ⟨after, hlines⟩ :=
    exists_eq_beforeBreak_append isContentLine isBlankLine (cutAfter (· == feedByte) bytes)
  have hlength := congrArg List.length hlines
  rw [List.length_append] at hlength
  -- The break is a line of its own, and another line follows it: else all lines were read.
  match after with
  | [] =>
    refine absurd (List.take_of_length_le ?_) h
    simp only [List.length_nil] at hlength
    omega
  | [line] => exact absurd (List.take_of_length_le hlength.le) h
  | line :: next :: after =>
    have hread : linesRead bytes =
        beforeBreak isContentLine isBlankLine (cutAfter (· == feedByte) bytes) ++ [line] :=
      take_succ_of_eq_append hlines
    have hcut : cutAfter (· == feedByte) ((linesRead bytes).flatten ++ more) =
        beforeBreak isContentLine isBlankLine (cutAfter (· == feedByte) bytes) ++
          line :: cutAfter (· == feedByte) more := by
      rw [linesRead, cutAfter_take_append (by simp only [List.length_cons] at hlength; omega),
        take_succ_of_eq_append hlines, List.append_assoc, List.singleton_append]
    rw [hread] at hcut ⊢
    rw [linesRead, hcut, beforeBreak_append hlines]
    exact take_succ_of_eq_append rfl

/-- A text is read up to the break. -/
theorem linesRead_encode (t : Text) :
    linesRead (Text.encode t) =
      ((cutAfter (· == '\n') t).take
        ((block ((cutAfter (· == '\n') t).map Text.trim)).length + 1)).map Text.encode := by
  have hcontent : isContentLine ∘ Text.encode = isContent ∘ Text.trim :=
    funext fun line => isContentLine_of_decode? (Text.decode?_encode line)
  have hblank : isBlankLine ∘ Text.encode = List.isEmpty ∘ Text.trim :=
    funext fun line => isBlankLine_of_decode? (Text.decode?_encode line)
  rw [linesRead, Text.cutAfter_encode, beforeBreak_map, hcontent, hblank, block_eq,
    beforeBreak_map, List.map_take, List.length_map, List.length_map]

namespace Grammar

variable {c : Config} {bytes : Text.Bytes}

theorem read_of_undecodable (h : ∃ line ∈ linesRead bytes, Text.decode? line = none) :
    read c bytes = .error (.file .notUtf8) := by
  rw [linesRead_eq] at h
  have hlines := readLines_of_undecodable h
  simp only [read, hlines]

theorem read_of_decodable {texts : List Text}
    (h : (linesRead bytes).map Text.decode? = texts.map some) :
    read c bytes = parse c texts.flatten := by
  rw [linesRead_eq] at h
  obtain ⟨lines, hlines, htail⟩ := readLines_of_decodable h
  simp only [read, hlines]
  exact parse_congr htail

/-- **The bytes of a text are read as the text.** -/
theorem read_encode (c : Config) (t : Text) : read c (Text.encode t) = parse c t := by
  let lines := cutAfter (· == '\n') t
  let stop := (block (lines.map Text.trim)).length + 1
  have hdecode : (linesRead (Text.encode t)).map Text.decode? = (lines.take stop).map some := by
    rw [linesRead_encode, List.map_map]
    exact List.map_congr_left fun line _ => Text.decode?_encode line
  rw [read_of_decodable hdecode]
  refine parse_congr_of_cut ?_
  calc block ((cutAfter (· == '\n') (lines.take stop).flatten).map Text.trim)
    _ = block ((lines.map Text.trim).take stop) := by rw [cutAfter_flatten_take, List.map_take]
    _ = block (lines.map Text.trim) := by
      simp only [stop, block_eq]
      exact beforeBreak_take _ _ _

/-- Bytes whose lines that are read are the same are read the same. -/
theorem read_congr {other : Text.Bytes} (h : linesRead bytes = linesRead other) :
    read c bytes = read c other := by
  by_cases hnone : ∃ line ∈ linesRead other, Text.decode? line = none
  · rw [read_of_undecodable hnone, read_of_undecodable (h.symm ▸ hnone)]
  · push Not at hnone
    have hrange : (linesRead other).map Text.decode? ∈ Set.range (List.map some) := by
      rw [Set.range_list_map]
      intro decoded hdecoded
      obtain ⟨line, hline, rfl⟩ := List.mem_map.1 hdecoded
      exact (Option.ne_none_iff_exists.1 (hnone line hline))
    obtain ⟨texts, htexts⟩ := hrange
    rw [read_of_decodable htexts.symm, read_of_decodable (h ▸ htexts.symm)]

/-- **Bytes are read as the text that they spell.**  For the bytes of a text, this is the text.  For
any bytes, a line that is read and not decoded is a fault; lines that are all decoded are parsed as
the text that they spell together; and when something follows them, it does not matter what. -/
theorem read_eq_parse (c : Config) :
    (∀ t, read c (Text.encode t) = parse c t) ∧
    ∀ bytes,
      ((∃ line ∈ linesRead bytes, Text.decode? line = none) →
        read c bytes = .error (.file .notUtf8)) ∧
      (∀ texts : List Text, (linesRead bytes).map Text.decode? = texts.map some →
        read c bytes = parse c texts.flatten) ∧
      (linesRead bytes ≠ cutAfter (· == feedByte) bytes →
        ∀ more, read c ((linesRead bytes).flatten ++ more) = read c bytes) :=
  ⟨read_encode c, fun _ => ⟨read_of_undecodable, fun _ => read_of_decodable,
    fun h more => read_congr (linesRead_append h more)⟩⟩

/-- A rule line, a blank line, and a byte that no text has. -/
def cutOff : Text.Bytes := [83, 45, 62, 97, 13, 10, 32, 13, 10, 255]

/-- The same byte in a comment before the rule line. -/
def garbled : Text.Bytes := [35, 255, 10, 83, 45, 62, 97]

theorem read_eq_parse_cutOff :
    read {} cutOff = .ok ⟨[⟨'S', [.terminal 'a']⟩], 'S', '\\'⟩ ∧
      read {} ([83, 45, 62, 97, 13, 10, 32, 13, 10] ++ garbled) = read {} cutOff ∧
      read {} garbled = .error (.file .notUtf8) := by
  obtain ⟨-, hread⟩ := read_eq_parse {}
  obtain ⟨-, hparse, happend⟩ := hread cutOff
  obtain ⟨hnone, -, -⟩ := hread garbled
  have hcutOff : linesRead cutOff = [[83, 45, 62, 97, 13, 10], [32, 13, 10]] := by decide
  have hgarbled : linesRead garbled = [[35, 255, 10], [83, 45, 62, 97]] := by decide
  refine ⟨?_, ?_, hnone ⟨[35, 255, 10], ?_, by decide⟩⟩
  · rw [hparse ["S->a\r\n".toList, " \r\n".toList] (by rw [hcutOff]; decide)]
    rfl
  · rw [hcutOff] at happend
    exact happend (by decide) garbled
  · rw [hgarbled]
    exact List.mem_cons_self

end Grammar

end Chomsky
