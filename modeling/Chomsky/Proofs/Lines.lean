import Chomsky.Text.Lines
import Mathlib

/-!
# The lines of a text

A text is read as its lines, and each line without the blanks at its ends.  Both kinds of line end
are blank, and so is what may follow the last line feed; so nothing depends on how lines end.

* `cutAfter p l` — a list cut after each entry with a property, its parts in order.
* `Text.physicalLines` — the lines of a text without their ends, but with their blanks.
* `dropBlankTail` — lines without the blank ones at the end.
* `beforeBreak kind blank l` — the entries before the first blank one that comes after one of a
  kind.

Principal results: `cut_induction` — a list is looked at part by part; `flatten_cutAfter` — cutting
loses nothing; `Text.dropBlankTail_lines` — the lines that are read are the physical lines, trimmed,
but for blank ones at the end; `beforeBreak_append` — what comes after the break does not matter.
-/

namespace Chomsky

variable {α : Type}

/-! ## Cutting a list -/

/-- A list cut after each entry with a property.  The last part may end without such an entry. -/
def cutAfter (p : α → Bool) : List α → List (List α)
  | [] => []
  | a :: rest =>
    if p a then [a] :: cutAfter p rest
    else
      match cutAfter p rest with
      | [] => [[a]]
      | part :: parts => (a :: part) :: parts

section CutAfter

variable {p : α → Bool} {a : α} {l rest : List α}

/-- A list without an entry at which it could be cut, or a part up to the first such entry and a
rest: all that is said of parts is proved by this induction. -/
theorem cut_induction {motive : List α → Prop}
    (whole : ∀ l, (∀ x ∈ l, p x = false) → motive l)
    (cut : ∀ l a rest, (∀ x ∈ l, p x = false) → p a = true → motive rest → motive (l ++ a :: rest))
    (l : List α) : motive l := by
  have hlead : ∀ x ∈ l.takeWhile (!p ·), p x = false := fun x hx => by
    simpa using List.mem_takeWhile_imp hx
  cases hrest : l.dropWhile (!p ·) with
  | nil =>
    have hall : ∀ x ∈ l, (!p x) = true := List.dropWhile_eq_nil_iff.1 hrest
    exact whole l fun x hx => by simpa using hall x hx
  | cons a rest =>
    have hl : l.takeWhile (!p ·) ++ a :: rest = l := by
      rw [← hrest, List.takeWhile_append_dropWhile]
    have ha : p a = true := by
      have hhead := List.head_dropWhile_not (!p ·) (l := l) (by simp [hrest])
      simpa [hrest] using hhead
    have hlength : rest.length < l.length := by
      rw [← hl]
      simp only [List.length_append, List.length_cons]
      omega
    exact hl ▸ cut _ a rest hlead ha (cut_induction whole cut rest)
termination_by l.length

theorem cutAfter_of_forall (hl : ∀ x ∈ l, p x = false) (hne : l ≠ []) : cutAfter p l = [l] := by
  induction l with
  | nil => exact absurd rfl hne
  | cons a l ih =>
    obtain ⟨ha, hl⟩ := List.forall_mem_cons.1 hl
    cases l with
    | nil => simp [cutAfter, ha]
    | cons b l => rw [cutAfter, ha, ih hl (List.cons_ne_nil _ _)]; rfl

theorem cutAfter_append_cons (hl : ∀ x ∈ l, p x = false) (ha : p a = true) :
    cutAfter p (l ++ a :: rest) = (l ++ [a]) :: cutAfter p rest := by
  induction l with
  | nil => simp [cutAfter, ha]
  | cons b l ih =>
    obtain ⟨hb, hl⟩ := List.forall_mem_cons.1 hl
    rw [List.cons_append, cutAfter, hb, ih hl]
    rfl

/-- **Cutting loses nothing.** -/
theorem flatten_cutAfter (p : α → Bool) (l : List α) : (cutAfter p l).flatten = l := by
  induction l using cut_induction (p := p) with
  | whole l hl =>
    cases l with
    | nil => rfl
    | cons a l => rw [cutAfter_of_forall hl (List.cons_ne_nil _ _), List.flatten_singleton]
  | cut l a rest hl ha ih => simp [cutAfter_append_cons hl ha, ih]

/-- Parts that end where a list is cut stay apart, whatever follows them. -/
theorem cutAfter_flatten_append {parts : List (List α)}
    (hparts : ∀ part ∈ parts, ∃ l a, part = l ++ [a] ∧ (∀ x ∈ l, p x = false) ∧ p a = true) :
    cutAfter p (parts.flatten ++ rest) = parts ++ cutAfter p rest := by
  induction parts with
  | nil => rfl
  | cons part parts ih =>
    obtain ⟨⟨l, a, rfl, hl, ha⟩, hmore⟩ := List.forall_mem_cons.1 hparts
    rw [List.flatten_cons, List.append_assoc, List.append_assoc, List.singleton_append,
      cutAfter_append_cons hl ha, ih hmore, List.cons_append]

/-- Each part but the last ends where the list is cut. -/
theorem ends_of_cutAfter {parts more : List (List α)} {last : List α}
    (h : cutAfter p l = parts ++ last :: more) :
    ∀ part ∈ parts, ∃ l a, part = l ++ [a] ∧ (∀ x ∈ l, p x = false) ∧ p a = true := by
  induction l using cut_induction (p := p) generalizing parts with
  | whole l hl =>
    have hparts : parts = [] := by
      cases l with
      | nil => simp [cutAfter] at h
      | cons a l =>
        rw [cutAfter_of_forall hl (List.cons_ne_nil _ _)] at h
        cases parts with
        | nil => rfl
        | cons part parts => simp at h
    rw [hparts]
    exact List.forall_mem_nil _
  | cut l a rest hl ha ih =>
    rw [cutAfter_append_cons hl ha] at h
    cases parts with
    | nil => exact List.forall_mem_nil _
    | cons part parts =>
      obtain ⟨rfl, hrest⟩ := List.cons.inj h
      exact List.forall_mem_cons.2 ⟨⟨l, a, rfl, hl, ha⟩, ih hrest⟩

/-- The first parts stay what they are when something else follows them. -/
theorem cutAfter_take_append {n : Nat} (hn : n < (cutAfter p l).length) (more : List α) :
    cutAfter p (((cutAfter p l).take n).flatten ++ more) =
      (cutAfter p l).take n ++ cutAfter p more := by
  have hsplit := List.take_append_drop n (cutAfter p l)
  rw [List.drop_eq_getElem_cons hn] at hsplit
  exact cutAfter_flatten_append (ends_of_cutAfter hsplit.symm)

theorem cutAfter_flatten_take (p : α → Bool) (l : List α) (n : Nat) :
    cutAfter p ((cutAfter p l).take n).flatten = (cutAfter p l).take n := by
  by_cases hn : n < (cutAfter p l).length
  · simpa [cutAfter] using cutAfter_take_append hn []
  · rw [List.take_of_length_le (by omega), flatten_cutAfter]

end CutAfter

/-! ## The break that ends a grammar -/

/-- The entries before the first blank one that comes after one of a kind; all of them if there is
none. -/
def beforeBreak (kind blank : α → Bool) (l : List α) : List α :=
  l.takeWhile (!kind ·) ++ (l.dropWhile (!kind ·)).takeWhile (!blank ·)

section BeforeBreak

variable {kind blank : α → Bool} {a : α} {l before after : List α}

theorem beforeBreak_cons :
    beforeBreak kind blank (a :: l) =
      if kind a then (a :: l).takeWhile (!blank ·) else a :: beforeBreak kind blank l := by
  cases h : kind a <;> simp [beforeBreak, h]

/-- Nothing breaks off where nothing is blank. -/
theorem beforeBreak_eq_self (h : ∀ x ∈ l, blank x = false) : beforeBreak kind blank l = l := by
  have hrest : (l.dropWhile (!kind ·)).takeWhile (!blank ·) = l.dropWhile (!kind ·) :=
    List.takeWhile_eq_self_iff.2 fun x hx => by
      simpa using h x ((List.dropWhile_suffix _).subset hx)
  rw [beforeBreak, hrest, List.takeWhile_append_dropWhile]

/-- The entries before the break come first. -/
theorem exists_eq_beforeBreak_append (kind blank : α → Bool) (l : List α) :
    ∃ after, l = beforeBreak kind blank l ++ after :=
  ⟨(l.dropWhile (!kind ·)).dropWhile (!blank ·), by
    rw [beforeBreak, List.append_assoc, List.takeWhile_append_dropWhile,
      List.takeWhile_append_dropWhile]⟩

/-- The entry at the break is blank. -/
theorem blank_of_eq_beforeBreak_append (h : l = beforeBreak kind blank l ++ a :: after) :
    blank a = true := by
  induction l with
  | nil => simp at h
  | cons b l ih =>
    rw [beforeBreak_cons] at h
    split at h
    · have hdrop : (b :: l).dropWhile (!blank ·) = a :: after :=
        List.append_cancel_left ((List.takeWhile_append_dropWhile ..).trans h)
      have hhead := List.head_dropWhile_not (!blank ·) (l := b :: l) (by simp [hdrop])
      simpa [hdrop] using hhead
    · exact ih (List.cons.inj h).2

/-- **What comes after the break does not matter.** -/
theorem beforeBreak_append {more : List α}
    (h : l = beforeBreak kind blank l ++ a :: after) :
    beforeBreak kind blank (beforeBreak kind blank l ++ a :: more) = beforeBreak kind blank l := by
  have hblank := blank_of_eq_beforeBreak_append h
  induction l with
  | nil => simp at h
  | cons b l ih =>
    rw [beforeBreak_cons] at h ⊢
    split at h
    · rename_i hb
      rw [if_pos hb]
      cases hbb : blank b with
      | true =>
        obtain rfl : b = a := by
          simp only [List.takeWhile_cons, hbb] at h
          exact (List.cons.inj h).1
        simp [beforeBreak_cons, hb, hbb]
      | false =>
        have htake : ∀ x ∈ l.takeWhile (!blank ·), (!blank x) = true :=
          fun x => List.mem_takeWhile_imp
        simp only [List.takeWhile_cons, hbb, Bool.not_false, if_true, List.cons_append,
          beforeBreak_cons, hb]
        rw [List.takeWhile_append_of_pos htake]
        simp [hblank]
    · rename_i hb
      rw [if_neg hb, List.cons_append, beforeBreak_cons, if_neg hb, ih (List.cons.inj h).2]

theorem take_succ_of_eq_append (h : l = before ++ a :: after) :
    l.take (before.length + 1) = before ++ [a] := by
  rw [h, List.take_length_add_append]
  rfl

/-- The entries up to the break, the blank one with them, break off at the same place. -/
theorem beforeBreak_take (kind blank : α → Bool) (l : List α) :
    beforeBreak kind blank (l.take ((beforeBreak kind blank l).length + 1)) =
      beforeBreak kind blank l := by
  obtain ⟨after, h⟩ := exists_eq_beforeBreak_append kind blank l
  cases after with
  | nil =>
    rw [List.append_nil] at h
    rw [← h, List.take_of_length_le (Nat.le_succ _)]
    exact h.symm
  | cons a after => rw [take_succ_of_eq_append h, beforeBreak_append h]

theorem beforeBreak_map {β : Type} (kind blank : β → Bool) (f : α → β) (l : List α) :
    beforeBreak kind blank (l.map f) = (beforeBreak (kind ∘ f) (blank ∘ f) l).map f := by
  simp only [beforeBreak, List.map_append, List.takeWhile_map, List.dropWhile_map]
  rfl

end BeforeBreak

/-! ## The lines of a text -/

/-- Lines without the blank ones at the end. -/
def dropBlankTail (lines : List Text) : List Text := lines.rdropWhile List.isEmpty

@[simp] theorem dropBlankTail_append_blank (lines : List Text) :
    dropBlankTail (lines ++ [[]]) = dropBlankTail lines :=
  List.rdropWhile_concat_pos _ _ _ rfl

theorem dropBlankTail_cons (line : Text) (lines : List Text) :
    dropBlankTail (line :: lines) =
      if (dropBlankTail lines).isEmpty then dropBlankTail [line]
      else line :: dropBlankTail lines := by
  simp only [dropBlankTail, List.rdropWhile, List.reverse_cons, List.dropWhile_append,
    List.isEmpty_reverse, List.reverse_nil, List.nil_append]
  split <;> simp

theorem dropBlankTail_cons_congr {line : Text} {xs ys : List Text}
    (h : dropBlankTail xs = dropBlankTail ys) :
    dropBlankTail (line :: xs) = dropBlankTail (line :: ys) := by
  rw [dropBlankTail_cons line xs, dropBlankTail_cons line ys, h]

namespace Text

theorem toNat_of_isAlpha {c : Char} (h : c.isAlpha = true) : 65 ≤ c.toNat ∧ c.toNat ≤ 122 := by
  simp only [Char.isAlpha, Char.isUpper, Char.isLower, Bool.or_eq_true, Bool.and_eq_true,
    decide_eq_true_eq, ge_iff_le, UInt32.le_iff_toNat_le, UInt32.reduceToNat, Char.reduceVal] at h
  unfold Char.toNat
  omega

/-- A letter is no blank. -/
theorem isBlank_of_isAlpha {c : Char} (h : c.isAlpha = true) : isBlank c = false := by
  have hbounds := toNat_of_isAlpha h
  simp only [isBlank, blankRanges, List.any_cons, List.any_nil, Bool.or_false, Bool.or_eq_false_iff,
    Bool.and_eq_false_iff, decide_eq_false_iff_not]
  omega

/-- A line without its end: a line feed, or a carriage return and a line feed. -/
def dropLineEnd : Text → Text
  | [] => []
  | ['\n'] => []
  | ['\r', '\n'] => []
  | c :: t => c :: dropLineEnd t

/-- The lines of a text as they stand, without their ends.  A final line feed ends the last line;
there is none after it. -/
def physicalLines (t : Text) : List Text := (cutAfter (· == '\n') t).map dropLineEnd

theorem trim_append_of_blank {t e : Text} (he : ∀ c ∈ e, isBlank c = true) :
    trim (t ++ e) = trim t := by
  have hreverse : ∀ c ∈ e.reverse, isBlank c = true := fun c hc => he c (List.mem_reverse.1 hc)
  unfold trim
  rw [List.dropWhile_append]
  split
  · rename_i hnil
    rw [List.isEmpty_iff.1 hnil, List.dropWhile_eq_nil_iff.2 he]
  · rw [List.reverse_append, List.dropWhile_append_of_pos hreverse]

theorem trim_append_feed (t : Text) : trim (t ++ ['\n']) = trim t :=
  trim_append_of_blank (List.forall_mem_singleton.2 (by decide))

/-- Blanks at neither end are left. -/
theorem trim_eq_self {t : Text} (hhead : ∀ c ∈ t.head?, isBlank c = false)
    (hlast : ∀ c ∈ t.getLast?, isBlank c = false) : trim t = t := by
  have hleft : t.dropWhile isBlank = t := by
    cases t with
    | nil => rfl
    | cons c t => rw [List.dropWhile_cons, hhead c rfl]; rfl
  have hright : t.reverse.dropWhile isBlank = t.reverse := by
    rw [← List.head?_reverse] at hlast
    cases h : t.reverse with
    | nil => rfl
    | cons c t =>
      rw [h] at hlast
      rw [List.dropWhile_cons, hlast c rfl]
      rfl
  rw [trim, hleft, hright, List.reverse_reverse]

theorem exists_eq_dropLineEnd_append (t : Text) :
    ∃ e, t = dropLineEnd t ++ e ∧ ∀ c ∈ e, isBlank c = true := by
  induction t using dropLineEnd.induct with
  | case1 => exact ⟨[], rfl, List.forall_mem_nil _⟩
  | case2 => exact ⟨['\n'], rfl, List.forall_mem_singleton.2 (by decide)⟩
  | case3 => exact ⟨['\r', '\n'], rfl, List.forall_mem_cons.2 ⟨by decide,
      List.forall_mem_singleton.2 (by decide)⟩⟩
  | case4 c t hfeed hreturn ih =>
    obtain ⟨e, ht, he⟩ := ih
    refine ⟨e, ?_, he⟩
    rw [dropLineEnd, List.cons_append, ← ht]
    · exact hfeed
    · exact hreturn

/-- The end of a line is trimmed away with its blanks. -/
theorem trim_dropLineEnd (t : Text) : trim (dropLineEnd t) = trim t := by
  obtain ⟨e, ht, he⟩ := exists_eq_dropLineEnd_append t
  calc trim (dropLineEnd t)
    _ = trim (dropLineEnd t ++ e) := (trim_append_of_blank he).symm
    _ = trim t := by rw [← ht]

theorem map_trim_physicalLines (t : Text) :
    t.physicalLines.map trim = (cutAfter (· == '\n') t).map trim := by
  rw [physicalLines, List.map_map]
  exact List.map_congr_left fun line _ => trim_dropLineEnd line

theorem lines_of_forall {t : Text} (ht : ∀ c ∈ t, (c == '\n') = false) : lines t = [trim t] := by
  rw [lines, List.splitOnP_eq_singleton ht, List.map_singleton]

theorem lines_append_cons {t rest : Text} {c : Char} (ht : ∀ c ∈ t, (c == '\n') = false)
    (hc : (c == '\n') = true) : lines (t ++ c :: rest) = trim t :: lines rest := by
  rw [lines, List.splitOnP_append_cons_of_forall_mem ht c hc, List.map_cons, ← lines]

/-- **The lines that are read are the physical lines, trimmed**, but for a blank one at the end. -/
theorem dropBlankTail_lines (t : Text) :
    dropBlankTail t.lines = dropBlankTail (t.physicalLines.map trim) := by
  rw [map_trim_physicalLines]
  induction t using cut_induction (p := (· == '\n')) with
  | whole t ht =>
    rw [lines_of_forall ht]
    cases t with
    | nil => rfl
    | cons c t => rw [cutAfter_of_forall ht (List.cons_ne_nil _ _), List.map_singleton]
  | cut t c rest ht hc ih =>
    obtain rfl : c = '\n' := beq_iff_eq.1 hc
    rw [lines_append_cons ht hc, cutAfter_append_cons ht hc, List.map_cons, trim_append_feed]
    exact dropBlankTail_cons_congr ih

end Text

end Chomsky
