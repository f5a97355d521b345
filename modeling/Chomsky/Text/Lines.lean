/-!
# Texts, lines and pieces

* `Text` — a text, as the list of its characters; `Text.string` — as a string.
* `Text.isBlank` — the Unicode property *White_Space*.
* `Text.trim` — a text without the blanks at its ends.
* `Text.lines` — the trimmed lines of a text.
* `Text.pieces` — the parts of a text between blanks and bars.

Principal results: `isBlank_of_isWhitespace` — the white space of ASCII is blank; `mem_pieces` — a
piece is not empty and holds no separator.
-/

namespace Chomsky

/-- A text is the list of its characters. -/
abbrev Text := List Char

namespace Text

/-- A text as a string. -/
def string (t : Text) : String := String.ofList t

/-- The ranges of the blank characters, ends included. -/
def blankRanges : List (Nat × Nat) :=
  [(0x09, 0x0D), (0x20, 0x20), (0x85, 0x85), (0xA0, 0xA0), (0x1680, 0x1680), (0x2000, 0x200A),
    (0x2028, 0x2029), (0x202F, 0x202F), (0x205F, 0x205F), (0x3000, 0x3000)]

/-- Whether a character is white space, in Unicode's sense. -/
def isBlank (c : Char) : Bool :=
  blankRanges.any fun r => r.1 ≤ c.toNat && c.toNat ≤ r.2

theorem isBlank_of_isWhitespace {c : Char} (h : c.isWhitespace = true) : isBlank c = true := by
  simp only [Char.isWhitespace, Bool.or_eq_true, decide_eq_true_eq] at h
  rcases h with ((rfl | rfl) | rfl) | rfl <;> decide

/-- A text without the blanks at its two ends. -/
def trim (t : Text) : Text :=
  ((t.dropWhile isBlank).reverse.dropWhile isBlank).reverse

/-- The lines of a text, trimmed.  A carriage return before a line feed is a blank, so it is
trimmed away; after a final line feed there is one more, empty line. -/
def lines (t : Text) : List Text :=
  (t.splitOnP (· == '\n')).map trim

/-- Alternatives are kept apart by bars and by blanks. -/
def isSeparator (c : Char) : Bool := c == '|' || isBlank c

/-- The parts of a text between separators, the empty ones left out. -/
def pieces (t : Text) : List Text :=
  (t.splitOnP isSeparator).filter (!·.isEmpty)

theorem mem_pieces {t p : Text} (h : p ∈ t.pieces) :
    p ≠ [] ∧ ∀ c ∈ p, isSeparator c = false := by
  obtain ⟨hp, hne⟩ := List.mem_filter.1 h
  refine ⟨by simpa using hne, ?_⟩
  clear h hne
  induction t generalizing p with
  | nil => simp_all
  | cons d t ih =>
    rw [List.splitOnP_cons_eq_if_modifyHead] at hp
    split at hp
    · rcases List.mem_cons.1 hp with rfl | hp
      · simp
      · exact ih hp
    · rename_i hd
      obtain ⟨q, qs, hq⟩ := List.exists_cons_of_ne_nil (List.splitOnP_ne_nil isSeparator t)
      rw [hq, List.modifyHead_cons] at hp
      rcases List.mem_cons.1 hp with rfl | hp
      · intro c hc
        rcases List.mem_cons.1 hc with rfl | hc
        · simpa using hd
        · exact ih (hq ▸ List.mem_cons_self ..) c hc
      · exact ih (hq ▸ List.mem_cons_of_mem _ hp)

end Text

end Chomsky
