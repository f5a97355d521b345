import Chomsky.Grammar

/-!
# Reading grammars from text

A grammar is written as lines `X -> alternative | alternative …`.  Blank lines before the first
rule are skipped, a blank line after a rule ends the grammar, and lines that begin with `#` are
comments.

* `bodyOfText` — the body that one alternative spells.
* `splitArrow?` — the head and the alternatives of a line, as they are written.
* `rulesOfLine` — the rules that one line spells.
* `block` — the lines that belong to a grammar.
* `Grammar.parse` — the grammar that a text spells under a configuration.

Principal results: `symbolsOfText_eq_ok` — letters are read as their symbols, one by one;
`bodyOfText_ne_nil` — no empty body is read.
-/

namespace Chomsky

/-- The symbols that the letters of a text stand for. -/
def symbolsOfText : Text → Except Malformation (List Symbol)
  | [] => .ok []
  | c :: t =>
    match Symbol.ofChar? c with
    | none => .error (.notSymbol c)
    | some s =>
      match symbolsOfText t with
      | .error e => .error e
      | .ok ss => .ok (s :: ss)

/-- The body that one alternative spells: the null symbol for the marker alone, else a symbol for
each letter. -/
def bodyOfText (marker : Char) (t : Text) : Except Malformation (List Symbol) :=
  if t = [] then .error .emptyBody
  else if t = [marker] then .ok [.null]
  else if marker ∈ t then .error (.mixedMarker t)
  else symbolsOfText t

theorem symbolsOfText_eq_ok {t : Text} {ss : List Symbol} :
    symbolsOfText t = .ok ss ↔ t.map Symbol.ofChar? = ss.map some := by
  induction t generalizing ss with
  | nil => cases ss <;> simp [symbolsOfText]
  | cons c t ih =>
    unfold symbolsOfText
    cases hc : Symbol.ofChar? c with
    | none => cases ss <;> simp [hc]
    | some s =>
      cases ht : symbolsOfText t with
      | error e =>
        cases ss with
        | nil => simp
        | cons s' ss =>
          have := mt ih.2 (by simp [ht] : ¬ symbolsOfText t = .ok ss)
          simp [hc, this]
      | ok ss' =>
        have := ih.1 ht
        cases ss with
        | nil => simp
        | cons s' ss => simp [hc, this, List.map_inj_right]

theorem bodyOfText_ne_nil {marker : Char} {t : Text} {body : List Symbol}
    (h : bodyOfText marker t = .ok body) : body ≠ [] := by
  unfold bodyOfText at h
  split at h
  · cases h
  split at h
  · cases h; simp
  split at h
  · cases h
  · rintro rfl
    have := symbolsOfText_eq_ok.1 h
    simp_all

/-- A head may hold any character but a blank and the two of the arrow. -/
def isHeadChar (c : Char) : Bool := !(Text.isBlank c || c == '-' || c == '>')

/-- What stands before the arrow of a line, without the blanks next to it, and what stands
after. -/
def splitArrow? (line : Text) : Option (Text × Text) :=
  match line.takeWhile isHeadChar, (line.dropWhile isHeadChar).dropWhile Text.isBlank with
  | c :: cs, '-' :: '>' :: rest => some (c :: cs, rest)
  | _, _ => none

/-- The head that a text spells: one upper-case letter. -/
def headOfText : Text → Except Malformation Char
  | [c] => if c.isUpper then .ok c else .error (.badHead [c])
  | t => .error (.badHead t)

/-- The rules with a given head for a list of alternatives. -/
def rulesOfPieces (marker head : Char) : List Text → Except Malformation (List Rule)
  | [] => .ok []
  | p :: ps =>
    match bodyOfText marker p with
    | .error e => .error e
    | .ok body =>
      match rulesOfPieces marker head ps with
      | .error e => .error e
      | .ok rules => .ok (⟨head, body⟩ :: rules)

/-- The rules that one line spells; there is at least one. -/
def rulesOfLine (marker : Char) (line : Text) : Except Malformation (List Rule) :=
  match splitArrow? line with
  | none => .error (.noArrow line)
  | some (before, after) =>
    match headOfText before with
    | .error e => .error e
    | .ok head =>
      match after.pieces with
      | [] => .error .emptyBody
      | ps => rulesOfPieces marker head ps

/-- A line that is neither blank nor a comment. -/
def isContent : Text → Bool
  | [] => false
  | c :: _ => c != '#'

/-- The lines of a grammar: all of them, or those before the first blank line that follows a rule
line. -/
def block : List Text → List Text
  | [] => []
  | line :: rest =>
    if isContent line then line :: rest.takeWhile (!·.isEmpty)
    else line :: block rest

/-- The rules of the lines from a given line number on. -/
def rulesOfLines (marker : Char) : Nat → List Text → Except GrammarError (List Rule)
  | _, [] => .ok []
  | number, line :: rest =>
    if isContent line then
      match rulesOfLine marker line with
      | .error reason => .error (.malformedRule number reason)
      | .ok rules =>
        match rulesOfLines marker (number + 1) rest with
        | .error e => .error e
        | .ok more => .ok (rules ++ more)
    else rulesOfLines marker (number + 1) rest

/-- The grammar that a text spells.  The configuration is checked first; equal rules are kept as
often as they are written. -/
def Grammar.parse (c : Config) (t : Text) : Except GrammarError Grammar :=
  match c.validate with
  | .error e => .error e
  | .ok () =>
    match rulesOfLines c.marker 1 (block t.lines) with
    | .error e => .error e
    | .ok rules => .ok { Grammar.empty c with rules }

end Chomsky
