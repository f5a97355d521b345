import Chomsky.NameSupply

/-!
# Binarization

Every rule with a body of two or more symbols is replaced by rules whose bodies are two
nonterminals: terminals are replaced by stand-ins, and a long body is cut into pairs that are
linked by new nonterminals, from its end to its front.

* `nameSymbols` — the nonterminals that stand for the symbols of a body.
* `linkSuffix` — one nonterminal for a non-empty list of nonterminals, and the rules that unfold it.
* `splitRule`, `splitRules` — what replaces one rule, and a list of rules.
* `Grammar.binarization` — the grammar with split rules and the rules of the stand-ins after them,
  or the first failure; either comes with the supply of names as it is then.
* `Grammar.binarize`, `Grammar.grantedNames` — the grammar alone, the names given out alone.

Principal result: `body_of_mem_linkSuffix` — the links have bodies of two nonterminals.
-/

namespace Chomsky

/-- A failure, and the supply of names at that point. -/
abbrev Interrupted := GrammarError × NameSupply

/-- A rule with two nonterminals as its body. -/
def pairRule (head first second : Char) : Rule :=
  ⟨head, [.nonterminal first, .nonterminal second]⟩

/-- The nonterminal that stands for a symbol in a rule for `head`. -/
def nameSymbol (head : Char) (s : NameSupply) : Symbol → Except Interrupted (Char × NameSupply)
  | .nonterminal name => .ok (name, s)
  | .terminal letter =>
    match s.standIn letter with
    | .error e => .error (e, s)
    | .ok (name, s) => .ok (name, s)
  | .null => .error (.malformedRule 0 (.nullInside head), s)

/-- The nonterminals that stand for the symbols of a body, from left to right. -/
def nameSymbols (head : Char) (s : NameSupply) :
    List Symbol → Except Interrupted (List Char × NameSupply)
  | [] => .ok ([], s)
  | symbol :: rest =>
    match nameSymbol head s symbol with
    | .error e => .error e
    | .ok (name, s) =>
      match nameSymbols head s rest with
      | .error e => .error e
      | .ok (names, s) => .ok (name :: names, s)

/-- One nonterminal for a non-empty list of nonterminals.  A single one stands for itself; else
the tail of the list gets its nonterminal first, and a new link unfolds to the first nonterminal
and that one. -/
def linkSuffix (head : Char) (s : NameSupply) (first : Char) :
    List Char → Except Interrupted (Char × List Rule × NameSupply)
  | [] => .ok (first, [], s)
  | second :: rest =>
    match linkSuffix head s second rest with
    | .error e => .error e
    | .ok (tail, links, s) =>
      match s.fresh (.link head) with
      | .error e => .error (e, s)
      | .ok (name, s) => .ok (name, links ++ [pairRule name first tail], s)

/-- The rules that replace one rule: itself if its body is one symbol. -/
def splitRule (s : NameSupply) (r : Rule) : Except Interrupted (List Rule × NameSupply) :=
  match r.body with
  | [] => .error (.malformedRule 0 (.emptyBodyFor r.head), s)
  | [_] => .ok ([r], s)
  | first :: second :: rest =>
    match nameSymbol r.head s first with
    | .error e => .error e
    | .ok (a, s) =>
      match nameSymbol r.head s second with
      | .error e => .error e
      | .ok (b, s) =>
        match nameSymbols r.head s rest with
        | .error e => .error e
        | .ok (cs, s) =>
          match linkSuffix r.head s b cs with
          | .error e => .error e
          | .ok (tail, links, s) => .ok (links ++ [pairRule r.head a tail], s)

/-- The rules that replace a list of rules, in order. -/
def splitRules (s : NameSupply) : List Rule → Except Interrupted (List Rule × NameSupply)
  | [] => .ok ([], s)
  | r :: rest =>
    match splitRule s r with
    | .error e => .error e
    | .ok (rules, s) =>
      match splitRules s rest with
      | .error e => .error e
      | .ok (more, s) => .ok (rules ++ more, s)

theorem body_of_mem_linkSuffix {head first name : Char} {s t : NameSupply} {names : List Char}
    {links : List Rule} (h : linkSuffix head s first names = .ok (name, links, t)) :
    ∀ r ∈ links, ∃ a b, r = pairRule r.head a b := by
  induction names generalizing first name links t with
  | nil => cases h; simp
  | cons second rest ih =>
    unfold linkSuffix at h
    split at h
    · cases h
    · rename_i tail more u hmore
      split at h
      · cases h
      · cases h
        intro r hr
        rcases List.mem_append.1 hr with hr | hr
        · exact ih hmore r hr
        · exact ⟨first, tail, by rw [List.mem_singleton.1 hr]; rfl⟩

namespace Grammar

/-- The split rules, then the rules of the stand-ins. -/
def binarization (g : Grammar) : Except Interrupted (Grammar × NameSupply) :=
  match splitRules (.ofGrammar g) g.rules with
  | .error e => .error e
  | .ok (rules, s) => .ok (g.withRules (rules ++ s.rules), s)

/-- The binarized grammar. -/
def binarize (g : Grammar) : Except GrammarError Grammar :=
  match g.binarization with
  | .error (e, _) => .error e
  | .ok (h, _) => .ok h

/-- The names given out on the way, with their purposes. -/
def grantedNames (g : Grammar) : List (Char × Purpose) :=
  match g.binarization with
  | .error (_, s) => s.granted
  | .ok (_, s) => s.granted

end Grammar

end Chomsky
