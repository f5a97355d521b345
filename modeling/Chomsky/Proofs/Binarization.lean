import Chomsky.Binarization
import Chomsky.Proofs.NameSupply

/-!
# What a run of binarization does

The run walks over the rules and asks the supply for names.  Here the walk is described by lists:
what it asks for, which names it gets for links, and which rules it writes.

* `demands` — what the run asks for, rule by rule: names for terminals, then names for links.
* `linkRules`, `Rule.encode` — the rules written for a body, given the names of its symbols and of
  its links; `Rule.linkPart`, `Rule.leading` — those for the links, and the one that keeps the head.
* `Plan` — the rules of a grammar, each with the links that it got; `Plan.linkGrants` — the links in
  the order in which they are granted.
* `Binarized` — a plan with the supply that is left at the end of a run.

Principal results: `splitRules_ok`, `splitRules_error` — what a run over a list of rules does;
`Grammar.binarization_ok`, `Grammar.binarization_error` — the same for a grammar;
`length_demands` — how much is asked for depends on the letters and on the lengths of the bodies
only.
-/

namespace Chomsky

/-! ## What is asked for -/

/-- The demands for the name of one symbol in a rule for `head`. -/
def symbolDemands (head : Char) (known : CharSet) : Symbol → List Demand
  | .nonterminal _ => []
  | .terminal letter => NameSupply.letterDemands known letter
  | .null => [.fault (.nullInside head)]

/-- The demands for the names of a body, from left to right; a terminal that has been named is not
asked for again. -/
def bodyDemands (head : Char) (known : CharSet) : List Symbol → List Demand
  | [] => []
  | x :: rest =>
    symbolDemands head known x ++ bodyDemands head (known.insertAll x.terminal?.toList) rest

namespace Rule

/-- The symbols of a rule that get a name: all of them, unless the body is one symbol. -/
def namedSymbols (r : Rule) : List Symbol :=
  match r.body with
  | first :: second :: rest => first :: second :: rest
  | _ => []

/-- The terminals of a rule that get a name. -/
def namedLetters (r : Rule) : List Char := r.namedSymbols.filterMap Symbol.terminal?

/-- The number of links of a rule. -/
def linkCount (r : Rule) : Nat := r.body.length - 2

/-- The demands of one rule: names for its terminals, then names for its links. -/
def demands (known : CharSet) (r : Rule) : List Demand :=
  match r.body with
  | [] => [.fault (.emptyBodyFor r.head)]
  | [_] => []
  | first :: second :: rest =>
    bodyDemands r.head known (first :: second :: rest) ++
      List.replicate rest.length (.name (.link r.head))

end Rule

/-- The demands of a list of rules, in order. -/
def demands (known : CharSet) : List Rule → List Demand
  | [] => []
  | r :: rest => r.demands known ++ demands (known.insertAll r.namedLetters) rest

/-! ## How much is asked for -/

section Length

variable {r : Rule} {rules : List Rule}

/-- A terminal is asked for when it is not known yet, so demands and known terminals add up to the
terminals that are known afterwards. -/
theorem length_letterDemands (known : CharSet) (a : Char) :
    (NameSupply.letterDemands known a).length + known.size = (known.insert a).size := by
  unfold NameSupply.letterDemands
  split
  · rename_i hmem
    rw [CharSet.insert_of_mem hmem]
    exact Nat.zero_add _
  · rename_i hmem
    rw [CharSet.size_insert_of_not_mem hmem]
    exact Nat.add_comm ..

theorem length_bodyDemands {head : Char} {known : CharSet} {body : List Symbol}
    (hnull : Symbol.null ∉ body) :
    (bodyDemands head known body).length + known.size =
      (known.insertAll (body.filterMap Symbol.terminal?)).size := by
  induction body generalizing known with
  | nil => exact Nat.zero_add _
  | cons x rest ih =>
    have hrest : Symbol.null ∉ rest := List.not_mem_of_not_mem_cons hnull
    rw [bodyDemands, List.length_append]
    cases x with
    | nonterminal X =>
      show 0 + (bodyDemands head known rest).length + known.size =
        (known.insertAll (rest.filterMap Symbol.terminal?)).size
      rw [Nat.zero_add]
      exact ih hrest
    | terminal a =>
      have hletter := length_letterDemands known a
      have htail : (bodyDemands head (known.insert a) rest).length + (known.insert a).size =
          ((known.insert a).insertAll (rest.filterMap Symbol.terminal?)).size := ih hrest
      show (NameSupply.letterDemands known a).length +
        (bodyDemands head (known.insert a) rest).length + known.size =
          ((known.insert a).insertAll (rest.filterMap Symbol.terminal?)).size
      omega
    | null => exact absurd (List.mem_cons_self ..) hnull

theorem Rule.length_demands (known : CharSet) (hne : r.body ≠ [])
    (hnull : Symbol.null ∉ r.namedSymbols) :
    (r.demands known).length + known.size =
      (known.insertAll r.namedLetters).size + r.linkCount := by
  unfold demands namedLetters linkCount
  unfold namedSymbols at hnull ⊢
  match hbody : r.body with
  | [] => exact absurd hbody hne
  | [x] => exact Nat.zero_add _
  | first :: second :: rest =>
    rw [hbody] at hnull
    have hlength : (bodyDemands r.head known (first :: second :: rest)).length + known.size =
        (known.insertAll ((first :: second :: rest).filterMap Symbol.terminal?)).size :=
      length_bodyDemands hnull
    simp only [List.length_append, List.length_replicate, List.length_cons]
    omega

/-- **How much is asked for** depends on the terminals that get a name and on the numbers of links
only. -/
theorem length_demands (known : CharSet) (hne : ∀ r ∈ rules, r.body ≠ [])
    (hnull : ∀ r ∈ rules, Symbol.null ∉ r.namedSymbols) :
    (demands known rules).length + known.size =
      (known.insertAll (rules.flatMap Rule.namedLetters)).size +
        (rules.map Rule.linkCount).sum := by
  induction rules generalizing known with
  | nil => exact Nat.zero_add _
  | cons r rules ih =>
    obtain ⟨hner, hne⟩ := List.forall_mem_cons.1 hne
    obtain ⟨hnullr, hnull⟩ := List.forall_mem_cons.1 hnull
    have hfirst := Rule.length_demands known hner hnullr
    have hrest := ih (known.insertAll r.namedLetters) hne hnull
    rw [demands, List.length_append, List.flatMap_cons, CharSet.insertAll_append,
      List.map_cons, List.sum_cons]
    omega

/-- Rules in another order ask for as much. -/
theorem length_demands_perm {rules' : List Rule} (hperm : rules.Perm rules')
    (hne : ∀ r ∈ rules, r.body ≠ []) (hnull : ∀ r ∈ rules, Symbol.null ∉ r.namedSymbols) :
    (demands ∅ rules).length = (demands ∅ rules').length := by
  have hlength := length_demands ∅ hne hnull
  have hlength' := length_demands ∅ (fun r hr => hne r (hperm.mem_iff.2 hr))
    (fun r hr => hnull r (hperm.mem_iff.2 hr))
  rw [CharSet.insertAll_congr fun c => (hperm.flatMap_right Rule.namedLetters).mem_iff,
    (hperm.map Rule.linkCount).sum_nat] at hlength
  omega

end Length

/-! ## What is written -/

/-- The rules that unfold the links of a list of nonterminals.  The first link stands for the whole
list, the next one for its tail, and so on; the rules are written from the last link on. -/
def linkRules : Char → List Char → List Char → List Rule
  | first, second :: rest, link :: links =>
    linkRules second rest links ++ [pairRule link first (links.headD second)]
  | _, _, _ => []

/-- The rules that replace a rule, given a name for each symbol and the links. -/
def Rule.encode (r : Rule) (nameOf : Symbol → Char) (links : List Char) : List Rule :=
  match r.body with
  | first :: second :: rest =>
    linkRules (nameOf second) (rest.map nameOf) links ++
      [pairRule r.head (nameOf first) (links.headD (nameOf second))]
  | _ => [r]

/-- The rules for the links of a rule, in the order in which they are written. -/
def Rule.linkPart (r : Rule) (nameOf : Symbol → Char) (links : List Char) : List Rule :=
  match r.body with
  | _ :: second :: rest => linkRules (nameOf second) (rest.map nameOf) links
  | _ => []

/-- The rule that is written after those for the links; it keeps the head. -/
def Rule.leading (r : Rule) (nameOf : Symbol → Char) (links : List Char) : Rule :=
  match r.body with
  | first :: second :: _ => pairRule r.head (nameOf first) (links.headD (nameOf second))
  | _ => r

/-- Rules, each with the links that it got. -/
abbrev Plan := List (Rule × List Char)

/-- The rules that a plan writes. -/
def Plan.encode (nameOf : Symbol → Char) (plan : Plan) : List Rule :=
  plan.flatMap fun p => p.1.encode nameOf p.2

/-- The links of a plan. -/
def Plan.links (plan : Plan) : List Char := plan.flatMap Prod.snd

/-- The links of a rule in the order in which they are granted, with the head of the rule: the last
part of a body gets its link first. -/
def Rule.linkGrants (r : Rule) (links : List Char) : List (Char × Char) :=
  links.reverse.map fun link => (link, r.head)

/-- The links of a plan in the order in which they are granted, with the heads of their rules. -/
def Plan.linkGrants (plan : Plan) : List (Char × Char) :=
  plan.flatMap fun p => p.1.linkGrants p.2

theorem Plan.map_fst_linkGrants_perm (plan : Plan) :
    (plan.linkGrants.map Prod.fst).Perm plan.links := by
  rw [Plan.linkGrants, List.map_flatMap]
  refine List.Perm.flatMap_left plan fun p _ => ?_
  rw [Rule.linkGrants, List.map_map]
  exact (List.Perm.of_eq (List.map_id _)).trans (List.reverse_perm p.2)

namespace Rule

variable {r : Rule} {first second : Symbol} {rest : List Symbol} {nameOf nameOf' : Symbol → Char}
  {links : List Char} {a : Char} {x : Symbol}

theorem short_or_long (r : Rule) :
    r.body.length ≤ 1 ∨ ∃ first second rest, r.body = first :: second :: rest := by
  match r.body with
  | [] => exact .inl (Nat.zero_le 1)
  | [_] => exact .inl (Nat.le_refl 1)
  | first :: second :: rest => exact .inr ⟨first, second, rest, rfl⟩

theorem namedSymbols_of_short (h : r.body.length ≤ 1) : r.namedSymbols = [] := by
  unfold namedSymbols
  split
  · rename_i hbody
    rw [hbody] at h
    simp at h
  · rfl

theorem namedSymbols_of_long (h : r.body = first :: second :: rest) :
    r.namedSymbols = first :: second :: rest := by
  rw [namedSymbols, h]

/-- A rule whose body is one symbol is written as it is. -/
theorem encode_of_short (h : r.body.length ≤ 1) : r.encode nameOf links = [r] := by
  unfold encode
  split
  · rename_i hbody
    rw [hbody] at h
    simp at h
  · rfl

theorem encode_of_long (h : r.body = first :: second :: rest) :
    r.encode nameOf links = linkRules (nameOf second) (rest.map nameOf) links ++
      [pairRule r.head (nameOf first) (links.headD (nameOf second))] := by
  rw [encode, h]

/-- The head is the first link: it stands for the whole body as a link does for its rest. -/
theorem encode_eq_linkRules (h : r.body = first :: second :: rest) :
    r.encode nameOf links =
      linkRules (nameOf first) ((second :: rest).map nameOf) (r.head :: links) := by
  rw [encode_of_long h]
  rfl

theorem encode_eq_append (r : Rule) (nameOf : Symbol → Char) (links : List Char) :
    r.encode nameOf links = r.linkPart nameOf links ++ [r.leading nameOf links] := by
  unfold encode linkPart leading
  split <;> rfl

@[simp] theorem head_leading (r : Rule) (nameOf : Symbol → Char) (links : List Char) :
    (r.leading nameOf links).head = r.head := by
  unfold leading
  split <;> rfl

theorem encode_congr (h : ∀ x ∈ r.namedSymbols, nameOf x = nameOf' x) :
    r.encode nameOf links = r.encode nameOf' links := by
  rcases r.short_or_long with hshort | ⟨first, second, rest, hlong⟩
  · rw [encode_of_short hshort, encode_of_short hshort]
  · rw [namedSymbols_of_long hlong] at h
    have htail : (second :: rest).map nameOf = (second :: rest).map nameOf' :=
      List.map_congr_left fun x hx => h x (List.mem_cons_of_mem _ hx)
    rw [encode_eq_linkRules hlong, encode_eq_linkRules hlong, htail,
      h first (List.mem_cons_self ..)]

theorem mem_namedLetters : a ∈ r.namedLetters ↔ .terminal a ∈ r.namedSymbols := by
  simp [namedLetters]

theorem mem_body_of_mem_namedSymbols (h : x ∈ r.namedSymbols) : x ∈ r.body := by
  rcases r.short_or_long with hshort | ⟨first, second, rest, hlong⟩
  · rw [namedSymbols_of_short hshort] at h
    exact absurd h List.not_mem_nil
  · rwa [hlong, ← namedSymbols_of_long hlong]

end Rule

/-! ## The names of a body -/

section Names

variable {head first name tail : Char} {s t : NameSupply} {x : Symbol} {body : List Symbol}
  {names rest : List Char} {rules : List Rule} {e : GrammarError}

theorem nameSymbol_ok (h : nameSymbol head s x = .ok (name, t)) :
    s.Serves (symbolDemands head s.letters x) t ∧ s.Extends x.terminal?.toList [] t ∧
      name = t.nameOf x := by
  cases x with
  | nonterminal X =>
    cases h
    exact ⟨.refl s, .refl s, rfl⟩
  | null => cases h
  | terminal a =>
    simp only [nameSymbol] at h
    split at h
    · cases h
    · rename_i hstand
      cases h
      obtain ⟨hserves, hext, hlookup⟩ := NameSupply.standIn_ok hstand
      exact ⟨hserves, hext, by rw [NameSupply.nameOf, hlookup]; rfl⟩

theorem nameSymbol_error (h : nameSymbol head s x = .error (e, t)) :
    s.Fails (symbolDemands head s.letters x) e t := by
  cases x with
  | nonterminal X => cases h
  | null =>
    cases h
    exact .of_refuses rfl
  | terminal a =>
    simp only [nameSymbol] at h
    split at h
    · rename_i hstand
      cases h
      exact NameSupply.standIn_error hstand
    · cases h

theorem filterMap_terminal?_cons :
    (x :: body).filterMap Symbol.terminal? =
      x.terminal?.toList ++ body.filterMap Symbol.terminal? := by
  rw [List.filterMap_cons]
  cases x.terminal? <;> rfl

/-- **The names of a body** are those that its symbols have at the end. -/
theorem nameSymbols_ok (h : nameSymbols head s body = .ok (names, t)) :
    s.Serves (bodyDemands head s.letters body) t ∧
      s.Extends (body.filterMap Symbol.terminal?) [] t ∧ names = body.map t.nameOf := by
  induction body generalizing s names with
  | nil =>
    cases h
    exact ⟨.refl _, .refl _, rfl⟩
  | cons x rest ih =>
    unfold nameSymbols at h
    split at h
    · cases h
    · rename_i name u hname
      split at h
      · cases h
      · rename_i more v hmore
        cases h
        obtain ⟨hserves, hext, hx⟩ := nameSymbol_ok hname
        obtain ⟨hserves', hext', hnames⟩ := ih hmore
        rw [hext.letters] at hserves'
        refine ⟨hserves.trans hserves', ?_, ?_⟩
        · rw [filterMap_terminal?_cons]
          exact hext.trans hext'
        · rw [List.map_cons, hnames, hx, hext'.nameOf fun a ha => ?_]
          rw [hext.letters, ha]
          exact CharSet.mem_insertAll.2 (.inl (List.mem_singleton.2 rfl))

theorem nameSymbols_error (h : nameSymbols head s body = .error (e, t)) :
    s.Fails (bodyDemands head s.letters body) e t := by
  induction body generalizing s with
  | nil => cases h
  | cons x rest ih =>
    unfold nameSymbols at h
    split at h
    · rename_i hname
      cases h
      exact (nameSymbol_error hname).append _
    · rename_i name u hname
      split at h
      · rename_i hmore
        cases h
        obtain ⟨hserves, hext, -⟩ := nameSymbol_ok hname
        have hfails := ih hmore
        rw [hext.letters] at hfails
        exact hfails.after hserves
      · cases h

/-! ## The links of a body -/

theorem linkSuffix_ok (h : linkSuffix head s first rest = .ok (tail, rules, t)) :
    ∃ links, links.length = rest.length ∧ tail = links.headD first ∧
      rules = linkRules first rest links ∧
      s.Serves (List.replicate rest.length (.name (.link head))) t ∧
      s.Extends [] (links.reverse.map fun link => (link, head)) t := by
  induction rest generalizing first tail rules t with
  | nil =>
    cases h
    exact ⟨[], rfl, rfl, rfl, .refl s, .refl s⟩
  | cons second rest ih =>
    unfold linkSuffix at h
    split at h
    · cases h
    · rename_i inner more u hmore
      split at h
      · cases h
      · rename_i link v hfresh
        cases h
        obtain ⟨links, hlength, rfl, rfl, hserves, hext⟩ := ih hmore
        refine ⟨tail :: links, by rw [List.length_cons, hlength]; rfl, rfl, rfl, ?_, ?_⟩
        · rw [List.length_cons, List.replicate_succ']
          exact hserves.trans (NameSupply.serves_of_fresh hfresh)
        · rw [List.reverse_cons, List.map_append]
          exact hext.trans (NameSupply.extends_of_fresh hfresh)

theorem linkSuffix_error (h : linkSuffix head s first rest = .error (e, t)) :
    s.Fails (List.replicate rest.length (.name (.link head))) e t := by
  induction rest generalizing first with
  | nil => cases h
  | cons second rest ih =>
    unfold linkSuffix at h
    rw [List.length_cons, List.replicate_succ']
    split at h
    · rename_i hmore
      cases h
      exact (ih hmore).append _
    · rename_i inner more u hmore
      split at h
      · rename_i hfresh
        cases h
        obtain ⟨links, -, -, -, hserves, -⟩ := linkSuffix_ok hmore
        exact (NameSupply.fails_of_fresh hfresh).after hserves
      · cases h

end Names

/-! ## Rules -/

section Rules

variable {s t : NameSupply} {r : Rule} {rules out : List Rule} {e : GrammarError}

/-- A rule of two or more symbols is split in two steps: its symbols are named, then linked. -/
theorem splitRule_eq {first second : Symbol} {rest : List Symbol}
    (hbody : r.body = first :: second :: rest) :
    splitRule s r =
      match nameSymbols r.head s r.body with
      | .error e => .error e
      | .ok (names, t) =>
        match linkSuffix r.head t (names.getD 1 default) (names.drop 2) with
        | .error e => .error e
        | .ok (tail, links, t) =>
          .ok (links ++ [pairRule r.head (names.headD default) tail], t) := by
  unfold splitRule
  rw [hbody]
  simp only [nameSymbols]
  cases nameSymbol r.head s first with
  | error e => rfl
  | ok p =>
    cases hsecond : nameSymbol r.head p.2 second with
    | error e => simp only [hsecond]
    | ok q =>
      cases hrest : nameSymbols r.head q.2 rest with
      | error e => simp only [hsecond, hrest]
      | ok n =>
        cases hlinks : linkSuffix r.head n.2 q.1 n.1 with
        | error e => simp [hsecond, hrest, hlinks]
        | ok l => simp [hsecond, hrest, hlinks]

/-- **What replaces a rule** is its encoding under the names at the end. -/
theorem splitRule_ok (h : splitRule s r = .ok (out, t)) :
    ∃ links, links.length = r.linkCount ∧ out = r.encode t.nameOf links ∧
      s.Serves (r.demands s.letters) t ∧ s.Extends r.namedLetters (r.linkGrants links) t := by
  match hbody : r.body with
  | [] =>
    rw [splitRule, hbody] at h
    cases h
  | [x] =>
    rw [splitRule, hbody] at h
    cases h
    have hshort : r.body.length ≤ 1 := by simp [hbody]
    have hcount : r.linkCount = 0 := by simp [Rule.linkCount, hbody]
    have hdemands : r.demands s.letters = [] := by rw [Rule.demands, hbody]
    have hletters : r.namedLetters = [] := by
      rw [Rule.namedLetters, Rule.namedSymbols_of_short hshort]
      rfl
    rw [hcount, hdemands, hletters]
    exact ⟨[], rfl, (Rule.encode_of_short hshort).symm, .refl s, .refl s⟩
  | first :: second :: rest =>
    rw [splitRule_eq hbody] at h
    split at h
    · cases h
    · rename_i names u hnames
      split at h
      · cases h
      · rename_i tail rules v hlinks
        cases h
        obtain ⟨hserves, hext, rfl⟩ := nameSymbols_ok hnames
        obtain ⟨links, hlength, rfl, rfl, hserves', hext'⟩ := linkSuffix_ok hlinks
        have hcount : links.length = r.linkCount := by simpa [Rule.linkCount, hbody] using hlength
        have hdemands : r.demands s.letters = bodyDemands r.head s.letters r.body ++
            List.replicate rest.length (.name (.link r.head)) := by rw [Rule.demands, hbody]
        have hletters : r.namedLetters = r.body.filterMap Symbol.terminal? := by
          rw [Rule.namedLetters, Rule.namedSymbols_of_long hbody, hbody]
        have hencode : r.encode u.nameOf links = r.encode t.nameOf links := by
          -- the links are granted after the names, which they do not change
          refine Rule.encode_congr fun x hx => (hext'.nameOf fun a ha => ?_).symm
          rw [hext.letters, ← hletters]
          exact CharSet.mem_insertAll.2 (.inl (Rule.mem_namedLetters.2 (ha ▸ hx)))
        refine ⟨links, hcount, ?_, ?_, ?_⟩
        · rw [← hencode, Rule.encode_of_long hbody, hbody]
          rfl
        · rw [hdemands]
          exact hserves.trans (by simpa [hbody] using hserves')
        · have hboth := hext.trans hext'
          rw [List.append_nil, List.nil_append] at hboth
          rw [hletters]
          exact hboth

theorem splitRule_error (h : splitRule s r = .error (e, t)) :
    s.Fails (r.demands s.letters) e t := by
  unfold Rule.demands
  match hbody : r.body with
  | [] =>
    rw [splitRule, hbody] at h
    cases h
    exact .of_refuses rfl
  | [x] =>
    rw [splitRule, hbody] at h
    cases h
  | first :: second :: rest =>
    rw [splitRule_eq hbody] at h
    split at h
    · rename_i hnames
      cases h
      rw [hbody] at hnames
      exact (nameSymbols_error hnames).append _
    · rename_i names u hnames
      split at h
      · rename_i hlinks
        cases h
        obtain ⟨hserves, -, rfl⟩ := nameSymbols_ok hnames
        have hfails := linkSuffix_error hlinks
        rw [hbody] at hserves hfails
        exact NameSupply.Fails.after (by simpa using hfails) hserves
      · cases h

/-- **What a run over a list of rules does.** -/
theorem splitRules_ok (h : splitRules s rules = .ok (out, t)) :
    ∃ plan : Plan, plan.map Prod.fst = rules ∧ (∀ p ∈ plan, p.2.length = p.1.linkCount) ∧
      out = plan.encode t.nameOf ∧ s.Serves (demands s.letters rules) t ∧
      s.Extends (rules.flatMap Rule.namedLetters) plan.linkGrants t := by
  induction rules generalizing s out with
  | nil =>
    cases h
    exact ⟨[], rfl, by simp, rfl, .refl _, .refl _⟩
  | cons r rules ih =>
    unfold splitRules at h
    split at h
    · cases h
    · rename_i first u hfirst
      split at h
      · cases h
      · rename_i more v hmore
        cases h
        obtain ⟨links, hlength, rfl, hserves, hext⟩ := splitRule_ok hfirst
        obtain ⟨plan, rfl, hlengths, rfl, hserves', hext'⟩ := ih hmore
        rw [hext.letters] at hserves'
        refine ⟨(r, links) :: plan, rfl, ?_, ?_, hserves.trans hserves', hext.trans hext'⟩
        · simpa using ⟨hlength, fun a b hab => hlengths (a, b) hab⟩
        · -- later rules keep the names of the symbols of this one
          have hencode : r.encode u.nameOf links = r.encode t.nameOf links := by
            refine Rule.encode_congr fun x hx => (hext'.nameOf fun a ha => ?_).symm
            rw [hext.letters]
            exact CharSet.mem_insertAll.2 (.inl (Rule.mem_namedLetters.2 (ha ▸ hx)))
          rw [hencode]
          rfl

theorem splitRules_error (h : splitRules s rules = .error (e, t)) :
    s.Fails (demands s.letters rules) e t := by
  induction rules generalizing s with
  | nil => cases h
  | cons r rules ih =>
    unfold splitRules at h
    split at h
    · rename_i hfirst
      cases h
      exact (splitRule_error hfirst).append _
    · rename_i first u hfirst
      split at h
      · rename_i hmore
        cases h
        obtain ⟨links, -, -, hserves, hext⟩ := splitRule_ok hfirst
        have hfails := ih hmore
        rw [hext.letters] at hfails
        exact hfails.after hserves
      · cases h

/-- A rule of one symbol or of two nonterminals is written as it is, and asks for no name. -/
theorem splitRule_eq_self
    (h : r.body.length = 1 ∨ ∃ A B, r.body = [.nonterminal A, .nonterminal B]) :
    splitRule s r = .ok ([r], s) := by
  obtain ⟨head, body⟩ := r
  rcases h with hone | ⟨A, B, hpair⟩
  · obtain ⟨x, hx⟩ := List.length_eq_one_iff.1 hone
    subst hx
    rfl
  · subst hpair
    rfl

theorem splitRules_eq_self
    (h : ∀ r ∈ rules, r.body.length = 1 ∨ ∃ A B, r.body = [.nonterminal A, .nonterminal B]) :
    splitRules s rules = .ok (rules, s) := by
  induction rules with
  | nil => rfl
  | cons r rules ih =>
    obtain ⟨hr, hrules⟩ := List.forall_mem_cons.1 h
    simp only [splitRules, splitRule_eq_self hr, ih hrules]
    rfl

end Rules

/-! ## A whole run -/

/-- A plan for the rules of a grammar, with the supply that is left when it is carried out: all new
names are different, and free at the start, and the links and the stand-ins are what was granted. -/
structure Binarized (g : Grammar) (plan : Plan) (t : NameSupply) : Prop where
  rules : plan.map Prod.fst = g.rules
  lengths : ∀ p ∈ plan, p.2.length = p.1.linkCount
  serves : (NameSupply.ofGrammar g).Serves (demands ∅ g.rules) t
  letters : t.letters = CharSet.ofList (g.rules.flatMap Rule.namedLetters)
  names : (plan.links ++ t.pool).Perm (NameSupply.ofGrammar g).free
  ascending : (t.standIns.map Prod.fst).Pairwise (· < ·)
  linkGrants : linkGrants t.granted = plan.linkGrants
  standIns : t.standIns.Perm (standInGrants t.granted)

namespace Grammar

variable {g h : Grammar} {t : NameSupply} {e : GrammarError}

/-- What is written for the rules is the encoding of a plan. -/
theorem binarized_of_splitRules {out : List Rule}
    (hsplit : splitRules (.ofGrammar g) g.rules = .ok (out, t)) :
    ∃ plan, Binarized g plan t ∧ out = plan.encode t.nameOf := by
  obtain ⟨plan, hrules, hlengths, rfl, hserves, hext⟩ := splitRules_ok hsplit
  have hnames := (plan.map_fst_linkGrants_perm.append_right t.pool).symm.trans hext.pool.symm
  exact ⟨plan, ⟨hrules, hlengths, hserves, hext.letters, hnames, hext.ascending .nil,
    hext.linkGrants, hext.standIns .nil⟩, rfl⟩

/-- **A successful run writes the encoding of a plan, and the rules of the stand-ins.** -/
theorem binarization_ok (hrun : g.binarization = .ok (h, t)) :
    ∃ plan, Binarized g plan t ∧ h = g.withRules (plan.encode t.nameOf ++ t.rules) := by
  unfold binarization at hrun
  split at hrun
  · cases hrun
  · rename_i rules u hsplit
    cases hrun
    obtain ⟨plan, b, rfl⟩ := binarized_of_splitRules hsplit
    exact ⟨plan, b, rfl⟩

theorem binarization_error (hrun : g.binarization = .error (e, t)) :
    (NameSupply.ofGrammar g).Fails (demands ∅ g.rules) e t := by
  unfold binarization at hrun
  split at hrun
  · rename_i hsplit
    cases hrun
    exact splitRules_error hsplit
  · cases hrun

/-- **A grammar whose bodies are one symbol or two nonterminals stays as it is**, without
duplicates. -/
theorem binarize_eq_self (hnodup : g.rules.Nodup)
    (h : ∀ r ∈ g.rules, r.body.length = 1 ∨ ∃ A B, r.body = [.nonterminal A, .nonterminal B]) :
    g.binarize = .ok g := by
  have hnone : (NameSupply.ofGrammar g).rules = [] := rfl
  rw [binarize, binarization, splitRules_eq_self h]
  simp only [hnone, List.append_nil, withRules_rules hnodup]

theorem binarize_eq_ok : g.binarize = .ok h ↔ ∃ t, g.binarization = .ok (h, t) := by
  unfold binarize
  cases g.binarization with
  | error p => simp
  | ok p =>
    obtain ⟨k, t⟩ := p
    simp

/-- **A successful run has a plan**, which it writes. -/
theorem binarize_ok (hrun : g.binarize = .ok h) :
    ∃ plan t, Binarized g plan t ∧ h = g.withRules (plan.encode t.nameOf ++ t.rules) := by
  obtain ⟨t, hrun⟩ := binarize_eq_ok.1 hrun
  obtain ⟨plan, hplan⟩ := binarization_ok hrun
  exact ⟨plan, t, hplan⟩

theorem binarize_eq_error : g.binarize = .error e ↔ ∃ t, g.binarization = .error (e, t) := by
  unfold binarize
  cases g.binarization with
  | ok p => simp
  | error p =>
    obtain ⟨k, t⟩ := p
    simp

end Grammar

end Chomsky
