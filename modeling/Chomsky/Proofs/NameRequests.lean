import Chomsky.Proofs.NamePlaces

/-!
# Which names binarization asks for, and when it fails

A run of binarization remembers which terminals have a stand-in, and stops where it gets no name.
Its course is given here in closed form: what each rule would ask for on its own, rule after rule,
with a stand-in asked for once only.  The first demand that cannot be served is the failure, and
without one the free letters are given out in order.

* `Symbol.demand?`, `Rule.ownDemands` — what a symbol and a rule ask for where nothing was asked for
  yet.
* `askOnce` — a list of demands without those for a terminal that was asked for before.
* `Grammar.walk`, `Grammar.requests` — all demands of a run, and the names among them.
* `Grammar.freeNames` — the letters that a grammar does not use.
* `Demand.failureAt`, `Grammar.firstFailure` — what goes wrong at a place of the walk, and what goes
  wrong first.

Principal results: `demands_eq_askOnce` — a run asks for what the rules ask for, once;
`Grammar.Splittable.length_requests` — how many names that are; `Grammar.binarize_eq_error_iff` —
the first failure is the error; `Grammar.placed_of_binarize` — the letters do what they were
requested for; `Grammar.binarize_requests` — which names are given, and when they are too few.
-/

namespace Chomsky

/-! ## Demands in closed form -/

namespace Demand

/-- What a new name is wanted for. -/
def purpose? : Demand → Option Purpose
  | name purpose => some purpose
  | fault _ => none

/-- A demand for the stand-in of a terminal. -/
def isStandIn : Demand → Bool
  | name (.terminal _) => true
  | _ => false

/-- What goes wrong at a place of a walk over demands when only so many letters are free at its
beginning. -/
def failureAt (room place : Nat) : Demand → Option GrammarError
  | name purpose => if place < room then none else some (.exhausted purpose)
  | fault reason => some (.malformedRule 0 reason)

/-- A demand is met already when it is for the stand-in of a known terminal. -/
def isOpen (known : CharSet) : Demand → Bool
  | name (.terminal a) => a ∉ known
  | _ => true

end Demand

/-- What a symbol asks for in a rule for `head` of two or more symbols. -/
def Symbol.demand? (head : Char) : Symbol → Option Demand
  | nonterminal _ => none
  | terminal letter => some (.name (.terminal letter))
  | null => some (.fault (.nullInside head))

/-- What a rule asks for: the stand-ins of its terminals from left to right, then a link for each
symbol but two. -/
def Rule.ownDemands (r : Rule) : List Demand :=
  match r.body with
  | [] => [.fault (.emptyBodyFor r.head)]
  | [_] => []
  | body => body.filterMap (Symbol.demand? r.head) ++
      List.replicate (body.length - 2) (.name (.link r.head))

/-- Demands without those for a stand-in that was demanded before. -/
def askOnce : List Demand → List Demand
  | [] => []
  | d :: ds => d :: (askOnce ds).filter fun e => !(e.isStandIn && e == d)

section AskOnce

variable {d : Demand} {ds es : List Demand} {known : CharSet} {r : Rule} {body : List Symbol}
  {head : Char}

theorem askOnce_append (ds es : List Demand) :
    askOnce (ds ++ es) = askOnce ds ++
      (askOnce es).filter fun e => !(e.isStandIn && ds.contains e) := by
  induction ds with
  | nil => simp [askOnce]
  | cons d ds ih =>
    simp only [List.cons_append, askOnce, ih, List.filter_append, List.filter_filter]
    refine congrArg (d :: ·) (congrArg (_ ++ ·) (List.filter_congr fun e _ => ?_))
    rw [List.contains_cons]
    cases e.isStandIn <;> cases e == d <;> simp

/-- Demands that are not for stand-ins are all kept. -/
theorem askOnce_eq_self (h : ∀ d ∈ ds, d.isStandIn = false) : askOnce ds = ds := by
  induction ds with
  | nil => rfl
  | cons d ds ih =>
    obtain ⟨-, hds⟩ := List.forall_mem_cons.1 h
    rw [askOnce, ih hds]
    refine congrArg (d :: ·) (List.filter_eq_self.2 fun e he => ?_)
    simp [hds e he]

/-- What is still open once more terminals are known. -/
theorem Demand.isOpen_insertAll {letters : List Char} (known : CharSet) (d : Demand)
    (hletters : ∀ a, Demand.name (.terminal a) ∈ ds ↔ a ∈ letters) :
    d.isOpen (known.insertAll letters) = (d.isOpen known && !(d.isStandIn && ds.contains d)) := by
  rw [Bool.eq_iff_iff]
  cases d with
  | fault reason => simp [isOpen, isStandIn]
  | name purpose =>
    cases purpose with
    | terminal a => simp [isOpen, isStandIn, hletters, and_comm]
    | link X => simp [isOpen, isStandIn]
    | named text => simp [isOpen, isStandIn]

theorem mem_filterMap_demand? {a : Char} :
    Demand.name (.terminal a) ∈ body.filterMap (Symbol.demand? head) ↔
      a ∈ body.filterMap Symbol.terminal? := by
  simp only [List.mem_filterMap, Symbol.terminal?_eq_some, exists_eq_right]
  constructor
  · rintro ⟨x, hx, hdemand⟩
    cases x <;> cases hdemand
    exact hx
  · intro ha
    exact ⟨.terminal a, ha, rfl⟩

/-- **The demands of a body** are those of its symbols, without the stand-ins that are known. -/
theorem bodyDemands_eq_askOnce (head : Char) (known : CharSet) (body : List Symbol) :
    bodyDemands head known body =
      (askOnce (body.filterMap (Symbol.demand? head))).filter (Demand.isOpen known) := by
  induction body generalizing known with
  | nil => rfl
  | cons x rest ih =>
    have hsplit : (x :: rest).filterMap (Symbol.demand? head) =
        [x].filterMap (Symbol.demand? head) ++ rest.filterMap (Symbol.demand? head) :=
      List.filterMap_append (l := [x])
    have hfirst : symbolDemands head known x =
        (askOnce ([x].filterMap (Symbol.demand? head))).filter (Demand.isOpen known) := by
      cases x with
      | nonterminal X => rfl
      | null => rfl
      | terminal a =>
        show NameSupply.letterDemands known a =
            [Demand.name (.terminal a)].filter (Demand.isOpen known)
        by_cases ha : a ∈ known <;> simp [NameSupply.letterDemands, Demand.isOpen, ha]
    have hletters : ∀ a, Demand.name (.terminal a) ∈ [x].filterMap (Symbol.demand? head) ↔
        a ∈ x.terminal?.toList := by
      intro a
      rw [mem_filterMap_demand?]
      cases x <;> simp [Symbol.terminal?]
    rw [bodyDemands, ih, hfirst, hsplit, askOnce_append, List.filter_append, List.filter_filter]
    refine congrArg (_ ++ ·) (List.filter_congr fun d _ => ?_)
    exact Demand.isOpen_insertAll known d hletters

theorem Rule.mem_namedSymbols {x : Symbol} :
    x ∈ r.namedSymbols ↔ 2 ≤ r.body.length ∧ x ∈ r.body := by
  rcases r.short_or_long with hshort | ⟨first, second, rest, hlong⟩
  · rw [namedSymbols_of_short hshort]
    exact iff_of_false List.not_mem_nil fun h => absurd h.1 (by omega)
  · rw [namedSymbols_of_long hlong, ← hlong]
    exact (and_iff_right (by simp [hlong])).symm

theorem Rule.ownDemands_of_long {first second : Symbol} {rest : List Symbol}
    (h : r.body = first :: second :: rest) :
    r.ownDemands = r.body.filterMap (Symbol.demand? r.head) ++
      List.replicate rest.length (.name (.link r.head)) := by
  rw [ownDemands, h]
  rfl

/-- **The demands of a rule** are its own, without the stand-ins that are known. -/
theorem Rule.demands_eq_askOnce (known : CharSet) (r : Rule) :
    r.demands known = (askOnce r.ownDemands).filter (Demand.isOpen known) := by
  match hbody : r.body with
  | [] =>
    rw [demands, ownDemands, hbody]
    rfl
  | [x] =>
    rw [demands, ownDemands, hbody]
    rfl
  | first :: second :: rest =>
    have hlinks : ∀ d ∈ List.replicate rest.length (Demand.name (.link r.head)),
        d.isStandIn = false ∧ d.isOpen known = true := by
      intro d hd
      rw [List.eq_of_mem_replicate hd]
      exact ⟨rfl, rfl⟩
    have hdemands : r.demands known = bodyDemands r.head known r.body ++
        List.replicate rest.length (.name (.link r.head)) := by rw [demands, hbody]
    rw [hdemands, ownDemands_of_long hbody, askOnce_append,
      askOnce_eq_self fun d hd => (hlinks d hd).1, bodyDemands_eq_askOnce, List.filter_append,
      List.filter_filter, List.append_right_inj]
    refine (List.filter_eq_self.2 fun d hd => ?_).symm
    simp [hlinks d hd]

theorem Rule.mem_ownDemands {a : Char} :
    Demand.name (.terminal a) ∈ r.ownDemands ↔ a ∈ r.namedLetters := by
  match hbody : r.body with
  | [] => simp [ownDemands, namedLetters, namedSymbols, hbody]
  | [x] => simp [ownDemands, namedLetters, namedSymbols, hbody]
  | first :: second :: rest =>
    rw [ownDemands_of_long hbody, namedLetters, namedSymbols_of_long hbody, ← hbody,
      List.mem_append, mem_filterMap_demand?]
    simp

/-- **A run asks for what the rules ask for**, without the stand-ins that are known. -/
theorem demands_eq_askOnce (known : CharSet) (rules : List Rule) :
    demands known rules =
      (askOnce (rules.flatMap Rule.ownDemands)).filter (Demand.isOpen known) := by
  induction rules generalizing known with
  | nil => rfl
  | cons r rules ih =>
    rw [demands, ih, r.demands_eq_askOnce, List.flatMap_cons, askOnce_append, List.filter_append,
      List.filter_filter]
    refine congrArg (_ ++ ·) (List.filter_congr fun d _ => ?_)
    exact Demand.isOpen_insertAll known d fun a => Rule.mem_ownDemands

end AskOnce

/-! ## The first failure -/

section FirstFailure

variable {s t : NameSupply} {ds : List Demand} {e : GrammarError} {room place : Nat}

/-- A run that serves its demands meets no failure. -/
theorem NameSupply.Serves.findSome?_failureAt (h : s.Serves ds t) :
    ds.zipIdx.findSome? (fun p => p.1.failureAt s.free.length p.2) = none := by
  refine List.findSome?_eq_none_iff.2 ?_
  rintro ⟨d, i⟩ hmem
  have hplace : i < s.free.length := Nat.lt_of_lt_of_le (List.snd_lt_of_mem_zipIdx hmem) h.length_le
  have hd : d ∈ ds := List.fst_mem_of_mem_zipIdx hmem
  cases d with
  | name purpose => exact if_pos hplace
  | fault reason => exact absurd hd (h.not_fault reason)

/-- A run that stops does so at its first failure. -/
theorem NameSupply.Fails.findSome?_failureAt (h : s.Fails ds e t) :
    ds.zipIdx.findSome? (fun p => p.1.failureAt s.free.length p.2) = some e := by
  obtain ⟨before, d, after, rfl, hserves, hrefuses⟩ := h
  have hfailure : d.failureAt s.free.length before.length = some e := by
    cases d with
    | fault reason =>
      obtain rfl : e = .malformedRule 0 reason := hrefuses
      rfl
    | name purpose =>
      obtain ⟨hnil, rfl⟩ := hrefuses
      obtain ⟨grants, rfl, hfree, -⟩ := hserves
      refine if_neg ?_
      rw [hfree, hnil]
      simp
  rw [List.zipIdx_append, List.findSome?_append, hserves.findSome?_failureAt, Option.none_or,
    Nat.zero_add, List.zipIdx_cons, List.findSome?_cons, hfailure]

theorem filterMap_purpose?_grants (grants : List (Char × Purpose)) :
    (grants.map fun p => Demand.name p.2).filterMap Demand.purpose? = grants.map Prod.snd := by
  rw [List.filterMap_map]
  exact congrFun List.filterMap_eq_map grants

/-- Letters and purposes are paired until one of the two lists is used up. -/
theorem zip_grants {grants : List (Char × Purpose)} {letters : List Char} {purposes : List Purpose}
    (h : letters = [] ∨ purposes = []) :
    (grants.map Prod.fst ++ letters).zip (grants.map Prod.snd ++ purposes) = grants := by
  have hrest : letters.zip purposes = [] := by
    rcases h with rfl | rfl
    · exact List.zip_nil_left
    · exact List.zip_nil_right
  rw [List.zip_append (by simp), hrest, List.append_nil]
  exact (List.zip_of_prod rfl rfl).symm

/-- A run that serves its demands gives out the first free letters for their purposes. -/
theorem NameSupply.Serves.granted_eq (h : s.Serves ds t) :
    t.granted = s.granted ++ s.free.zip (ds.filterMap Demand.purpose?) := by
  obtain ⟨grants, rfl, hfree, hgranted⟩ := h
  have hzip : (grants.map Prod.fst ++ t.free).zip (grants.map Prod.snd ++ []) = grants :=
    zip_grants (.inr rfl)
  rw [List.append_nil] at hzip
  rw [hgranted, hfree, filterMap_purpose?_grants, hzip]

/-- A run that is refused a name has given out all free letters by then. -/
theorem NameSupply.Fails.granted_eq (h : s.Fails ds e t)
    (hnames : ∀ reason, Demand.fault reason ∉ ds) :
    t.granted = s.granted ++ s.free.zip (ds.filterMap Demand.purpose?) := by
  obtain ⟨before, d, after, rfl, ⟨grants, rfl, hfree, hgranted⟩, hrefuses⟩ := h
  cases d with
  | fault reason => exact absurd (by simp) (hnames reason)
  | name purpose =>
    rw [hgranted, hfree, List.filterMap_append, filterMap_purpose?_grants,
      zip_grants (.inl hrefuses.1)]

theorem eq_map_name (hnames : ∀ reason, Demand.fault reason ∉ ds) :
    ds = (ds.filterMap Demand.purpose?).map .name := by
  induction ds with
  | nil => rfl
  | cons d ds ih =>
    cases d with
    | fault reason => exact absurd (List.mem_cons_self ..) (hnames reason)
    | name purpose =>
      exact congrArg (_ :: ·) (ih fun reason hd => hnames reason (List.mem_cons_of_mem _ hd))

/-- Among names, the first failure is the first one for which no letter is left. -/
theorem findSome?_failureAt_map_name (purposes : List Purpose) (hplace : place ≤ room) :
    ((purposes.map Demand.name).zipIdx place).findSome? (fun p => p.1.failureAt room p.2) =
      purposes[room - place]?.map .exhausted := by
  induction purposes generalizing place with
  | nil => rfl
  | cons purpose purposes ih =>
    rw [List.map_cons, List.zipIdx_cons, List.findSome?_cons]
    by_cases hlt : place < room
    · have hindex : room - place = (room - (place + 1)) + 1 := by omega
      rw [Demand.failureAt, if_pos hlt, ih hlt, hindex, List.getElem?_cons_succ]
    · have hindex : room - place = 0 := by omega
      rw [Demand.failureAt, if_neg hlt, hindex, List.getElem?_cons_zero]
      rfl

end FirstFailure

/-! ## Whole runs -/

namespace Grammar

/-- The demands of a run over the rules of a grammar, in order. -/
def walk (g : Grammar) : List Demand := askOnce (g.rules.flatMap Rule.ownDemands)

/-- What a run over the rules of a grammar wants names for, in order. -/
def requests (g : Grammar) : List Purpose := g.walk.filterMap Demand.purpose?

/-- The letters that a grammar does not use, in order. -/
def freeNames (g : Grammar) : List Char := alphabet.filter fun c => c ≠ g.start ∧ c ∉ g.nonterminals

/-- What goes wrong first when the demands are met one by one. -/
def firstFailure (g : Grammar) : Option GrammarError :=
  g.walk.zipIdx.findSome? fun p => p.1.failureAt g.freeNames.length p.2

/-- The terminals of the rules of two or more symbols. -/
def pairedTerminals (g : Grammar) : CharSet :=
  .ofList ((g.rules.filter fun r => 2 ≤ r.body.length).flatMap Rule.bodyTerminals)

/-- No rule has an empty body, and none of two or more symbols uses the null symbol. -/
def Splittable (g : Grammar) : Prop :=
  ∀ r ∈ g.rules, r.body ≠ [] ∧ (2 ≤ r.body.length → .null ∉ r.body)

variable {g h : Grammar} {e : GrammarError} {t : NameSupply}

theorem demands_eq_walk (g : Grammar) : demands ∅ g.rules = g.walk := by
  rw [demands_eq_askOnce, walk]
  refine List.filter_eq_self.2 fun d _ => ?_
  cases d with
  | fault reason => rfl
  | name purpose => cases purpose <;> simp [Demand.isOpen]

theorem free_ofGrammar (g : Grammar) : (NameSupply.ofGrammar g).free = g.freeNames :=
  List.filter_congr fun c _ => by simp [NameSupply.ofGrammar, not_or]

theorem Splittable.null_not_mem (hg : g.Splittable) {r : Rule} (hr : r ∈ g.rules) :
    .null ∉ r.namedSymbols := by
  intro hnull
  obtain ⟨hlong, hnull⟩ := Rule.mem_namedSymbols.1 hnull
  exact (hg r hr).2 hlong hnull

theorem Splittable.fault_not_mem_walk (hg : g.Splittable) (reason : Malformation) :
    Demand.fault reason ∉ g.walk := by
  intro hfault
  rw [← demands_eq_walk] at hfault
  obtain ⟨r, hr, hempty | hnull⟩ := fault_mem_demands.1 ⟨reason, hfault⟩
  · exact (hg r hr).1 hempty
  · exact hg.null_not_mem hr hnull

/-- The terminals of the rules of two or more symbols are those that are given a name. -/
theorem ofList_namedLetters (g : Grammar) :
    CharSet.ofList (g.rules.flatMap Rule.namedLetters) = g.pairedTerminals := by
  refine CharSet.ext fun a => ?_
  simp only [pairedTerminals, CharSet.mem_ofList, List.mem_flatMap, List.mem_filter,
    decide_eq_true_eq, Rule.mem_bodyTerminals, Rule.mem_namedLetters, Rule.mem_namedSymbols,
    and_assoc]

/-- **How many names are asked for**: one for each terminal of the rules of two or more symbols, and
one for each symbol but two of each rule. -/
theorem Splittable.length_requests (hg : g.Splittable) :
    g.requests.length = g.pairedTerminals.size + (g.rules.map fun r => r.body.length - 2).sum := by
  have hwalk := congrArg List.length (eq_map_name hg.fault_not_mem_walk)
  have hlength : (demands ∅ g.rules).length + 0 =
      (CharSet.ofList (g.rules.flatMap Rule.namedLetters)).size +
        (g.rules.map Rule.linkCount).sum := by
    exact length_demands ∅ (fun r hr => (hg r hr).1) fun r hr => hg.null_not_mem hr
  rw [demands_eq_walk, ofList_namedLetters, Nat.add_zero, hwalk, List.length_map] at hlength
  exact hlength

/-- **The first failure is the error**, and without a failure there is a result. -/
theorem binarize_eq_error_iff (g : Grammar) :
    ((∃ h, g.binarize = .ok h) ↔ g.firstFailure = none) ∧
      ∀ e, g.binarize = .error e ↔ g.firstFailure = some e := by
  have hserves : ∀ h t, g.binarization = .ok (h, t) → g.firstFailure = none := by
    intro h t hrun
    obtain ⟨plan, b, -⟩ := binarization_ok hrun
    have hnone := b.serves.findSome?_failureAt
    rwa [demands_eq_walk, free_ofGrammar] at hnone
  have hfails : ∀ e t, g.binarization = .error (e, t) → g.firstFailure = some e := by
    intro e t hrun
    have hsome := (binarization_error hrun).findSome?_failureAt
    rwa [demands_eq_walk, free_ofGrammar] at hsome
  unfold binarize
  cases hrun : g.binarization with
  | ok p => simp [hserves p.1 p.2 hrun]
  | error p => simp [hfails p.1 p.2 hrun]

/-- A run with a plan gives out the first free letters for the requests. -/
theorem granted_of_binarized {plan : Plan} (b : Binarized g plan t) :
    t.granted = g.freeNames.zip g.requests := by
  rw [← free_ofGrammar, requests, ← demands_eq_walk]
  exact b.serves.granted_eq

/-- The letters that are given out, in order, when all demands are for names. -/
theorem Splittable.grantedNames_eq (hg : g.Splittable) :
    g.grantedNames = g.freeNames.zip g.requests := by
  unfold grantedNames
  cases hrun : g.binarization with
  | ok p =>
    obtain ⟨plan, b, -⟩ := binarization_ok hrun
    exact granted_of_binarized b
  | error p =>
    have hfails := binarization_error hrun
    rw [demands_eq_walk] at hfails
    rw [← free_ofGrammar]
    exact hfails.granted_eq hg.fault_not_mem_walk

/-- **The letters that are given out do in the result what they were requested for.** -/
theorem placed_of_binarize (hrun : g.binarize = .ok h) :
    g.Placed h (g.freeNames.zip g.requests) := by
  obtain ⟨plan, t, b, rfl⟩ := binarize_ok hrun
  rw [← granted_of_binarized b]
  exact b.placed

/-- Among names only, the first failure is the first request for which no letter is left. -/
theorem Splittable.firstFailure_eq (hg : g.Splittable) :
    g.firstFailure = g.requests[g.freeNames.length]?.map .exhausted := by
  unfold firstFailure
  rw [eq_map_name hg.fault_not_mem_walk, findSome?_failureAt_map_name _ (Nat.zero_le _)]
  rfl

/-- **There is a result exactly when there are letters enough**, if all rules can be split. -/
theorem Splittable.exists_binarize_iff (hg : g.Splittable) :
    (∃ h, g.binarize = .ok h) ↔ g.requests.length ≤ g.freeNames.length := by
  rw [(binarize_eq_error_iff g).1, hg.firstFailure_eq, Option.map_eq_none_iff,
    List.getElem?_eq_none_iff]

/-- **Which names binarization gives out, and when they are too few.**  If all rules can be split,
there is a result exactly when there are letters enough; the letters are given for the requests in
order; and the first request without a letter is the error.  In a result the letters do what they
were requested for: they are its new names, those for terminals turn into the terminals, and those
for links head the new pairs, in order, and can be replaced by the ends of the bodies for which they
are.  In general the error is the first failure of the walk: an empty body, a null symbol beside
another one, or a name for which no letter is left. -/
theorem binarize_requests (g : Grammar) :
    (g.Splittable →
      ((∃ h, g.binarize = .ok h) ↔ g.requests.length ≤ g.freeNames.length) ∧
        g.grantedNames = g.freeNames.zip g.requests ∧
        ∀ e, g.binarize = .error e ↔
          ∃ purpose, g.requests[g.freeNames.length]? = some purpose ∧ e = .exhausted purpose) ∧
      (∀ h, g.binarize = .ok h → g.Placed h (g.freeNames.zip g.requests)) ∧
      ((∃ h, g.binarize = .ok h) ↔ g.firstFailure = none) ∧
      ∀ e, g.binarize = .error e ↔ g.firstFailure = some e := by
  obtain ⟨hok, herror⟩ := binarize_eq_error_iff g
  refine ⟨fun hg => ⟨hg.exists_binarize_iff, hg.grantedNames_eq, fun e => ?_⟩,
    fun h hrun => placed_of_binarize hrun, hok, herror⟩
  rw [herror, hg.firstFailure_eq, Option.map_eq_some_iff]
  simp only [eq_comm]

/-- A grammar that leaves the last two letters, with a rule that needs four. -/
def stretched : Grammar where
  rules := (alphabet.take 24).map (fun X => ⟨X, [.terminal 'a']⟩) ++
    [⟨'A', [.terminal 'b', .nonterminal 'B', .terminal 'c', .terminal 'b']⟩]
  start := 'A'
  marker := '#'

/-- A grammar with letters enough, and a terminal in two of its rules. -/
def spacious : Grammar where
  rules := [⟨'S', [.terminal 'a', .nonterminal 'T', .terminal 'b', .terminal 'a']⟩,
    ⟨'T', [.terminal 'b', .nonterminal 'S', .terminal 'c']⟩, ⟨'T', [.terminal 'c']⟩]
  start := 'S'
  marker := '#'

/-- In the first grammar both letters are given to terminals, and the first link is refused.  In the
second one each rule gets its stand-ins and then its links. -/
theorem binarize_requests_stretched :
    (stretched.Splittable ∧ stretched.freeNames = ['Y', 'Z'] ∧
      stretched.requests = [.terminal 'b', .terminal 'c', .link 'A', .link 'A'] ∧
      stretched.grantedNames = [('Y', .terminal 'b'), ('Z', .terminal 'c')] ∧
      stretched.binarize = .error (.exhausted (.link 'A'))) ∧
    spacious.Splittable ∧ ∃ h, spacious.binarize = .ok h ∧
      spacious.Placed h [('A', .terminal 'a'), ('B', .terminal 'b'), ('C', .link 'S'),
        ('D', .link 'S'), ('E', .terminal 'c'), ('F', .link 'T')] ∧
      h.rules = [pairRule 'C' 'B' 'A', pairRule 'D' 'T' 'C', pairRule 'S' 'A' 'D',
        pairRule 'F' 'S' 'E', pairRule 'T' 'B' 'F', ⟨'T', [.terminal 'c']⟩,
        ⟨'A', [.terminal 'a']⟩, ⟨'B', [.terminal 'b']⟩, ⟨'E', [.terminal 'c']⟩] := by
  have hsplittable : stretched.Splittable := by
    unfold Splittable
    decide
  have hsplittable' : spacious.Splittable := by
    unfold Splittable
    decide
  have hfree : stretched.freeNames = ['Y', 'Z'] := by decide
  have hrequests :
      stretched.requests = [.terminal 'b', .terminal 'c', .link 'A', .link 'A'] := by decide
  obtain ⟨-, hgranted, herror⟩ := (binarize_requests stretched).1 hsplittable
  rw [hfree, hrequests] at hgranted
  obtain ⟨hserved, hplaced, -⟩ := binarize_requests spacious
  obtain ⟨h, hrun⟩ := (hserved hsplittable').1.2 (by decide)
  refine ⟨⟨hsplittable, hfree, hrequests, hgranted, (herror _).2 ⟨.link 'A', ?_, rfl⟩⟩,
    hsplittable', h, hrun, hplaced h hrun, ?_⟩
  · rw [hfree, hrequests]
    rfl
  · obtain rfl := Except.ok.inj (hrun.symm.trans rfl)
    decide

end Grammar

end Chomsky
