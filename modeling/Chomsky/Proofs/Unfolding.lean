import Chomsky.Proofs.Binarization
import Chomsky.Proofs.Language

/-!
# Binarization keeps the language

Each new name stands for a part of one body: a stand-in for its terminal, a link for the rest of the
body from its place on.  Unfolding the new names gives back the rules of the grammar.

* `unfoldSymbols` — a body with each nonterminal replaced by a list of symbols.
* `linkTable`, `Binarized.table` — what the links of a body stand for, and all new names.
* `Binarized.unfold` — what a nonterminal stands for; an old name stands for itself.

Principal results: `Binarized.unfold_rule` — each rule that is written unfolds to a rule of the
grammar, or says what its head stands for; `Binarized.generates_rule` — the rules that are written
do what each rule of the grammar does; `Grammar.generates_binarize` — every nonterminal of the
grammar generates what it did before; `Grammar.fruitful_binarize` — no new rule is a dead end.
-/

namespace Chomsky

/-! ## Unfolding a body -/

/-- Replaces a nonterminal by a list of symbols. -/
def unfoldSymbol (f : Char → List Symbol) : Symbol → List Symbol
  | .nonterminal X => f X
  | .terminal a => [.terminal a]
  | .null => [.null]

/-- Replaces each nonterminal of a body by a list of symbols. -/
def unfoldSymbols (f : Char → List Symbol) (body : List Symbol) : List Symbol :=
  body.flatMap (unfoldSymbol f)

/-- An unfolded body reads as the body does when each nonterminal may stand for what its symbols
read as. -/
theorem reads_unfoldSymbols {S : Interpretation} {f : Char → List Symbol} {body : List Symbol}
    {w : List Char} :
    Reads S (unfoldSymbols f body) w ↔ Reads (fun X u => Reads S (f X) u) body w := by
  induction body generalizing w with
  | nil => exact Iff.rfl
  | cons x rest ih =>
    show Reads S (unfoldSymbol f x ++ unfoldSymbols f rest) w ↔ _
    cases x with
    | terminal a =>
      exact exists_congr fun v => and_congr_right fun _ => ih
    | null => exact ih
    | nonterminal X =>
      rw [reads_append]
      exact exists_congr fun u => exists_congr fun v =>
        and_congr_right fun _ => and_congr_right fun _ => ih

/-- A body reads as the names of its symbols do, when each name reads as its symbol. -/
theorem Reads.map_nonterminal {S : Interpretation} {nameOf : Symbol → Char} {body : List Symbol}
    {w : List Char} (hname : ∀ x ∈ body, ∀ u, Reads S [x] u → S (nameOf x) u)
    (h : Reads S body w) : Reads S ((body.map nameOf).map .nonterminal) w := by
  induction body generalizing w with
  | nil => exact h
  | cons x rest ih =>
    rw [show x :: rest = [x] ++ rest from rfl, reads_append] at h
    obtain ⟨u, v, rfl, hu, hv⟩ := h
    exact ⟨u, v, rfl, hname x (List.mem_cons_self ..) u hu,
      ih (fun y hy => hname y (List.mem_cons_of_mem _ hy)) hv⟩

/-! ## What the links stand for -/

/-- What the links of a body stand for: the body, its tail, and so on. -/
def linkTable : List Symbol → List Char → List (Char × List Symbol)
  | x :: rest, link :: links => (link, x :: rest) :: linkTable rest links
  | _, _ => []

theorem keys_linkTable {body : List Symbol} {links : List Char} (h : links.length ≤ body.length) :
    (linkTable body links).map Prod.fst = links := by
  induction links generalizing body with
  | nil => cases body <;> rfl
  | cons link links ih =>
    cases body with
    | nil => exact absurd h (by simp)
    | cons x rest => exact congrArg (link :: ·) (ih (by simpa using h))

section Links

variable {f : Char → List Symbol} {nameOf : Symbol → Char} {x : Symbol} {rest : List Symbol}
  {links : List Char} {q : Rule}

/-- The first link of a list of symbols stands for all of them; without links there is only one
symbol, and its name stands for it. -/
theorem unfold_headD (hlinks : ∀ e ∈ linkTable (x :: rest) links, f e.1 = e.2)
    (hname : ∀ y ∈ x :: rest, f (nameOf y) = [y]) (hlength : links.length = rest.length) :
    f (links.headD (nameOf x)) = x :: rest := by
  cases links with
  | nil =>
    rw [List.length_nil] at hlength
    rw [List.eq_nil_of_length_eq_zero hlength.symm]
    exact hname x (List.mem_cons_self ..)
  | cons link links => exact hlinks (link, x :: rest) (List.mem_cons_self ..)

/-- A rule for a link unfolds to what the link stands for. -/
theorem unfold_of_mem_linkRules (hlinks : ∀ e ∈ linkTable (x :: rest) links, f e.1 = e.2)
    (hname : ∀ y ∈ x :: rest, f (nameOf y) = [y]) (hlength : links.length = rest.length)
    (hq : q ∈ linkRules (nameOf x) (rest.map nameOf) links) :
    q.head ∈ links ∧ f q.head = unfoldSymbols f q.body := by
  induction rest generalizing x links with
  | nil => cases links <;> exact absurd hq List.not_mem_nil
  | cons y rest ih =>
    cases links with
    | nil => cases hlength
    | cons link links =>
      have hlinks' : ∀ e ∈ linkTable (y :: rest) links, f e.1 = e.2 :=
        fun e he => hlinks e (List.mem_cons_of_mem _ he)
      have hname' : ∀ z ∈ y :: rest, f (nameOf z) = [z] :=
        fun z hz => hname z (List.mem_cons_of_mem _ hz)
      have hlength' : links.length = rest.length := by simpa using hlength
      rcases List.mem_append.1 hq with hq | hq
      · obtain ⟨hhead, hunfold⟩ := ih hlinks' hname' hlength' hq
        exact ⟨List.mem_cons_of_mem _ hhead, hunfold⟩
      · rw [List.mem_singleton.1 hq]
        refine ⟨List.mem_cons_self .., ?_⟩
        show f link = f (nameOf x) ++ (f (links.headD (nameOf y)) ++ [])
        rw [unfold_headD hlinks' hname' hlength', hname x (List.mem_cons_self ..), List.append_nil]
        exact hlinks (link, x :: y :: rest) (List.mem_cons_self ..)

/-- The first link generates what the list of nonterminals reads as. -/
theorem generates_headD {rules : List Rule} {first : Char} {names : List Char} {w : List Char}
    (hrules : ∀ q ∈ linkRules first names links, q ∈ rules) (hlength : links.length = names.length)
    (h : Reads (Generates rules) ((first :: names).map .nonterminal) w) :
    Generates rules (links.headD first) w := by
  induction names generalizing first links w with
  | nil =>
    rw [List.length_nil] at hlength
    rw [List.eq_nil_of_length_eq_zero hlength]
    exact reads_nonterminal.1 h
  | cons second names ih =>
    cases links with
    | nil => cases hlength
    | cons link links =>
      obtain ⟨u, v, rfl, hu, hv⟩ := h
      have htail : Generates rules (links.headD second) v :=
        ih (fun q hq => hrules q (List.mem_append_left _ hq)) (by simpa using hlength) hv
      exact Generates.rule (r := pairRule link first (links.headD second))
        (hrules _ (List.mem_append_right _ (List.mem_singleton.2 rfl)))
        (reads_pair.2 ⟨u, v, rfl, hu, htail⟩)

/-- A rule for a link takes part in derivations when the list of nonterminals does. -/
theorem exists_reads_of_mem_linkRules {rules : List Rule} {first : Char} {names : List Char}
    {w : List Char} (hrules : ∀ q ∈ linkRules first names links, q ∈ rules)
    (hlength : links.length = names.length)
    (h : Reads (Generates rules) ((first :: names).map .nonterminal) w)
    (hq : q ∈ linkRules first names links) : ∃ v, Reads (Generates rules) q.body v := by
  induction names generalizing first links w with
  | nil => cases links <;> exact absurd hq List.not_mem_nil
  | cons second names ih =>
    cases links with
    | nil => cases hlength
    | cons link links =>
      obtain ⟨u, v, rfl, hu, hv⟩ := h
      have hrules' : ∀ q ∈ linkRules second names links, q ∈ rules :=
        fun q hq => hrules q (List.mem_append_left _ hq)
      have hlength' : links.length = names.length := by simpa using hlength
      rcases List.mem_append.1 hq with hq | hq
      · exact ih hrules' hlength' hv hq
      · rw [List.mem_singleton.1 hq]
        exact ⟨u ++ v, reads_pair.2 ⟨u, v, rfl, hu, generates_headD hrules' hlength' hv⟩⟩

end Links

/-! ## Rules that cannot be split -/

/-- What is asked for has a fault exactly when a body is empty, or uses the null symbol beside
another one. -/
theorem fault_mem_demands {known : CharSet} {rules : List Rule} :
    (∃ reason, Demand.fault reason ∈ demands known rules) ↔
      ∃ r ∈ rules, r.body = [] ∨ Symbol.null ∈ r.namedSymbols := by
  have hletter : ∀ (known : CharSet) (a : Char) (reason : Malformation),
      Demand.fault reason ∉ NameSupply.letterDemands known a := by
    intro known a reason
    unfold NameSupply.letterDemands
    split <;> simp
  have hbody : ∀ (head : Char) (known : CharSet) (body : List Symbol),
      (∃ reason, Demand.fault reason ∈ bodyDemands head known body) ↔ Symbol.null ∈ body := by
    intro head known body
    induction body generalizing known with
    | nil => simp [bodyDemands]
    | cons x rest ih =>
      simp only [bodyDemands, List.mem_append, exists_or, ih, List.mem_cons]
      refine or_congr ?_ Iff.rfl
      cases x <;> simp [symbolDemands, hletter]
  have hrule : ∀ (known : CharSet) (r : Rule),
      (∃ reason, Demand.fault reason ∈ r.demands known) ↔
        r.body = [] ∨ Symbol.null ∈ r.namedSymbols := by
    intro known r
    unfold Rule.demands Rule.namedSymbols
    split
    · rename_i h
      simp [h]
    · rename_i h
      simp [h]
    · rename_i first second rest h
      simp only [List.mem_append, exists_or, hbody, h]
      simp
  induction rules generalizing known with
  | nil => simp [demands]
  | cons r rules ih =>
    simp only [demands, List.mem_append, exists_or, ih, hrule, List.mem_cons, exists_eq_or_imp]

theorem NameSupply.Serves.not_fault {s t : NameSupply} {ds : List Demand} (h : s.Serves ds t)
    (reason : Malformation) : Demand.fault reason ∉ ds := by
  obtain ⟨grants, rfl, -, -⟩ := h
  simp

/-! ## The new names of a run -/

namespace Binarized

variable {g : Grammar} {plan : Plan} {t : NameSupply}

/-- What each new name stands for. -/
def table (plan : Plan) (t : NameSupply) : List (Char × List Symbol) :=
  plan.flatMap (fun p => linkTable p.1.body.tail p.2) ++
    t.standIns.map fun e => (e.2, [.terminal e.1])

/-- What a nonterminal stands for: a new name for its part of a body, an old one for itself. -/
def unfold (plan : Plan) (t : NameSupply) (name : Char) : List Symbol :=
  ((table plan t).lookup name).getD [.nonterminal name]

theorem keys_table (b : Binarized g plan t) :
    (table plan t).map Prod.fst = plan.links ++ t.standIns.map Prod.snd := by
  unfold table Plan.links
  rw [List.map_append, List.map_flatMap, List.map_map]
  refine congrArg (· ++ _) (List.flatMap_congr fun p hp => keys_linkTable ?_)
  rw [b.lengths p hp, Rule.linkCount, List.length_tail]
  omega

/-- All new names are different. -/
theorem nodup_names (b : Binarized g plan t) : (plan.links ++ t.pool).Nodup :=
  b.names.nodup_iff.2 (NameSupply.nodup_free _)

theorem nodup_keys_table (b : Binarized g plan t) : ((table plan t).map Prod.fst).Nodup := by
  rw [b.keys_table]
  refine b.nodup_names.sublist ?_
  exact (List.Sublist.refl _).append (List.sublist_append_left ..)

theorem not_mem_of_new (b : Binarized g plan t) {name : Char}
    (h : name ∈ (table plan t).map Prod.fst) : name ∉ g.nonterminals ∧ name ≠ g.start := by
  have hpool : name ∈ plan.links ++ t.pool := by
    rw [b.keys_table, List.mem_append] at h
    rw [List.mem_append]
    exact h.imp_right fun h => List.mem_append_left _ h
  obtain ⟨-, hstart, hnot⟩ := NameSupply.mem_free_ofGrammar.1 (b.names.mem_iff.1 hpool)
  exact ⟨hnot, hstart⟩

theorem unfold_new (b : Binarized g plan t) {e : Char × List Symbol} (he : e ∈ table plan t) :
    unfold plan t e.1 = e.2 := by
  rw [unfold, (lookup_eq_some_iff_mem b.nodup_keys_table).2 he]
  rfl

theorem unfold_old (b : Binarized g plan t) {name : Char}
    (h : name ∈ g.nonterminals ∨ name = g.start) : unfold plan t name = [.nonterminal name] := by
  unfold unfold
  cases hlookup : (table plan t).lookup name with
  | none => rfl
  | some body =>
    have hkey : name ∈ (table plan t).map Prod.fst := by
      obtain ⟨k, hk, hname⟩ := List.lookup_isSome_iff.1 (Option.isSome_iff_exists.2 ⟨body, hlookup⟩)
      exact (beq_iff_eq.1 hname) ▸ List.mem_map_of_mem hk
    obtain ⟨hnot, hstart⟩ := b.not_mem_of_new hkey
    exact absurd h (not_or.2 ⟨hnot, hstart⟩)

/-- The rules of the plan are those of the grammar. -/
theorem rule_mem (b : Binarized g plan t) {p : Rule × List Char} (hp : p ∈ plan) :
    p.1 ∈ g.rules := by
  rw [← b.rules]
  exact List.mem_map_of_mem hp

/-- A rule that is split does not use the null symbol. -/
theorem null_not_mem_namedSymbols (b : Binarized g plan t) {r : Rule} (hr : r ∈ g.rules) :
    Symbol.null ∉ r.namedSymbols := by
  intro hnull
  obtain ⟨reason, hfault⟩ := fault_mem_demands.2 ⟨r, hr, .inr hnull⟩
  exact b.serves.not_fault reason hfault

theorem body_ne_nil (b : Binarized g plan t) {r : Rule} (hr : r ∈ g.rules) : r.body ≠ [] := by
  intro hnil
  obtain ⟨reason, hfault⟩ := fault_mem_demands.2 ⟨r, hr, .inl hnil⟩
  exact b.serves.not_fault reason hfault

/-- A terminal that is named has a stand-in at the end. -/
theorem mem_letters (b : Binarized g plan t) {r : Rule} (hr : r ∈ g.rules) {a : Char}
    (ha : .terminal a ∈ r.namedSymbols) : a ∈ t.letters := by
  rw [b.letters, CharSet.mem_ofList]
  exact List.mem_flatMap.2 ⟨r, hr, Rule.mem_namedLetters.2 ha⟩

/-- The stand-in of a terminal that is named, with its entry in the table. -/
theorem standIn_mem (b : Binarized g plan t) {r : Rule} (hr : r ∈ g.rules) {a : Char}
    (ha : .terminal a ∈ r.namedSymbols) : (a, t.nameOf (.terminal a)) ∈ t.standIns := by
  obtain ⟨name, hname⟩ := NameSupply.mem_letters.1 (b.mem_letters hr ha)
  rw [NameSupply.nameOf, hname]
  obtain ⟨before, after, hes, -⟩ := List.lookup_eq_some_iff.1 hname
  rw [hes]
  simp

/-- The name of a symbol stands for the symbol. -/
theorem unfold_nameOf (b : Binarized g plan t) {r : Rule} (hr : r ∈ g.rules) {x : Symbol}
    (hx : x ∈ r.namedSymbols) : unfold plan t (t.nameOf x) = [x] := by
  cases x with
  | nonterminal X =>
    have hX := Rule.mem_body_of_mem_namedSymbols hx
    exact b.unfold_old (.inl (Grammar.mem_nonterminals.2 ⟨r, hr, .inr hX⟩))
  | null => exact absurd hx (b.null_not_mem_namedSymbols hr)
  | terminal a =>
    refine b.unfold_new (e := (t.nameOf (.terminal a), [.terminal a])) (List.mem_append_right _ ?_)
    exact List.mem_map.2 ⟨(a, t.nameOf (.terminal a)), b.standIn_mem hr hx, rfl⟩

/-! ## The rules that are written -/

/-- A body of one symbol of the grammar unfolds to itself. -/
theorem unfold_short (b : Binarized g plan t) {r : Rule} (hr : r ∈ g.rules)
    (hshort : r.body.length ≤ 1) : unfoldSymbols (unfold plan t) r.body = r.body := by
  match hbody : r.body with
  | [] => rfl
  | [.terminal a] => rfl
  | [.null] => rfl
  | [.nonterminal X] =>
    have hX : X ∈ g.nonterminals := Grammar.mem_nonterminals.2 ⟨r, hr, .inr (by simp [hbody])⟩
    show unfold plan t X ++ [] = _
    rw [b.unfold_old (.inl hX)]
    rfl
  | first :: second :: rest =>
    rw [hbody] at hshort
    simp at hshort

/-- The links and the names of a long rule of the plan stand for what they should. -/
theorem unfold_of_long (b : Binarized g plan t) {p : Rule × List Char} (hp : p ∈ plan)
    {first second : Symbol} {rest : List Symbol} (hlong : p.1.body = first :: second :: rest) :
    (∀ e ∈ linkTable (second :: rest) p.2, unfold plan t e.1 = e.2) ∧
      (∀ x ∈ first :: second :: rest, unfold plan t (t.nameOf x) = [x]) ∧
      p.2.length = rest.length := by
  refine ⟨fun e he => ?_, fun x hx => b.unfold_nameOf (b.rule_mem hp) ?_, ?_⟩
  · have htable : e ∈ linkTable p.1.body.tail p.2 := by rwa [hlong]
    exact b.unfold_new (List.mem_append_left _ (List.mem_flatMap.2 ⟨p, hp, htable⟩))
  · rwa [Rule.namedSymbols_of_long hlong]
  · simpa [Rule.linkCount, hlong] using b.lengths p hp

/-- A rule for a link says what the link stands for. -/
theorem unfold_of_mem_linkPart (b : Binarized g plan t) {p : Rule × List Char} (hp : p ∈ plan)
    {q : Rule} (hq : q ∈ p.1.linkPart t.nameOf p.2) :
    q.head ∈ p.2 ∧ unfold plan t q.head = unfoldSymbols (unfold plan t) q.body := by
  unfold Rule.linkPart at hq
  split at hq
  · rename_i first second rest hlong
    obtain ⟨hlinks, hname, hcount⟩ := b.unfold_of_long hp hlong
    exact unfold_of_mem_linkRules hlinks (fun x hx => hname x (List.mem_cons_of_mem _ hx)) hcount hq
  · exact absurd hq List.not_mem_nil

/-- **The rule that keeps the head unfolds to the rule** for which it is written. -/
theorem unfold_leading (b : Binarized g plan t) {p : Rule × List Char} (hp : p ∈ plan) :
    unfoldSymbols (unfold plan t) (p.1.leading t.nameOf p.2).body = p.1.body := by
  unfold Rule.leading
  split
  · rename_i first second rest hlong
    obtain ⟨hlinks, hname, hcount⟩ := b.unfold_of_long hp hlong
    show unfold plan t (t.nameOf first) ++
      (unfold plan t (p.2.headD (t.nameOf second)) ++ []) = p.1.body
    rw [unfold_headD hlinks (fun x hx => hname x (List.mem_cons_of_mem _ hx)) hcount,
      hname first (List.mem_cons_self ..), List.append_nil, hlong]
    rfl
  · rename_i hshort
    rcases p.1.short_or_long with hle | ⟨first, second, rest, hlong⟩
    · exact b.unfold_short (b.rule_mem hp) hle
    · exact absurd hlong (hshort first second rest)

/-- What is written for a rule unfolds to the rule, or says what a link stands for. -/
theorem unfold_encode (b : Binarized g plan t) {p : Rule × List Char} (hp : p ∈ plan) {q : Rule}
    (hq : q ∈ p.1.encode t.nameOf p.2) :
    ⟨q.head, unfoldSymbols (unfold plan t) q.body⟩ = p.1 ∨
      unfold plan t q.head = unfoldSymbols (unfold plan t) q.body := by
  rw [Rule.encode_eq_append, List.mem_append, List.mem_singleton] at hq
  rcases hq with hq | rfl
  · exact .inr (b.unfold_of_mem_linkPart hp hq).2
  · left
    rw [b.unfold_leading hp, Rule.head_leading]

/-- **Each rule that is written unfolds to a rule of the grammar, or says what its head stands
for.** -/
theorem unfold_rule (b : Binarized g plan t) {q : Rule}
    (hq : q ∈ plan.encode t.nameOf ++ t.rules) :
    ⟨q.head, unfoldSymbols (unfold plan t) q.body⟩ ∈ g.rules ∨
      unfold plan t q.head = unfoldSymbols (unfold plan t) q.body := by
  rcases List.mem_append.1 hq with hq | hq
  · obtain ⟨p, hp, hq⟩ := List.mem_flatMap.1 hq
    refine (b.unfold_encode hp hq).imp_left fun hsame => ?_
    rw [hsame]
    exact b.rule_mem hp
  · obtain ⟨e, he, rfl⟩ := List.mem_map.1 hq
    right
    exact b.unfold_new (e := (e.2, [.terminal e.1]))
      (List.mem_append_right _ (List.mem_map.2 ⟨e, he, rfl⟩))

section Written

variable {rules : List Rule} {r : Rule} {p : Rule × List Char} {w : List Char}

theorem mem_written {q : Rule} (hp : p ∈ plan) (hq : q ∈ p.1.encode t.nameOf p.2) :
    q ∈ plan.encode t.nameOf ++ t.rules :=
  List.mem_append_left _ (List.mem_flatMap.2 ⟨p, hp, hq⟩)

/-- The name of a symbol generates what the symbol reads as. -/
theorem generates_nameOf (b : Binarized g plan t) (hrules : ∀ q ∈ t.rules, q ∈ rules)
    (hr : r ∈ g.rules) {x : Symbol} (hx : x ∈ r.namedSymbols)
    (h : Reads (Generates rules) [x] w) : Generates rules (t.nameOf x) w := by
  cases x with
  | nonterminal X => exact reads_nonterminal.1 h
  | null => exact absurd hx (b.null_not_mem_namedSymbols hr)
  | terminal a =>
    exact Generates.rule (r := ⟨t.nameOf (.terminal a), [.terminal a]⟩)
      (hrules _ (List.mem_map.2 ⟨_, b.standIn_mem hr hx, rfl⟩)) h

/-- The names of a long body read as the body does. -/
theorem reads_names_of_long (b : Binarized g plan t) (hrules : ∀ q ∈ t.rules, q ∈ rules)
    (hr : r ∈ g.rules) {first second : Symbol} {rest : List Symbol}
    (hlong : r.body = first :: second :: rest) (h : Reads (Generates rules) r.body w) :
    Reads (Generates rules) (((first :: second :: rest).map t.nameOf).map .nonterminal) w := by
  rw [← hlong]
  refine h.map_nonterminal fun x hx u hu => b.generates_nameOf hrules hr ?_ hu
  rwa [Rule.namedSymbols_of_long hlong, ← hlong]

/-- A rule of the plan for a long body has a link for each symbol but the last, its head first. -/
theorem length_links_of_long (b : Binarized g plan t) (hp : p ∈ plan) {first second : Symbol}
    {rest : List Symbol} (hlong : p.1.body = first :: second :: rest) :
    (p.1.head :: p.2).length = ((second :: rest).map t.nameOf).length := by
  rw [List.length_cons, b.lengths p hp, Rule.linkCount, hlong]
  simp

/-- **The rules that are written do what each rule of the grammar does.** -/
theorem generates_rule (b : Binarized g plan t)
    (hrules : ∀ q ∈ plan.encode t.nameOf ++ t.rules, q ∈ rules) (hr : r ∈ g.rules)
    (h : Reads (Generates rules) r.body w) : Generates rules r.head w := by
  obtain ⟨p, hp, rfl⟩ : ∃ p ∈ plan, p.1 = r := by
    rw [← b.rules] at hr
    exact List.mem_map.1 hr
  have hencode : ∀ q ∈ p.1.encode t.nameOf p.2, q ∈ rules :=
    fun q hq => hrules q (mem_written hp hq)
  rcases p.1.short_or_long with hshort | ⟨first, second, rest, hlong⟩
  · rw [Rule.encode_of_short hshort] at hencode
    exact Generates.rule (hencode p.1 (List.mem_singleton.2 rfl)) h
  · have hnames :=
      b.reads_names_of_long (fun q hq => hrules q (List.mem_append_right _ hq)) hr hlong h
    rw [Rule.encode_eq_linkRules hlong] at hencode
    have hhead : Generates rules ((p.1.head :: p.2).headD (t.nameOf first)) w :=
      generates_headD hencode (b.length_links_of_long hp hlong) hnames
    exact hhead

/-- The rules that are written generate what the rules of the grammar do. -/
theorem generates_of_generates (b : Binarized g plan t)
    (hrules : ∀ q ∈ plan.encode t.nameOf ++ t.rules, q ∈ rules) {X : Char}
    (h : Generates g.rules X w) : Generates rules X w :=
  h.least fun _ hr _ hu => b.generates_rule hrules hr hu

/-- What is written for a rule takes part in derivations when the rule does. -/
theorem exists_reads_of_mem_encode (b : Binarized g plan t)
    (hrules : ∀ q ∈ plan.encode t.nameOf ++ t.rules, q ∈ rules) (hp : p ∈ plan)
    (h : Reads (Generates rules) p.1.body w) {q : Rule} (hq : q ∈ p.1.encode t.nameOf p.2) :
    ∃ v, Reads (Generates rules) q.body v := by
  have hencode : ∀ q ∈ p.1.encode t.nameOf p.2, q ∈ rules :=
    fun q hq => hrules q (mem_written hp hq)
  rcases p.1.short_or_long with hshort | ⟨first, second, rest, hlong⟩
  · rw [Rule.encode_of_short hshort, List.mem_singleton] at hq
    exact ⟨w, hq ▸ h⟩
  · have hnames := b.reads_names_of_long (fun q hq => hrules q (List.mem_append_right _ hq))
      (b.rule_mem hp) hlong h
    rw [Rule.encode_eq_linkRules hlong] at hencode hq
    exact exists_reads_of_mem_linkRules hencode (b.length_links_of_long hp hlong) hnames hq

end Written

end Binarized

namespace Grammar

variable {g h : Grammar} {X : Char} {w : List Char}

/-- **Binarization keeps the language of every nonterminal of the grammar.** -/
theorem generates_binarize (hrun : g.binarize = .ok h) (hX : X ∈ g.nonterminals ∨ X = g.start) :
    Generates h.rules X w ↔ Generates g.rules X w := by
  obtain ⟨plan, t, b, rfl⟩ := binarize_ok hrun
  constructor
  · intro hgen
    -- each name is read as what it stands for
    have hread := hgen.least
      (S := fun Y u => Reads (Generates g.rules) (Binarized.unfold plan t Y) u) ?_
    · rwa [b.unfold_old hX, reads_nonterminal] at hread
    · intro q hq u hu
      rw [← reads_unfoldSymbols] at hu
      rcases b.unfold_rule (mem_withRules.1 hq) with hrule | hhead
      · have hq' := Generates.rule hrule hu
        have hold : q.head ∈ g.nonterminals := mem_nonterminals.2 ⟨_, hrule, .inl rfl⟩
        rw [b.unfold_old (.inl hold), reads_nonterminal]
        exact hq'
      · rwa [hhead]
  · exact b.generates_of_generates fun q hq => mem_withRules.2 hq

/-- **Binarization of fruitful rules gives fruitful rules**: no link and no stand-in is a dead
end. -/
theorem fruitful_binarize (hrun : g.binarize = .ok h) (hg : Fruitful g.rules) :
    Fruitful h.rules := by
  obtain ⟨plan, t, b, rfl⟩ := binarize_ok hrun
  have hwritten : ∀ q ∈ plan.encode t.nameOf ++ t.rules,
      q ∈ (g.withRules (plan.encode t.nameOf ++ t.rules)).rules := fun q hq => mem_withRules.2 hq
  intro q hq
  rcases List.mem_append.1 (mem_withRules.1 hq) with hq | hq
  · obtain ⟨p, hp, hq⟩ := List.mem_flatMap.1 hq
    obtain ⟨w, hw⟩ := hg p.1 (b.rule_mem hp)
    have hbody := hw.mono fun X u => b.generates_of_generates hwritten
    exact b.exists_reads_of_mem_encode hwritten hp hbody hq
  · obtain ⟨e, -, rfl⟩ := List.mem_map.1 hq
    exact ⟨[e.1], reads_terminal.2 rfl⟩

end Grammar

end Chomsky
