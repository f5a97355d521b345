import Chomsky.Proofs.Relabelling
import Chomsky.Proofs.WellFormedness

/-!
# Terminals are interchangeable

Binarization asks for a stand-in where a terminal stands for the first time, so under other
terminals it is given the same names for the same places.  The stand-ins alone are then listed by
terminal, and so in another order.  The proof runs binarization on the rules and on the permuted
rules in lockstep.

* `Purpose.relabel`, `GrammarError.relabel` — the same failure under other terminals.
* `NameSupply.Matches` — two supplies that are alike, up to the order of their stand-ins.
* `Agrees` — two results that are alike.
* `Grammar.IsStandInRule` — the rules that turn a new name into a terminal.
* `Relabelled` — a grammar is another one under other terminals, up to the order of those rules.

Principal results: `Matches.fresh`, `Matches.standIn` — supplies that are alike give the same names;
`splitRules_agrees` — runs over a list of rules end alike; `Grammar.binarize_relabel` — so do whole
runs; `Grammar.normalize_relabel` — normalization of a grammar under other terminals.
-/

namespace Chomsky

/-! ## Failures -/

/-- The same purpose under other terminals. -/
def Purpose.relabel (p : Equiv.Perm Char) : Purpose → Purpose
  | terminal a => terminal (p a)
  | link head => link head
  | named text => named text

/-- The same failure under other terminals. -/
def GrammarError.relabel (p : Equiv.Perm Char) : GrammarError → GrammarError
  | exhausted purpose => exhausted (purpose.relabel p)
  | e => e

/-! ## Supplies that are alike -/

namespace NameSupply

/-- Two supplies have given the same names, for terminals and for what became of them. -/
structure Matches (p : Equiv.Perm Char) (s t : NameSupply) : Prop where
  taken : t.taken = s.taken
  standIns : ∀ a, t.standIns.lookup (p a) = s.standIns.lookup a
  granted : t.granted = s.granted.map (Prod.map id (Purpose.relabel p))
  ascending : (s.standIns.map Prod.fst).Pairwise (· < ·)
  ascending' : (t.standIns.map Prod.fst).Pairwise (· < ·)

section Matches

variable {p : Equiv.Perm Char} {s t : NameSupply}

theorem matches_ofGrammar (p : Equiv.Perm Char) (g : Grammar) :
    Matches p (ofGrammar g) (ofGrammar (g.relabel p)) := by
  refine ⟨?_, fun a => rfl, rfl, .nil, .nil⟩
  simp only [ofGrammar, Grammar.nonterminals_relabel, Grammar.start_relabel]

/-- **Supplies that are alike grant the same name**, or none. -/
theorem Matches.fresh (h : Matches p s t) (purpose : Purpose) :
    (∃ name u v, s.fresh purpose = .ok (name, u) ∧ t.fresh (purpose.relabel p) = .ok (name, v) ∧
        Matches p u v) ∨
      s.fresh purpose = .error (.exhausted purpose) ∧
        t.fresh (purpose.relabel p) = .error (.exhausted (purpose.relabel p)) := by
  unfold NameSupply.fresh
  rw [h.taken]
  cases alphabet.find? (· ∉ s.taken) with
  | none => exact .inr ⟨rfl, rfl⟩
  | some name =>
    refine .inl ⟨name, _, _, rfl, rfl, ?_⟩
    exact ⟨rfl, h.standIns, by simp [h.granted], h.ascending, h.ascending'⟩

/-- A stand-in that is entered for a terminal and for what became of it. -/
theorem Matches.enter (h : Matches p s t) {a : Char} (hnone : s.standIns.lookup a = none)
    (name : Char) :
    Matches p { s with standIns := insertStandIn a name s.standIns }
      { t with standIns := insertStandIn (p a) name t.standIns } := by
  have hnone' : t.standIns.lookup (p a) = none := (h.standIns a).trans hnone
  refine ⟨h.taken, fun b => ?_, h.granted, pairwise_insertStandIn (not_mem_keys hnone) h.ascending,
    pairwise_insertStandIn (not_mem_keys hnone') h.ascending'⟩
  simp only [lookup_insertStandIn (not_mem_keys hnone), lookup_insertStandIn (not_mem_keys hnone'),
    h.standIns, p.injective.eq_iff]

/-- **Supplies that are alike give the same stand-in** for a terminal and for what became of it. -/
theorem Matches.standIn (h : Matches p s t) (a : Char) :
    (∃ name u v, s.standIn a = .ok (name, u) ∧ t.standIn (p a) = .ok (name, v) ∧
        Matches p u v) ∨
      s.standIn a = .error (.exhausted (.terminal a)) ∧
        t.standIn (p a) = .error (.exhausted (.terminal (p a))) := by
  unfold NameSupply.standIn
  rw [h.standIns]
  cases hlookup : s.standIns.lookup a with
  | some name => exact .inl ⟨name, s, t, rfl, rfl, h⟩
  | none =>
    rcases h.fresh (.terminal a) with ⟨name, u, v, hu, hv, huv⟩ | ⟨hs, ht⟩
    · have htable : u.standIns = s.standIns := (fresh_ok hu).2.1
      have hv' : t.fresh (.terminal (p a)) = .ok (name, v) := hv
      refine .inl ⟨name, _, _, by rw [hu], by rw [hv'], ?_⟩
      exact huv.enter (htable ▸ hlookup) name
    · have ht' : t.fresh (.terminal (p a)) = .error (.exhausted (.terminal (p a))) := ht
      exact .inr ⟨by rw [hs], by rw [ht']⟩

/-- The rules of the stand-ins are permuted, and listed in another order. -/
theorem Matches.rules_perm (h : Matches p s t) : (s.rules.map (Rule.relabel p)).Perm t.rules := by
  have hs : (s.standIns.map Prod.fst).Nodup := h.ascending.imp Char.ne_of_lt
  have ht : (t.standIns.map Prod.fst).Nodup := h.ascending'.imp Char.ne_of_lt
  have hinjective : Function.Injective (Prod.map p (id : Char → Char)) :=
    p.injective.prodMap Function.injective_id
  have hentries : (s.standIns.map (Prod.map p id)).Perm t.standIns := by
    refine (List.perm_ext_iff_of_nodup (hs.of_map.map hinjective) ht.of_map).2 fun e => ?_
    obtain ⟨b, name⟩ := e
    obtain ⟨a, rfl⟩ := p.surjective b
    rw [← lookup_eq_some_iff_mem ht, h.standIns, lookup_eq_some_iff_mem hs]
    exact List.mem_map_of_injective (a := (a, name)) hinjective
  have hrules := hentries.map fun e => (⟨e.2, [.terminal e.1]⟩ : Rule)
  rw [List.map_map] at hrules
  rw [rules, rules, List.map_map]
  exact hrules

end Matches

end NameSupply

/-! ## Runs that end alike -/

/-- Two results are alike: both are there and related, or both runs failed, the second one as the
first one does under other terminals. -/
def Agrees {α β : Type} (p : Equiv.Perm Char) (R : α → β → Prop) (m : Except Interrupted α)
    (n : Except Interrupted β) : Prop :=
  (∃ a b, m = .ok a ∧ n = .ok b ∧ R a b) ∨
    ∃ e s t, m = .error (e, s) ∧ n = .error (e.relabel p, t) ∧ NameSupply.Matches p s t

section Runs

variable {α β : Type} {p : Equiv.Perm Char} {R : α → β → Prop} {s t : NameSupply} {e : GrammarError}

theorem Agrees.ok {a : α} {b : β} (h : R a b) : Agrees p R (.ok a) (.ok b) :=
  .inl ⟨a, b, rfl, rfl, h⟩

theorem Agrees.error (h : NameSupply.Matches p s t) :
    Agrees p R (.error (e, s)) (.error (e.relabel p, t)) :=
  .inr ⟨e, s, t, rfl, rfl, h⟩

open NameSupply

/-- A symbol and what became of it have the same name. -/
theorem nameSymbol_agrees (h : Matches p s t) (head : Char) (x : Symbol) :
    Agrees p (fun m n => n.1 = m.1 ∧ Matches p m.2 n.2) (nameSymbol head s x)
      (nameSymbol head t (x.relabel p)) := by
  cases x with
  | nonterminal X => exact .ok ⟨rfl, h⟩
  | null => exact .error h
  | terminal a =>
    simp only [Symbol.relabel, nameSymbol]
    rcases h.standIn a with ⟨name, u, v, hu, hv, huv⟩ | ⟨hs, ht⟩
    · rw [hu, hv]
      exact .ok ⟨rfl, huv⟩
    · rw [hs, ht]
      exact .error h

theorem nameSymbols_agrees (h : Matches p s t) (head : Char) (body : List Symbol) :
    Agrees p (fun m n => n.1 = m.1 ∧ Matches p m.2 n.2) (nameSymbols head s body)
      (nameSymbols head t (body.map (Symbol.relabel p))) := by
  induction body generalizing s t with
  | nil => exact .ok ⟨rfl, h⟩
  | cons x body ih =>
    simp only [List.map_cons, nameSymbols]
    rcases nameSymbol_agrees h head x with
      ⟨⟨name, u⟩, ⟨_, v⟩, hu, hv, rfl, huv⟩ | ⟨e, u, v, hu, hv, huv⟩
    · simp only [hu, hv]
      rcases ih huv with ⟨⟨names, u'⟩, ⟨_, v'⟩, hu', hv', rfl, huv'⟩ | ⟨e, u', v', hu', hv', huv'⟩
      · rw [hu', hv']
        exact .ok ⟨rfl, huv'⟩
      · rw [hu', hv']
        exact .error huv'
    · rw [hu, hv]
      exact .error huv

/-- The same nonterminals are linked by the same names. -/
theorem linkSuffix_agrees (h : Matches p s t) (head first : Char) (names : List Char) :
    Agrees p (fun m n => n.1 = m.1 ∧ n.2.1 = m.2.1 ∧ Matches p m.2.2 n.2.2)
      (linkSuffix head s first names) (linkSuffix head t first names) := by
  induction names generalizing s t first with
  | nil => exact .ok ⟨rfl, rfl, h⟩
  | cons second names ih =>
    simp only [linkSuffix]
    rcases ih h second with
      ⟨⟨tail, links, u⟩, ⟨_, _, v⟩, hu, hv, rfl, rfl, huv⟩ | ⟨e, u, v, hu, hv, huv⟩
    · simp only [hu, hv]
      rcases huv.fresh (.link head) with ⟨name, u', v', hu', hv', huv'⟩ | ⟨hs, ht⟩
      · have hlink : v.fresh (.link head) = .ok (name, v') := hv'
        rw [hu', hlink]
        exact .ok ⟨rfl, rfl, huv'⟩
      · have hlink : v.fresh (.link head) = .error (.exhausted (.link head)) := ht
        rw [hs, hlink]
        exact .error huv
    · rw [hu, hv]
      exact .error huv

/-- Links hold no terminals. -/
theorem map_relabel_linkSuffix {head first name : Char} {names : List Char} {links : List Rule}
    (hrun : linkSuffix head s first names = .ok (name, links, t)) :
    links.map (Rule.relabel p) = links := by
  refine (List.map_congr_left fun r hr => ?_).trans (List.map_id links)
  obtain ⟨a, b, hpair⟩ := body_of_mem_linkSuffix hrun r hr
  rw [hpair]
  rfl

/-- **A rule and the permuted rule are split alike.** -/
theorem splitRule_agrees (h : Matches p s t) (r : Rule) :
    Agrees p (fun m n => n.1 = m.1.map (Rule.relabel p) ∧ Matches p m.2 n.2) (splitRule s r)
      (splitRule t (r.relabel p)) := by
  match hbody : r.body with
  | [] =>
    have hbody' : (r.relabel p).body = [] := by simp [hbody]
    rw [splitRule, hbody, splitRule, hbody']
    exact .error h
  | [x] =>
    have hbody' : (r.relabel p).body = [x.relabel p] := by simp [hbody]
    rw [splitRule, hbody, splitRule, hbody']
    exact .ok ⟨rfl, h⟩
  | first :: second :: rest =>
    have hbody' : (r.relabel p).body =
        first.relabel p :: second.relabel p :: rest.map (Symbol.relabel p) := by simp [hbody]
    rw [splitRule_eq hbody, splitRule_eq hbody', Rule.body_relabel, Rule.head_relabel]
    rcases nameSymbols_agrees h r.head r.body with
      ⟨⟨_, u⟩, ⟨names, v⟩, hu, hv, rfl, huv⟩ | ⟨e, u, v, hu, hv, huv⟩
    · simp only [hu, hv]
      rcases linkSuffix_agrees huv r.head (names.getD 1 default) (names.drop 2) with
        ⟨⟨tail, links, u'⟩, ⟨_, _, v'⟩, hu', hv', rfl, rfl, huv'⟩ | ⟨e, u', v', hu', hv', huv'⟩
      · rw [hu', hv']
        refine .ok ⟨?_, huv'⟩
        rw [List.map_append, map_relabel_linkSuffix hu']
        rfl
      · rw [hu', hv']
        exact .error huv'
    · rw [hu, hv]
      exact .error huv

/-- **Runs over a list of rules and over the permuted rules end alike.** -/
theorem splitRules_agrees (h : Matches p s t) (rules : List Rule) :
    Agrees p (fun m n => n.1 = m.1.map (Rule.relabel p) ∧ Matches p m.2 n.2) (splitRules s rules)
      (splitRules t (rules.map (Rule.relabel p))) := by
  induction rules generalizing s t with
  | nil => exact .ok ⟨rfl, h⟩
  | cons r rules ih =>
    simp only [List.map_cons, splitRules]
    rcases splitRule_agrees h r with ⟨⟨out, u⟩, ⟨_, v⟩, hu, hv, rfl, huv⟩ | ⟨e, u, v, hu, hv, huv⟩
    · simp only [hu, hv]
      rcases ih huv with ⟨⟨more, u'⟩, ⟨_, v'⟩, hu', hv', rfl, huv'⟩ | ⟨e, u', v', hu', hv', huv'⟩
      · rw [hu', hv']
        exact .ok ⟨(List.map_append ..).symm, huv'⟩
      · rw [hu', hv']
        exact .error huv'
    · rw [hu, hv]
      exact .error huv

end Runs

/-! ## The rules of the stand-ins -/

/-- A rule that turns a name, which a grammar does not use, into a terminal. -/
def Grammar.IsStandInRule (g : Grammar) (r : Rule) : Prop :=
  r.head ∈ alphabet ∧ r.head ≠ g.start ∧ r.head ∉ g.nonterminals ∧ ∃ a, r.body = [.terminal a]

theorem NameSupply.nodup_rules {s : NameSupply} (h : (s.standIns.map Prod.fst).Pairwise (· < ·)) :
    s.rules.Nodup := by
  have hkeys : (s.standIns.map Prod.fst).Nodup := h.imp Char.ne_of_lt
  refine hkeys.of_map.map fun d e hde => ?_
  obtain ⟨a, x⟩ := d
  obtain ⟨b, y⟩ := e
  simp_all

namespace Binarized

variable {g : Grammar} {plan : Plan} {t : NameSupply} {r : Rule}

theorem isStandInRule_of_mem_rules (b : Binarized g plan t) (hr : r ∈ t.rules) :
    g.IsStandInRule r := by
  obtain ⟨e, he, rfl⟩ := List.mem_map.1 hr
  have hpool : e.2 ∈ plan.links ++ t.pool :=
    List.mem_append_right _ (List.mem_append_left _ (List.mem_map_of_mem he))
  obtain ⟨hletter, hstart, hnew⟩ := NameSupply.mem_free_ofGrammar.1 (b.names.mem_iff.1 hpool)
  exact ⟨hletter, hstart, hnew, e.1, rfl⟩

/-- What is written for the rules of a grammar is a pair, or a rule whose head is not new. -/
theorem not_isStandInRule_of_mem_encode (b : Binarized g plan t) (hr : r ∈ plan.encode t.nameOf) :
    ¬ g.IsStandInRule r := by
  rintro ⟨-, -, hnew, a, hbody⟩
  obtain ⟨q, hq, hr⟩ := List.mem_flatMap.1 hr
  rcases Rule.mem_encode hr with ⟨A, B, hpair⟩ | ⟨rfl, -⟩
  · rw [hpair] at hbody
    simp [pairRule] at hbody
  · exact hnew (Grammar.mem_nonterminals.2 ⟨q.1, b.rule_mem hq, .inl rfl⟩)

end Binarized

/-! ## Whole runs -/

/-- The grammar `h'` is `h` under other terminals, but for the order of the rules at the end, which
turn names that are new to `g` into terminals. -/
structure Relabelled (p : Equiv.Perm Char) (g h h' : Grammar) : Prop where
  settings : SameSettings h h'
  mem_iff : ∀ q, q ∈ h'.rules ↔ ∃ r ∈ h.rules, r.relabel p = q
  order : ∃ front block block', h.rules = front ++ block ∧
    h'.rules = front.map (Rule.relabel p) ++ block' ∧ (block.map (Rule.relabel p)).Perm block' ∧
      (∀ r ∈ block, g.IsStandInRule r) ∧ ∀ r ∈ front, ¬ g.IsStandInRule r

namespace Grammar

variable {p : Equiv.Perm Char} {g : Grammar} {plan : Plan} {s t : NameSupply}

/-- Runs that wrote the same under other terminals, with stand-ins that match. -/
theorem relabelled_of_matches (b : Binarized g plan s) (hst : NameSupply.Matches p s t) :
    Relabelled p g (g.withRules (plan.encode s.nameOf ++ s.rules))
      ((g.relabel p).withRules ((plan.encode s.nameOf).map (Rule.relabel p) ++ t.rules)) where
  settings := ⟨rfl, rfl⟩
  mem_iff q := by
    simp only [mem_withRules, List.mem_append, ← hst.rules_perm.mem_iff, List.mem_map, or_and_right,
      exists_or]
  order := by
    have hnew : ∀ r ∈ s.rules, r ∉ plan.encode s.nameOf := fun r hr hencode =>
      b.not_isStandInRule_of_mem_encode hencode (b.isStandInRule_of_mem_rules hr)
    have hnew' : ∀ q ∈ t.rules, q ∉ (plan.encode s.nameOf).map (Rule.relabel p) := by
      intro q hq hencode
      obtain ⟨r, hr, rfl⟩ := List.mem_map.1 (hst.rules_perm.mem_iff.2 hq)
      exact hnew r hr ((List.mem_map_of_injective Rule.relabel_injective).1 hencode)
    refine ⟨firstOccurrences (plan.encode s.nameOf), s.rules, t.rules, ?_, ?_, hst.rules_perm,
      fun r => b.isStandInRule_of_mem_rules, fun r hr => ?_⟩
    · exact firstOccurrences_append_of_new (NameSupply.nodup_rules hst.ascending) hnew
    · rw [← firstOccurrences_map Rule.relabel_injective]
      exact firstOccurrences_append_of_new (NameSupply.nodup_rules hst.ascending') hnew'
    · exact b.not_isStandInRule_of_mem_encode (mem_firstOccurrences.1 hr)

/-- **Binarization of a grammar and of the grammar under other terminals.**  Both succeed with the
same rules under other terminals, or both fail for what is the same reason; the same names are
granted. -/
theorem binarize_relabel (p : Equiv.Perm Char) (g : Grammar) :
    ((∃ h h', g.binarize = .ok h ∧ (g.relabel p).binarize = .ok h' ∧ Relabelled p g h h') ∨
        ∃ e, g.binarize = .error e ∧ (g.relabel p).binarize = .error (e.relabel p)) ∧
      (g.relabel p).grantedNames = g.grantedNames.map (Prod.map id (Purpose.relabel p)) := by
  unfold binarize grantedNames binarization
  rw [rules_relabel]
  rcases splitRules_agrees (NameSupply.matches_ofGrammar p g) g.rules with
    ⟨⟨out, s⟩, ⟨_, t⟩, hout, hout', rfl, hst⟩ | ⟨e, s, t, hout, hout', hst⟩
  · obtain ⟨plan, b, rfl⟩ := binarized_of_splitRules hout
    rw [hout, hout']
    exact ⟨.inl ⟨_, _, rfl, rfl, relabelled_of_matches b hst⟩, hst.granted⟩
  · rw [hout, hout']
    exact ⟨.inr ⟨e, rfl, rfl⟩, hst.granted⟩

/-- **Terminals are interchangeable.**  Under other terminals a grammar has a normal form when it
has one, which holds the same rules under other terminals, with the same new names, in the same
order up to that of the rules at the end, which turn new names into terminals. -/
theorem normalize_relabel (p : Equiv.Perm Char) (g : Grammar) :
    ((∃ h', (g.relabel p).normalize = .ok h') ↔ ∃ h, g.normalize = .ok h) ∧
      (∀ h h', g.normalize = .ok h → (g.relabel p).normalize = .ok h' →
        Relabelled p g.prepared h h') ∧
      (∀ e, g.normalize = .error e → (g.relabel p).normalize = .error (e.relabel p)) ∧
      (g.relabel p).prepared.grantedNames =
        g.prepared.grantedNames.map (Prod.map id (Purpose.relabel p)) := by
  simp only [normalize_eq, prepared_relabel]
  obtain ⟨hruns, hgranted⟩ := binarize_relabel p g.prepared
  rcases hruns with ⟨h, h', hh, hh', hrelabelled⟩ | ⟨e, hg, hg'⟩
  · rw [hh, hh']
    refine ⟨iff_of_true ⟨h', rfl⟩ ⟨h, rfl⟩, ?_, ?_, hgranted⟩
    · intro k k' hk hk'
      cases hk
      cases hk'
      exact hrelabelled
    · intro e he
      cases he
  · rw [hg, hg']
    refine ⟨iff_of_false (by simp) (by simp), ?_, ?_, hgranted⟩
    · intro k k' hk
      cases hk
    · intro e' he
      cases he
      rfl

/-- A rule in which the later of two letters comes first, and a rule with a third letter. -/
def crossed : Grammar where
  rules := [⟨'S', [.terminal 'b', .terminal 'a', .nonterminal 'S']⟩, ⟨'S', [.terminal 'c']⟩]
  start := 'S'
  marker := '#'

/-- Under exchanged letters the stand-ins are the same, and listed in the other order. -/
theorem normalize_relabel_crossed :
    let h : Grammar := { crossed with
      rules := [⟨'C', [.nonterminal 'B', .nonterminal 'S']⟩,
        ⟨'S', [.nonterminal 'A', .nonterminal 'C']⟩,
        ⟨'S', [.terminal 'c']⟩, ⟨'B', [.terminal 'a']⟩, ⟨'A', [.terminal 'b']⟩] }
    let h' : Grammar := { crossed with
      rules := [⟨'C', [.nonterminal 'B', .nonterminal 'S']⟩,
        ⟨'S', [.nonterminal 'A', .nonterminal 'C']⟩,
        ⟨'S', [.terminal 'c']⟩, ⟨'A', [.terminal 'a']⟩, ⟨'B', [.terminal 'b']⟩] }
    crossed.normalize = .ok h ∧ (crossed.relabel (Equiv.swap 'a' 'b')).normalize = .ok h' ∧
      Relabelled (Equiv.swap 'a' 'b') crossed.prepared h h' := by
  intro h h'
  have hrun : crossed.normalize = .ok h := by decide
  have hrun' : (crossed.relabel (Equiv.swap 'a' 'b')).normalize = .ok h' := by decide
  obtain ⟨-, hrelabelled, -⟩ := normalize_relabel (Equiv.swap 'a' 'b') crossed
  exact ⟨hrun, hrun', hrelabelled h h' hrun hrun'⟩

end Grammar

end Chomsky
