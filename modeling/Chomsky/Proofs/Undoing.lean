import Chomsky.Proofs.Rewriting
import Chomsky.Proofs.WrittenRules

/-!
# Binarization can be undone

A new name has one rule, so it can be replaced by the body of that rule wherever it stands.
Replacing the new names in the other rules, one at a time and in whatever order, comes to an end,
and what is left then are the rules of the grammar.

* `Symbol.weight`, `weight` — how many replacements a body allows, at most.
* `Undone` — a rule in which new names were replaced until none was left.

Principal results: `RewriteStep.unfoldSymbols_eq` — a replacement keeps what a body stands for;
`RewriteStep.weight_lt` — it makes the body lighter; `Binarized.unfoldSymbols_eq_self` — a body
without new names stands for itself; `Grammar.binarize_undone` — the rules come back.
-/

namespace Chomsky

/-! ## Replacing until nothing is left -/

/-- The weight of a symbol, when names stand for lists of symbols.  It exceeds that of two names
which together stand for as many symbols. -/
def Symbol.weight (f : Char → List Symbol) : Symbol → Nat
  | nonterminal X => 2 * (f X).length - 1
  | _ => 0

/-- The weight of a body. -/
def weight (f : Char → List Symbol) (body : List Symbol) : Nat := (body.map (Symbol.weight f)).sum

/-- A rule with the names that have `rules` replaced in its body, until none is left. -/
structure Undone (rules : List Rule) (r undone : Rule) : Prop where
  head : undone.head = r.head
  rewrites : Rewrites rules r.body undone.body
  final : ∀ body, ¬ RewriteStep rules undone.body body

section Undone

variable {rules : List Rule} {f : Char → List Symbol} {as bs : List Symbol}

theorem unfoldSymbols_append (f : Char → List Symbol) (as bs : List Symbol) :
    unfoldSymbols f (as ++ bs) = unfoldSymbols f as ++ unfoldSymbols f bs :=
  List.flatMap_append

theorem weight_append (f : Char → List Symbol) (as bs : List Symbol) :
    weight f (as ++ bs) = weight f as + weight f bs := by
  rw [weight, List.map_append, List.sum_append]
  rfl

/-- A replacement keeps what a body stands for, when each name stands for its rule. -/
theorem RewriteStep.unfoldSymbols_eq (hf : ∀ r ∈ rules, f r.head = unfoldSymbols f r.body)
    (h : RewriteStep rules as bs) : unfoldSymbols f as = unfoldSymbols f bs := by
  obtain ⟨before, after, r, hr, rfl, rfl⟩ := h
  have hsplit : before ++ .nonterminal r.head :: after =
      before ++ [.nonterminal r.head] ++ after := by
    simp
  have hhead : unfoldSymbols f [.nonterminal r.head] = unfoldSymbols f r.body :=
    (List.append_nil _).trans (hf r hr)
  rw [hsplit, unfoldSymbols_append, unfoldSymbols_append, unfoldSymbols_append,
    unfoldSymbols_append, hhead]

theorem Rewrites.unfoldSymbols_eq (hf : ∀ r ∈ rules, f r.head = unfoldSymbols f r.body)
    (h : Rewrites rules as bs) : unfoldSymbols f as = unfoldSymbols f bs := by
  induction h with
  | refl => rfl
  | tail _ hstep ih => exact ih.trans (hstep.unfoldSymbols_eq hf)

/-- A replacement makes a body lighter, when each name is heavier than its rule. -/
theorem RewriteStep.weight_lt
    (hf : ∀ r ∈ rules, weight f r.body < (Symbol.nonterminal r.head).weight f)
    (h : RewriteStep rules as bs) : weight f bs < weight f as := by
  obtain ⟨before, after, r, hr, rfl, rfl⟩ := h
  have hlt := hf r hr
  have hcons : weight f (.nonterminal r.head :: after) =
      (Symbol.nonterminal r.head).weight f + weight f after := List.sum_cons
  rw [weight_append, weight_append, weight_append, hcons]
  omega

/-- Then replacing comes to an end, in whatever order. -/
theorem wellFounded_rewriteStep
    (hf : ∀ r ∈ rules, weight f r.body < (Symbol.nonterminal r.head).weight f) :
    WellFounded fun bs as => RewriteStep rules as bs :=
  Subrelation.wf (fun {_ _} hstep => hstep.weight_lt hf) (measure (weight f)).wf

/-- Where replacing comes to an end, every rule can be undone. -/
theorem exists_undone (hwf : WellFounded fun bs as => RewriteStep rules as bs) (r : Rule) :
    ∃ undone, Undone rules r undone := by
  obtain ⟨head, body⟩ := r
  induction body using hwf.induction with
  | _ body ih =>
    by_cases hstep : ∃ next, RewriteStep rules body next
    · obtain ⟨next, hnext⟩ := hstep
      obtain ⟨undone, hundone⟩ := ih next hnext
      exact ⟨undone, hundone.head, .head hnext hundone.rewrites, hundone.final⟩
    · exact ⟨⟨head, body⟩, rfl, .refl, not_exists.1 hstep⟩

end Undone

/-! ## What the names of a run stand for -/

theorem suffix_of_mem_linkTable {body : List Symbol} {links : List Char} {e : Char × List Symbol}
    (he : e ∈ linkTable body links) : e.2 ≠ [] ∧ e.2 <:+ body := by
  induction body generalizing links with
  | nil => exact absurd he List.not_mem_nil
  | cons x rest ih =>
    cases links with
    | nil => exact absurd he List.not_mem_nil
    | cons link links =>
      rcases List.mem_cons.1 he with rfl | he
      · exact ⟨List.cons_ne_nil _ _, List.suffix_rfl⟩
      · obtain ⟨hne, hsuffix⟩ := ih he
        exact ⟨hne, hsuffix.trans (List.suffix_cons ..)⟩

theorem eq_pairRule_of_mem_linkPart {r q : Rule} {nameOf : Symbol → Char} {links : List Char}
    (hq : q ∈ r.linkPart nameOf links) : ∃ A B, q = pairRule q.head A B := by
  unfold Rule.linkPart at hq
  split at hq
  · exact eq_pairRule_of_mem_linkRules hq
  · exact absurd hq List.not_mem_nil

namespace Binarized

variable {g : Grammar} {plan : Plan} {t : NameSupply} {q : Rule} {body : List Symbol}

/-- A rule for a new name says what the name stands for. -/
theorem unfold_head_of_mem_newRules (b : Binarized g plan t)
    (hq : q ∈ g.newRules (g.withRules (plan.encode t.nameOf ++ t.rules))) :
    unfold plan t q.head = unfoldSymbols (unfold plan t) q.body := by
  obtain ⟨hq, hnew⟩ := List.mem_filter.1 hq
  refine (b.unfold_rule (Grammar.mem_withRules.1 hq)).resolve_left fun hrule => ?_
  have hnew : g.IsNew q.head := by simpa using hnew
  exact hnew.1 (Grammar.mem_nonterminals.2 ⟨_, hrule, .inl rfl⟩)

/-- A name that was not given out stands for itself. -/
theorem unfold_of_not_mem (b : Binarized g plan t) {name : Char} (hname : name ∉ newNames plan t) :
    unfold plan t name = [.nonterminal name] := by
  have hnone : (table plan t).lookup name = none := by
    refine List.lookup_eq_none_iff.2 fun e he => ?_
    rw [bne_iff_ne]
    rintro rfl
    rw [newNames, ← b.keys_table] at hname
    exact hname (List.mem_map_of_mem he)
  rw [unfold, hnone]
  rfl

/-- A name stands for some symbols, whose names are old ones unless it stands for itself. -/
theorem unfold_spec (b : Binarized g plan t) (name : Char) :
    unfold plan t name ≠ [] ∧
      ∀ X, .nonterminal X ∈ unfold plan t name → X ∈ g.nonterminals ∨ X = name := by
  cases hlookup : (table plan t).lookup name with
  | none =>
    rw [unfold, hlookup]
    exact ⟨List.cons_ne_nil _ _, fun X hX => .inr (by simpa using hX)⟩
  | some body =>
    rw [unfold, hlookup]
    have hmem := (lookup_eq_some_iff_mem b.nodup_keys_table).1 hlookup
    rcases List.mem_append.1 hmem with hlink | hstandIn
    · obtain ⟨p, hp, hentry⟩ := List.mem_flatMap.1 hlink
      obtain ⟨hne, hsuffix⟩ := suffix_of_mem_linkTable hentry
      refine ⟨hne, fun X hX => .inl (Grammar.mem_nonterminals.2 ⟨p.1, b.rule_mem hp, .inr ?_⟩)⟩
      exact List.mem_of_mem_tail (hsuffix.mem hX)
    · obtain ⟨e, -, he⟩ := List.mem_map.1 hstandIn
      obtain ⟨-, rfl⟩ := Prod.mk.inj he
      exact ⟨List.cons_ne_nil _ _, fun X hX => by simp at hX⟩

/-- The body of a rule for a new name is one terminal, or a pair, and then the name is a link. -/
theorem body_of_mem_newRules (b : Binarized g plan t)
    (hq : q ∈ g.newRules (g.withRules (plan.encode t.nameOf ++ t.rules))) :
    (∃ a, q.body = [.terminal a]) ∨
      q.head ∈ plan.links ∧ ∃ A B, q.body = [.nonterminal A, .nonterminal B] := by
  rw [b.newRules_eq] at hq
  rcases List.mem_append.1 hq with hq | hq
  · obtain ⟨p, hp, hq⟩ := List.mem_flatMap.1 hq
    obtain ⟨A, B, hpair⟩ := eq_pairRule_of_mem_linkPart hq
    refine .inr ⟨List.mem_flatMap.2 ⟨p, hp, (b.unfold_of_mem_linkPart hp hq).1⟩, A, B, ?_⟩
    rw [hpair]
    rfl
  · obtain ⟨e, -, rfl⟩ := List.mem_map.1 hq
    exact .inl ⟨e.1, rfl⟩

/-- **A rule for a new name is lighter than the name.** -/
theorem weight_lt_of_mem_newRules (b : Binarized g plan t)
    (hq : q ∈ g.newRules (g.withRules (plan.encode t.nameOf ++ t.rules))) :
    weight (unfold plan t) q.body < (Symbol.nonterminal q.head).weight (unfold plan t) := by
  have hpos : ∀ name, 0 < (unfold plan t name).length := fun name =>
    List.length_pos_iff.2 (b.unfold_spec name).1
  have hhead := hpos q.head
  rcases b.body_of_mem_newRules hq with ⟨a, hbody⟩ | ⟨-, A, B, hbody⟩
  · rw [hbody]
    show 0 + 0 < 2 * (unfold plan t q.head).length - 1
    omega
  · have hunfold : (unfold plan t q.head).length =
        (unfold plan t A).length + (unfold plan t B).length := by
      rw [b.unfold_head_of_mem_newRules hq, hbody, ← List.length_append]
      exact congrArg (fun bs => (unfold plan t A ++ bs).length) (List.append_nil _)
    have hA := hpos A
    have hB := hpos B
    rw [hbody]
    show 2 * (unfold plan t A).length - 1 + (2 * (unfold plan t B).length - 1 + 0) <
      2 * (unfold plan t q.head).length - 1
    omega

/-- **A body in which no new name is left stands for itself.** -/
theorem unfoldSymbols_eq_self (b : Binarized g plan t)
    (hfinal : ∀ next,
      ¬ RewriteStep (g.newRules (g.withRules (plan.encode t.nameOf ++ t.rules))) body next) :
    unfoldSymbols (unfold plan t) body = body := by
  have hsymbol : ∀ x ∈ body, unfoldSymbol (unfold plan t) x = [x] := by
    intro x hx
    cases x with
    | terminal a => rfl
    | null => rfl
    | nonterminal X =>
      refine b.unfold_of_not_mem fun hX => ?_
      obtain ⟨q, hq, rfl⟩ := List.mem_map.1 (b.map_head_written_perm.mem_iff.2 hX)
      rw [← b.newRules_eq] at hq
      obtain ⟨before, after, rfl⟩ := List.append_of_mem hx
      exact hfinal _ ⟨before, after, q, hq, rfl, rfl⟩
  exact (List.flatMap_congr hsymbol).trans (List.flatMap_singleton' body)

/-- What is left of a rule in the end is what its body stands for. -/
theorem eq_of_undone (b : Binarized g plan t) {r undone : Rule}
    (h : Undone (g.newRules (g.withRules (plan.encode t.nameOf ++ t.rules))) r undone) :
    undone = r.unfoldBody (unfold plan t) := by
  obtain ⟨head, body⟩ := undone
  have hhead : head = r.head := h.head
  have hbody : unfoldSymbols (unfold plan t) body = body := b.unfoldSymbols_eq_self h.final
  rw [Rule.unfoldBody, h.rewrites.unfoldSymbols_eq fun q hq => b.unfold_head_of_mem_newRules hq,
    hbody, hhead]

/-- **What the rules for old names stand for** are the rules of the grammar. -/
theorem map_unfoldBody_oldRules (b : Binarized g plan t) :
    firstOccurrences ((g.oldRules (g.withRules (plan.encode t.nameOf ++ t.rules))).map
      (Rule.unfoldBody (unfold plan t))) = firstOccurrences g.rules := by
  rw [b.oldRules_eq, firstOccurrences_map_firstOccurrences, b.map_unfoldBody_leading]

/-- A name of the result that is new is one of those that were given out. -/
theorem mem_newNames_of_isNew (b : Binarized g plan t) {name : Char} (hnew : g.IsNew name)
    (hname : name ∈ (g.withRules (plan.encode t.nameOf ++ t.rules)).nonterminals) :
    name ∈ newNames plan t := by
  obtain ⟨q, hq, hname⟩ := Grammar.mem_nonterminals.1 hname
  have hhead : g.IsNew q.head → q.head ∈ newNames plan t := fun hnew => by
    refine b.map_head_written_perm.mem_iff.1 (List.mem_map_of_mem ?_)
    rw [← b.newRules_eq]
    exact List.mem_filter.2 ⟨hq, decide_eq_true hnew⟩
  rcases hname with rfl | hbody
  · exact hhead hnew
  · by_contra hnot
    -- the name stands for itself, so it stands in what the rule stands for
    have hunfold : .nonterminal name ∈ unfoldSymbols (unfold plan t) q.body := by
      refine List.mem_flatMap.2 ⟨_, hbody, ?_⟩
      rw [unfoldSymbol, b.unfold_of_not_mem hnot]
      exact List.mem_singleton.2 rfl
    rcases b.unfold_rule (Grammar.mem_withRules.1 hq) with hrule | hstands
    · exact hnew.1 (Grammar.mem_nonterminals.2 ⟨_, hrule, .inr hunfold⟩)
    · rw [← hstands] at hunfold
      rcases (b.unfold_spec q.head).2 name hunfold with hold | rfl
      · exact hnew.1 hold
      · exact hnot (hhead hnew)

end Binarized

/-! ## Binarization -/

namespace Grammar

variable {g h : Grammar}

/-- The rules for one head are one rule, when no head is repeated among those for new names. -/
theorem exists_rulesFor_eq_singleton {name : Char} (hnew : g.IsNew name)
    (hnodup : ((g.newRules h).map Rule.head).Nodup) (hname : name ∈ (g.newRules h).map Rule.head) :
    ∃ r, h.rulesFor name = [r] := by
  obtain ⟨r, hr, rfl⟩ := List.mem_map.1 hname
  refine ⟨r, ?_⟩
  have honly : h.rulesFor r.head = (g.newRules h).filter (· = r) := by
    unfold rulesFor newRules
    rw [List.filter_filter]
    refine List.filter_congr fun q hq => ?_
    rw [Bool.eq_iff_iff, beq_iff_eq, Bool.and_eq_true, decide_eq_true_eq, decide_eq_true_eq]
    constructor
    · intro hhead
      have hq : q ∈ g.newRules h := List.mem_filter.2 ⟨hq, decide_eq_true (hhead ▸ hnew)⟩
      exact ⟨List.inj_on_of_nodup_map hnodup hq hr hhead, hhead ▸ hnew⟩
    · exact fun hsame => congrArg Rule.head hsame.1
  rw [honly, List.filter_eq, List.count_eq_one_of_mem hnodup.of_map hr]
  rfl

/-- **Binarization can be undone.**  A new name has one rule, and one that stands for a pair is used
once.  Replacing the new names in the rules for the old ones comes to an end, and gives the rules of
the grammar, each at its first place. -/
theorem binarize_undone (hrun : g.binarize = .ok h) :
    (∀ name ∈ h.nonterminals, g.IsNew name → ∃ r, h.rulesFor name = [r]) ∧
      (∀ name A B, g.IsNew name → pairRule name A B ∈ h.rules →
        (h.rules.flatMap Rule.bodyNonterminals).count name = 1) ∧
      (WellFounded fun bs as => RewriteStep (g.newRules h) as bs) ∧
      (∃ undone, List.Forall₂ (Undone (g.newRules h)) (g.oldRules h) undone) ∧
      ∀ undone, List.Forall₂ (Undone (g.newRules h)) (g.oldRules h) undone →
        firstOccurrences undone = firstOccurrences g.rules := by
  obtain ⟨plan, t, b, rfl⟩ := binarize_ok hrun
  have hwf := wellFounded_rewriteStep fun q hq => b.weight_lt_of_mem_newRules hq
  have hheads := b.map_head_written_perm
  rw [← b.newRules_eq] at hheads
  refine ⟨fun name hname hnew => ?_, fun name A B hnew hpair => ?_, hwf, ?_,
    fun undone hundone => ?_⟩
  · exact exists_rulesFor_eq_singleton hnew (hheads.nodup_iff.2 b.nodup_newNames)
      (hheads.mem_iff.2 (b.mem_newNames_of_isNew hnew hname))
  · have hnewRule : pairRule name A B ∈ g.newRules _ :=
      List.mem_filter.2 ⟨hpair, decide_eq_true hnew⟩
    have hlink : name ∈ plan.links := by
      rcases b.body_of_mem_newRules hnewRule with ⟨a, hbody⟩ | ⟨hlink, -⟩
      · cases hbody
      · exact hlink
    have hwritten := b.count_bodyNonterminals_written hlink
    refine Nat.le_antisymm ?_ (List.one_le_count_iff.2 ?_)
    · rw [← hwritten]
      exact ((firstOccurrences_sublist _).flatMap _).count_le name
    · have hused := List.one_le_count_iff.1 (Nat.le_of_eq hwritten.symm)
      obtain ⟨q, hq, hname⟩ := List.mem_flatMap.1 hused
      exact List.mem_flatMap.2 ⟨q, mem_withRules.2 hq, hname⟩
  · choose undone hundone using exists_undone hwf
    refine ⟨_, List.forall₂_map_right_iff.2 (List.forall₂_same.2 fun r _ => hundone r)⟩
  · have hsame := hundone.imp fun r undone hr => (b.eq_of_undone hr).symm
    rw [← List.forall₂_map_left_iff (R := Eq), List.forall₂_eq_eq_eq] at hsame
    rw [← hsame, b.map_unfoldBody_oldRules]

/-- A rule of three symbols, one of two, and a copy of the first. -/
def doubled : Grammar where
  rules := [⟨'S', [.terminal 'a', .nonterminal 'S', .terminal 'b']⟩,
    ⟨'S', [.terminal 'a', .terminal 'b']⟩,
    ⟨'S', [.terminal 'a', .nonterminal 'S', .terminal 'b']⟩]
  start := 'S'
  marker := '#'

/-- Each copy has its own link, and both come back as one rule. -/
theorem binarize_undone_doubled :
    ∃ h, doubled.binarize = .ok h ∧
      h.rules = [pairRule 'C' 'S' 'B', pairRule 'S' 'A' 'C', pairRule 'S' 'A' 'B',
        pairRule 'D' 'S' 'B', pairRule 'S' 'A' 'D', ⟨'A', [.terminal 'a']⟩,
          ⟨'B', [.terminal 'b']⟩] ∧
      ∃ undone, List.Forall₂ (Undone (doubled.newRules h)) (doubled.oldRules h) undone ∧
        firstOccurrences undone = doubled.rules.take 2 := by
  obtain ⟨h, hrun⟩ : ∃ h, doubled.binarize = .ok h := ⟨_, rfl⟩
  obtain ⟨-, -, -, ⟨undone, hundone⟩, hback⟩ := binarize_undone hrun
  refine ⟨h, hrun, ?_, undone, hundone, hback undone hundone⟩
  cases hrun
  decide

end Grammar

end Chomsky
