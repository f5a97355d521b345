import Chomsky.Proofs.Undoing

/-!
# Where new names stand

A new name is granted for a purpose, and its rule in the result is there for this purpose.  A
stand-in turns into its terminal.  A link can be replaced by the end of the body for which it was
asked: the shortest end is asked for first, so the links of a result head their rules in the order
in which they were granted.

* `Rule.linkedEnds` — the ends of a body that have links, each as a rule for the head.
* `Grammar.Placed` — each letter of a list of grants does in a result what it was granted for.

Principal results: `Binarized.rewrites_unfold` — a name can be replaced by what it stands for;
`Binarized.placed` — the letters that a run grants are placed in what it writes.
-/

namespace Chomsky

/-- The ends of a body that have links, from the last two symbols on, each as a rule for the
head. -/
def Rule.linkedEnds (r : Rule) : List Rule :=
  (r.body.tail.tails.take r.linkCount).reverse.map fun part => ⟨r.head, part⟩

namespace Grammar

/-- Each letter of a list of grants does in the result `h` what it was granted for. -/
structure Placed (g h : Grammar) (granted : List (Char × Purpose)) : Prop where
  /-- The letters are the new names of the result. -/
  names : ∀ name, name ∈ h.nonterminals ∧ g.IsNew name ↔ name ∈ granted.map Prod.fst
  /-- The letters for terminals are the new names that turn into a terminal. -/
  standIns : ∀ name a,
    (name, .terminal a) ∈ granted ↔ g.IsNew name ∧ ⟨name, [.terminal a]⟩ ∈ h.rules
  /-- The letters for links head the new rules for pairs, in order. -/
  linkHeads : ((g.newRules h).filter fun q => q.body.length = 2).map Rule.head =
    (linkGrants granted).map Prod.fst
  /-- They are for the ends of the rules of the grammar, in order, and can be replaced by these. -/
  links : List.Forall₂
    (fun grant part =>
      grant.2 = part.head ∧ Rewrites (g.newRules h) [.nonterminal grant.1] part.body)
    (linkGrants granted) (g.rules.flatMap Rule.linkedEnds)

end Grammar

/-! ## Ends of bodies -/

/-- What the links of a body stand for: one end after the other. -/
theorem map_snd_linkTable {body : List Symbol} {links : List Char}
    (h : links.length ≤ body.length) :
    (linkTable body links).map Prod.snd = body.tails.take links.length := by
  induction links generalizing body with
  | nil => cases body <;> rfl
  | cons link links ih =>
    cases body with
    | nil => exact absurd h (by simp)
    | cons x rest => exact congrArg ((x :: rest) :: ·) (ih (by simpa using h))

/-- Two lists that are put together in the same way are related when their parts are. -/
theorem forall₂_flatMap {α β γ : Type} {R : β → γ → Prop} {as : List α} {f : α → List β}
    {k : α → List γ} (h : ∀ a ∈ as, List.Forall₂ R (f a) (k a)) :
    List.Forall₂ R (as.flatMap f) (as.flatMap k) := by
  have hsame : List.Forall₂ (fun a b => a = b ∧ a ∈ as) as as :=
    List.forall₂_same.2 fun a ha => ⟨rfl, ha⟩
  refine List.rel_flatMap hsame ?_
  rintro a _ ⟨rfl, ha⟩
  exact h a ha

namespace Binarized

variable {g : Grammar} {plan : Plan} {t : NameSupply} {p : Rule × List Char} {name a : Char}

/-! ## The places of a run -/

/-- The letters that are granted are the links and the stand-ins. -/
theorem map_fst_granted_perm (b : Binarized g plan t) :
    (t.granted.map Prod.fst).Perm (newNames plan t) := by
  obtain ⟨grants, -, hfree, hgranted⟩ := b.serves
  obtain rfl : t.granted = grants := hgranted
  have hnames := b.names.symm
  rw [hfree, NameSupply.pool, ← List.append_assoc] at hnames
  exact (List.perm_append_right_iff _).1 hnames

/-- **A name can be replaced by what it stands for.** -/
theorem rewrites_unfold (b : Binarized g plan t) (name : Char) :
    Rewrites (g.newRules (g.withRules (plan.encode t.nameOf ++ t.rules)))
      [.nonterminal name] (unfold plan t name) := by
  have hwf := wellFounded_rewriteStep fun q hq => b.weight_lt_of_mem_newRules hq
  obtain ⟨undone, hundone⟩ := exists_undone hwf ⟨name, [.nonterminal name]⟩
  have hbody : undone.body = unfold plan t name ++ [] :=
    congrArg Rule.body (b.eq_of_undone hundone)
  rw [List.append_nil] at hbody
  rw [← hbody]
  exact hundone.rewrites

/-- The links of a rule are granted for the ends of its body, and can be replaced by these. -/
theorem forall₂_linkedEnds (b : Binarized g plan t) (hp : p ∈ plan) :
    List.Forall₂
      (fun grant part => grant.2 = part.head ∧
        Rewrites (g.newRules (g.withRules (plan.encode t.nameOf ++ t.rules)))
          [.nonterminal grant.1] part.body)
      (p.1.linkGrants p.2) p.1.linkedEnds := by
  have hlength : p.2.length ≤ p.1.body.tail.length := by
    rw [b.lengths p hp, Rule.linkCount, List.length_tail]
    omega
  have hgrants : p.1.linkGrants p.2 =
      (linkTable p.1.body.tail p.2).reverse.map fun e => (e.1, p.1.head) := by
    rw [Rule.linkGrants, ← congrArg List.reverse (keys_linkTable hlength), ← List.map_reverse,
      List.map_map]
    rfl
  have hends : p.1.linkedEnds =
      (linkTable p.1.body.tail p.2).reverse.map fun e => ⟨p.1.head, e.2⟩ := by
    rw [Rule.linkedEnds, ← b.lengths p hp, ← map_snd_linkTable hlength, ← List.map_reverse,
      List.map_map]
    rfl
  rw [hgrants, hends, List.forall₂_map_left_iff, List.forall₂_map_right_iff, List.forall₂_same]
  intro e he
  have htable : e ∈ table plan t :=
    List.mem_append_left _ (List.mem_flatMap.2 ⟨p, hp, List.mem_reverse.1 he⟩)
  refine ⟨rfl, ?_⟩
  rw [← b.unfold_new htable]
  exact b.rewrites_unfold e.1

/-- The rules of links are the new rules for pairs. -/
theorem filter_pair_newRules (b : Binarized g plan t) :
    ((g.newRules (g.withRules (plan.encode t.nameOf ++ t.rules))).filter fun q =>
        q.body.length = 2) = plan.flatMap fun p => p.1.linkPart t.nameOf p.2 := by
  have hlinks : ∀ q ∈ plan.flatMap (fun p => p.1.linkPart t.nameOf p.2),
      decide (q.body.length = 2) = true := by
    intro q hq
    obtain ⟨p, -, hq⟩ := List.mem_flatMap.1 hq
    obtain ⟨A, B, hpair⟩ := eq_pairRule_of_mem_linkPart hq
    rw [hpair]
    rfl
  have hstandIns : ∀ q ∈ t.rules, ¬ decide (q.body.length = 2) = true := by
    intro q hq
    obtain ⟨e, -, rfl⟩ := List.mem_map.1 hq
    simp
  rw [b.newRules_eq, List.filter_append, List.filter_eq_self.2 hlinks,
    List.filter_eq_nil_iff.2 hstandIns, List.append_nil]

/-- A new name turns into a terminal when it is the stand-in of the terminal. -/
theorem mem_rules_iff (b : Binarized g plan t) :
    ⟨name, [.terminal a]⟩ ∈ t.rules ↔ g.IsNew name ∧
      ⟨name, [.terminal a]⟩ ∈ (g.withRules (plan.encode t.nameOf ++ t.rules)).rules := by
  constructor
  · intro hrule
    exact ⟨b.isNew_head_of_mem_rules hrule,
      Grammar.mem_withRules.2 (List.mem_append_right _ hrule)⟩
  · rintro ⟨hnew, hrule⟩
    have hnewRule : ⟨name, [.terminal a]⟩ ∈
        g.newRules (g.withRules (plan.encode t.nameOf ++ t.rules)) :=
      List.mem_filter.2 ⟨hrule, decide_eq_true hnew⟩
    rw [b.newRules_eq] at hnewRule
    refine (List.mem_append.1 hnewRule).resolve_left fun hlink => ?_
    obtain ⟨p, -, hlink⟩ := List.mem_flatMap.1 hlink
    obtain ⟨A, B, hpair⟩ := eq_pairRule_of_mem_linkPart hlink
    cases hpair

/-- **The letters that a run grants do in the result what they were granted for.** -/
theorem placed (b : Binarized g plan t) :
    g.Placed (g.withRules (plan.encode t.nameOf ++ t.rules)) t.granted where
  names name := by
    rw [b.map_fst_granted_perm.mem_iff]
    constructor
    · rintro ⟨hname, hnew⟩
      exact b.mem_newNames_of_isNew hnew hname
    · intro hname
      obtain ⟨q, hq, rfl⟩ := List.mem_map.1 (b.map_head_written_perm.mem_iff.2 hname)
      rw [← b.newRules_eq] at hq
      obtain ⟨hq, hnew⟩ := List.mem_filter.1 hq
      exact ⟨Grammar.mem_nonterminals.2 ⟨q, hq, .inl rfl⟩, of_decide_eq_true hnew⟩
  standIns name a := by
    rw [← mem_standInGrants, ← b.standIns.mem_iff, ← b.mem_rules_iff, NameSupply.rules,
      List.mem_map]
    constructor
    · exact fun he => ⟨_, he, rfl⟩
    · rintro ⟨e, he, hrule⟩
      cases hrule
      exact he
  linkHeads := by
    rw [b.filter_pair_newRules, b.linkGrants, Plan.linkGrants, List.map_flatMap, List.map_flatMap]
    refine List.flatMap_congr fun p hp => ?_
    rw [b.map_head_linkPart hp, Rule.linkGrants, List.map_map]
    exact (List.map_id _).symm
  links := by
    rw [b.linkGrants, ← b.rules, List.flatMap_map]
    exact forall₂_flatMap fun p hp => b.forall₂_linkedEnds hp

end Binarized

end Chomsky
