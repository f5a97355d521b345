import Chomsky.Proofs.Loops
import Chomsky.Proofs.UnitElimination

/-!
# The loop that closes the unit rules

The loop lets the head of each unit rule reach what its body reaches so far.  How far a pass gets
depends on the order of the rules, but in each pass every chain of unit rules gets on by one rule at
least.  A shortest chain meets no nonterminal twice, so it has fewer rules than there are
nonterminals: this bounds the number of passes, while the number of pairs that are added would bound
it by a square only.

* `UnitChain rules n A B` — a chain of `n` unit rules leads from `A` to `B`.
* `UnitDistance rules n A B` — a shortest chain has `n` rules.
* `UnitClosure.spread` — one pass of the loop; `Grammar.closureAfter` — what it has found after some
  passes.

Principal results: `Grammar.unitDistance_lt_size` — shortest chains are short;
`UnitClosure.spread_eq` — a pass of the loop is `UnitClosure.pass`, and tells whether it changed
something; `Grammar.mem_targets_closureAfter` — how far the loop has got after some passes;
`Grammar.loopEnds_spread`, `Grammar.length_closurePasses_le` — how it ends, and after how many
passes; `Grammar.unitClosure_exact` — all of this.
-/

namespace Chomsky

/-! ## Chains of unit rules -/

instance (rules : List Rule) (A B : Char) : Decidable (UnitStep rules A B) :=
  inferInstanceAs (Decidable (_ ∈ rules))

/-- A chain of so many unit rules leads from one nonterminal to another. -/
inductive UnitChain (rules : List Rule) : Nat → Char → Char → Prop where
  | nil (A : Char) : UnitChain rules 0 A A
  | cons {A B C : Char} {n : Nat} :
      UnitStep rules A B → UnitChain rules n B C → UnitChain rules (n + 1) A C

/-- The number of unit rules in a shortest chain. -/
structure UnitDistance (rules : List Rule) (n : Nat) (A B : Char) : Prop where
  chain : UnitChain rules n A B
  le : ∀ m, UnitChain rules m A B → n ≤ m

section Chains

variable {rules : List Rule} {A B C : Char} {m n : Nat}

theorem unitReaches_iff : UnitReaches rules A B ↔ ∃ n, UnitChain rules n A B := by
  constructor
  · intro h
    induction h using Relation.ReflTransGen.head_induction_on with
    | refl => exact ⟨0, .nil B⟩
    | head hstep _ ih =>
      obtain ⟨n, hn⟩ := ih
      exact ⟨n + 1, .cons hstep hn⟩
  · rintro ⟨n, h⟩
    induction h with
    | nil => exact .refl
    | cons hstep _ ih => exact ih.head hstep

theorem exists_unitDistance (h : UnitReaches rules A B) : ∃ n, UnitDistance rules n A B := by
  classical
  have hchain := unitReaches_iff.1 h
  exact ⟨Nat.find hchain, Nat.find_spec hchain, fun m hm => Nat.find_min' hchain hm⟩

theorem UnitDistance.unique (h : UnitDistance rules n A B) (h' : UnitDistance rules m A B) :
    n = m :=
  Nat.le_antisymm (h.le m h'.chain) (h'.le n h.chain)

/-- The rest of a shortest chain is a shortest chain. -/
theorem UnitDistance.tail (h : UnitDistance rules (n + 1) A C) :
    ∃ B, UnitStep rules A B ∧ UnitDistance rules n B C := by
  cases h.chain with
  | @cons _ B _ _ hstep hchain =>
    exact ⟨B, hstep, hchain, fun m hm => Nat.le_of_succ_le_succ (h.le _ (.cons hstep hm))⟩

end Chains

namespace Grammar

variable {g : Grammar} {A B : Char} {n : Nat}

/-- The nonterminals of a shortest chain differ, since each has a distance of its own. -/
theorem exists_nodup_of_unitDistance (h : UnitDistance g.rules n A B) (hA : A ∈ g.nonterminals) :
    ∃ names : List Char, names.Nodup ∧ names.length = n + 1 ∧
      ∀ C ∈ names, C ∈ g.nonterminals ∧ ∃ m ≤ n, UnitDistance g.rules m C B := by
  induction n generalizing A with
  | zero =>
    refine ⟨[A], List.nodup_singleton A, rfl, fun C hC => ?_⟩
    rw [List.mem_singleton.1 hC]
    exact ⟨hA, 0, Nat.le_refl 0, h⟩
  | succ n ih =>
    obtain ⟨C, hstep, hC⟩ := h.tail
    obtain ⟨names, hnodup, hlength, hnames⟩ := ih hC (mem_nonterminals_of_unitStep hstep).2
    -- the others are nearer to the end of the chain
    have hnew : A ∉ names := fun hmem => by
      obtain ⟨-, m, hm, hdistance⟩ := hnames A hmem
      have heq := hdistance.unique h
      omega
    refine ⟨A :: names, List.nodup_cons.2 ⟨hnew, hnodup⟩, by rw [List.length_cons, hlength], ?_⟩
    refine List.forall_mem_cons.2 ⟨⟨hA, n + 1, Nat.le_refl _, h⟩, fun D hD => ?_⟩
    obtain ⟨hD, m, hm, hdistance⟩ := hnames D hD
    exact ⟨hD, m, Nat.le_succ_of_le hm, hdistance⟩

/-- **A shortest chain has fewer rules than there are nonterminals.** -/
theorem unitDistance_lt_size (h : UnitDistance g.rules n A B) (hA : A ∈ g.nonterminals) :
    n < g.nonterminals.size := by
  obtain ⟨names, hnodup, hlength, hnames⟩ := exists_nodup_of_unitDistance h hA
  have hle : names.length ≤ g.nonterminals.toList.length :=
    (hnodup.subperm fun C hC => (hnames C hC).1).length_le
  rw [hlength] at hle
  exact hle

end Grammar

/-! ## One pass of the loop -/

namespace UnitClosure

variable {u : UnitClosure} {pairs : List (Char × Char)} {names : List Char} {name : Char}
  {s t : CharSet} {p : Char × Char}

/-- Adds the members of a set one by one; tells whether one of them is new. -/
def addAll (t s : CharSet) : CharSet × Bool :=
  sweep (fun s c => (s.insert c, decide (c ∉ s))) t.toList s

/-- Changes what a nonterminal reaches, in place.  A nonterminal that has no entry gets one, with
nothing in it. -/
def change (name : Char) (f : CharSet → CharSet × Bool) : UnitClosure → UnitClosure × Bool
  | [] => ([(name, (f ∅).1)], (f ∅).2)
  | (k, s) :: u =>
    if name < k then ((name, (f ∅).1) :: (k, s) :: u, (f ∅).2)
    else if name = k then ((k, (f s).1) :: u, (f s).2)
    else
      let rest := change name f u
      ((k, s) :: rest.1, rest.2)

/-- The head of a unit rule gets what the body has. -/
def spreadStep (u : UnitClosure) (p : Char × Char) : UnitClosure × Bool :=
  u.change p.1 (addAll (u.targets p.2))

/-- One pass over the unit rules. -/
def spread (pairs : List (Char × Char)) : UnitClosure → UnitClosure × Bool := sweep spreadStep pairs

theorem climbs_insert (c : Char) : Climbs (CharSet.insert · c) (fun _ => True) CharSet.size :=
  ⟨fun _ _ => trivial, fun _ _ hne =>
    CharSet.size_lt (fun _ hx => CharSet.mem_insert.2 (.inr hx)) hne⟩

theorem insert_ne_iff {c : Char} : s.insert c ≠ s ↔ c ∉ s :=
  ⟨fun hne hc => hne (CharSet.insert_of_mem hc),
    fun hc heq => hc (heq ▸ CharSet.mem_insert.2 (.inl rfl))⟩

theorem addAll_eq : addAll t s = (s.union t, decide (s.union t ≠ s)) := by
  refine sweep_eq (f := CharSet.insert) (fun c _ => climbs_insert c) (fun c _ s _ => ?_) trivial
  rw [decide_eq_decide.2 insert_ne_iff]

theorem extend_cons {k : Char} :
    extend ((k, s) :: u) name t = (k, if k = name then s.union t else s) :: extend u name t := by
  unfold extend
  rw [List.map_cons]
  split <;> rfl

/-- A nonterminal without an entry is not extended. -/
theorem extend_of_not_mem (h : name ∉ u.map Prod.fst) : u.extend name t = u :=
  calc u.extend name t
    _ = u.map id := List.map_congr_left fun e he => by
      refine if_neg ?_
      rintro rfl
      exact h (List.mem_map_of_mem he)
    _ = u := List.map_id u

/-- Where there is an entry the loop changes it as `extend` does. -/
theorem change_addAll (hkeys : (u.map Prod.fst).Pairwise (· < ·)) (hname : name ∈ u.map Prod.fst) :
    u.change name (addAll t) = (u.extend name t, decide (u.extend name t ≠ u)) := by
  induction u with
  | nil => cases hname
  | cons e u ih =>
    obtain ⟨k, s⟩ := e
    obtain ⟨hlt, hrest⟩ := List.pairwise_cons.1 hkeys
    rw [extend_cons, change]
    by_cases heq : name = k
    · subst heq
      have hnot : name ∉ u.map Prod.fst := fun hmem => Char.lt_irrefl name (hlt name hmem)
      rw [if_neg (Char.lt_irrefl name), if_pos rfl, if_pos rfl, addAll_eq, extend_of_not_mem hnot]
      simp
    -- the entries are in order, so the search does not stop before the one that is looked for
    · have hmem : name ∈ u.map Prod.fst := (List.mem_cons.1 hname).resolve_left heq
      have hle : ¬ name < k := fun h => Char.lt_irrefl k (Char.lt_trans (hlt name hmem) h)
      rw [if_neg hle, if_neg heq, if_neg (Ne.symm heq), ih hrest hmem]
      simp

/-- Each pair of nonterminals that a pass adds raises their number. -/
theorem climbs_pass (hnames : names.Nodup) :
    Climbs (pass pairs) (Over names) (pairCount names) := by
  refine ⟨fun u hu => hu.pass, fun u hu hne => ?_⟩
  rw [← hu.keys] at hnames ⊢
  exact pairCount_lt_pass hnames hne

/-- **A pass of the loop is `UnitClosure.pass`**, and tells whether it changed something, when the
heads of the unit rules have entries. -/
theorem spread_eq {keys : CharSet} (hpairs : ∀ p ∈ pairs, p.1 ∈ keys) (hu : u.Over keys.toList) :
    spread pairs u = (pass pairs u, decide (pass pairs u ≠ u)) := by
  have hclimbs : ∀ p ∈ pairs, Climbs (pass [p]) (Over keys.toList) (pairCount keys.toList) :=
    fun p _ => climbs_pass keys.nodup_toList
  refine sweep_eq (f := fun u p => pass [p] u) hclimbs (fun p hp v hv => ?_) hu
  refine change_addAll ?_ ?_
  · rw [hv.keys]
    exact keys.ascending
  · rw [hv.keys]
    exact hpairs p hp

/-- A closure whose keys differ is determined by its keys and its targets. -/
theorem eq_of_targets {v : UnitClosure} (hu : u.Over names) (hv : v.Over names)
    (hnames : names.Nodup) (h : ∀ x c, c ∈ v.targets x ↔ c ∈ u.targets x) : v = u := by
  have htargets : ∀ x, v.targets x = u.targets x := fun x => CharSet.ext (h x)
  calc v
    _ = names.map fun k => (k, v.targets k) := hv.eq_map hnames
    _ = names.map fun k => (k, u.targets k) := by simp only [htargets]
    _ = u := (hu.eq_map hnames).symm

end UnitClosure

/-! ## The loop -/

namespace Grammar

variable {g : Grammar} {A B c : Char} {n d : Nat} {u : UnitClosure}

theorem fst_mem_of_mem_unitPairs {p : Char × Char} (hp : p ∈ g.unitPairs) :
    p.1 ∈ g.nonterminals := by
  obtain ⟨A, B⟩ := p
  exact (mem_nonterminals_of_unitStep (mem_unitPairs.1 hp)).1

theorem spread_unitPairs (hu : u.Over g.nonterminals.toList) :
    UnitClosure.spread g.unitPairs u =
      (UnitClosure.pass g.unitPairs u, decide (UnitClosure.pass g.unitPairs u ≠ u)) :=
  UnitClosure.spread_eq (fun _ => fst_mem_of_mem_unitPairs) hu

/-- **The loop ends with the unit closure**, and the passes listed are its passes. -/
theorem loopEnds_spread (g : Grammar) :
    LoopEnds (UnitClosure.spread g.unitPairs) g.selfClosure g.closurePasses.length g.unitClosure :=
  loopEnds_passes (UnitClosure.climbs_pass g.nonterminals.nodup_toList)
    (fun _ hu => UnitClosure.pairCount_le hu.targets_mem) (fun _ hu => spread_unitPairs hu)
    g.over_selfClosure (Nat.lt_of_lt_of_le (Nat.lt_succ_self _) (Nat.le_add_right ..))

/-- What the nonterminals reach after some passes. -/
def closureAfter (g : Grammar) (n : Nat) : UnitClosure :=
  afterPasses (UnitClosure.spread g.unitPairs) n g.selfClosure

theorem over_closureAfter (g : Grammar) (n : Nat) :
    (g.closureAfter n).Over g.nonterminals.toList := by
  induction n with
  | zero => exact g.over_selfClosure
  | succ n ih =>
    rw [closureAfter, afterPasses_succ]
    rw [closureAfter] at ih
    rw [spread_unitPairs ih]
    exact ih.pass

theorem closureAfter_succ (g : Grammar) (n : Nat) :
    g.closureAfter (n + 1) = UnitClosure.pass g.unitPairs (g.closureAfter n) := by
  have hpass := spread_unitPairs (g.over_closureAfter n)
  rw [closureAfter, afterPasses_succ]
  exact congrArg Prod.fst hpass

/-- **In each pass every chain gets on by one rule at least.** -/
theorem mem_targets_closureAfter (h : UnitChain g.rules d A B) (hA : A ∈ g.nonterminals)
    (hd : d ≤ n) : B ∈ (g.closureAfter n).targets A := by
  induction n generalizing d A with
  | zero =>
    obtain rfl := Nat.le_zero.1 hd
    cases h
    exact mem_targets_selfClosure.2 ⟨hA, rfl⟩
  | succ n ih =>
    rw [closureAfter_succ]
    cases h with
    | nil => exact UnitClosure.mem_targets_pass (ih (.nil _) hA (Nat.zero_le n))
    | cons hstep hchain =>
      -- the passes before have followed the rest of the chain; this one lets its head know
      refine UnitClosure.mem_targets_pass_of_pair (mem_unitPairs.2 hstep) ?_
        (ih hchain (mem_nonterminals_of_unitStep hstep).2 (Nat.le_of_succ_le_succ hd))
      rw [(g.over_closureAfter n).keys]
      exact hA

theorem onlyReached_closureAfter (g : Grammar) (n : Nat) : g.OnlyReached (g.closureAfter n) := by
  induction n with
  | zero => exact g.onlyReached_selfClosure
  | succ n ih =>
    rw [closureAfter_succ]
    exact ih.pass

/-- After one pass less than there are nonterminals nothing is left to add: a pass adds only what
some chain reaches, and the shortest chain to it has been followed to its end. -/
theorem pass_closureAfter (g : Grammar) :
    UnitClosure.pass g.unitPairs (g.closureAfter (g.nonterminals.size - 1)) =
      g.closureAfter (g.nonterminals.size - 1) := by
  have hover := g.over_closureAfter (g.nonterminals.size - 1)
  refine UnitClosure.eq_of_targets hover hover.pass g.nonterminals.nodup_toList fun A B => ?_
  constructor
  · intro hB
    obtain ⟨hA, hreach⟩ := (g.onlyReached_closureAfter _).pass A B hB
    obtain ⟨d, hd⟩ := exists_unitDistance hreach
    exact mem_targets_closureAfter hd.chain hA (Nat.le_pred_of_lt (unitDistance_lt_size hd hA))
  · exact UnitClosure.mem_targets_pass

/-- **There are no more passes than nonterminals**, and one pass if there are none. -/
theorem length_closurePasses_le (g : Grammar) :
    g.closurePasses.length ≤ max 1 g.nonterminals.size := by
  have hquiet : (UnitClosure.spread g.unitPairs (g.closureAfter (g.nonterminals.size - 1))).2 =
      false := by
    rw [spread_unitPairs (g.over_closureAfter _), pass_closureAfter]
    simp
  have hle := g.loopEnds_spread.le_of_quiet hquiet
  omega

/-- **The unit closure is the reflexive and transitive closure of the unit rules, and it is found in
as many passes as there are nonterminals**, whatever the grammar.  Its keys are the nonterminals;
after each pass everything is known that so many unit rules lead to; and the loop ends. -/
theorem unitClosure_exact (g : Grammar) :
    g.unitClosure.map Prod.fst = g.nonterminals.toList ∧
      (∀ A ∈ g.nonterminals, ∀ B,
        B ∈ g.unitClosure.targets A ↔ ∃ d, UnitChain g.rules d A B) ∧
      (∀ n, ∀ A ∈ g.nonterminals, ∀ d ≤ n, ∀ B,
        UnitChain g.rules d A B → B ∈ (g.closureAfter n).targets A) ∧
      (∀ n u, LoopEnds (UnitClosure.spread g.unitPairs) g.selfClosure n u ↔
        n = g.closurePasses.length ∧ u = g.unitClosure) ∧
      g.closurePasses.length ≤ max 1 g.nonterminals.size := by
  refine ⟨keys_unitClosure, fun A hA B => ?_,
    fun n A hA d hd B h => mem_targets_closureAfter h hA hd,
    fun n u => g.loopEnds_spread.iff, g.length_closurePasses_le⟩
  rw [mem_targets_unitClosure, unitReaches_iff]
  exact and_iff_right hA

/-- A chain of unit rules, its first link first, that leads back into itself. -/
def winding : Grammar where
  rules := [⟨'S', [.nonterminal 'A']⟩, ⟨'A', [.nonterminal 'B']⟩, ⟨'B', [.nonterminal 'C']⟩,
    ⟨'C', [.nonterminal 'A']⟩, ⟨'C', [.terminal 'c']⟩]
  start := 'S'
  marker := '\\'

/-- The start symbol gets one step on in each pass, and after three passes it has come to the end of
the chain.  There is no room for another pass: the bound on the number of passes is reached. -/
theorem unitClosure_exact_winding :
    ('S' ∈ winding.nonterminals ∧ UnitChain winding.rules 3 'S' 'C') ∧
      'C' ∉ (winding.closureAfter 2).targets 'S' ∧ 'C' ∈ (winding.closureAfter 3).targets 'S' ∧
      winding.closurePasses.length = max 1 winding.nonterminals.size := by
  obtain ⟨-, -, hchains, -⟩ := unitClosure_exact winding
  have hS : 'S' ∈ winding.nonterminals := by decide
  have hchain : UnitChain winding.rules 3 'S' 'C' :=
    .cons (B := 'A') (by decide) (.cons (B := 'B') (by decide)
      (.cons (B := 'C') (by decide) (.nil 'C')))
  exact ⟨⟨hS, hchain⟩, by decide, hchains 3 'S' hS 3 (Nat.le_refl 3) 'C' hchain, by decide⟩

end Grammar

end Chomsky
