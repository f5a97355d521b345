import Chomsky.UnitElimination
import Chomsky.Proofs.Language
import Chomsky.Proofs.Saturation

/-!
# Unit elimination keeps the language

* `UnitStep`, `UnitReaches` — a unit rule leads from one nonterminal to another; some number of
  unit rules does.

Principal results: `Grammar.mem_targets_unitClosure` — the unit closure is the reflexive and
transitive closure of the unit rules; `Grammar.mem_eliminateUnits` — unit elimination gives a head
exactly the other rules of all that it reaches; `Grammar.generates_eliminateUnits` — every
nonterminal generates what it did before, and `Grammar.generates_nullFree_eliminateUnits` — also
when only the rules without the null symbol are used; `Grammar.eliminateUnits_eq_self` — which
grammars stay as they are; `Grammar.derives_eliminateUnits` — the stage as a whole.
-/

namespace Chomsky

/-- A unit rule leads from one nonterminal to another. -/
def UnitStep (rules : List Rule) (A B : Char) : Prop := ⟨A, [.nonterminal B]⟩ ∈ rules

/-- Some number of unit rules, possibly none, leads from one nonterminal to another. -/
abbrev UnitReaches (rules : List Rule) : Char → Char → Prop :=
  Relation.ReflTransGen (UnitStep rules)

theorem Rule.isUnit_iff {r : Rule} : r.isUnit = true ↔ ∃ B, r.body = [.nonterminal B] := by
  simp only [Rule.isUnit, Option.isSome_iff_exists, Rule.unitTarget?_eq_some]

namespace UnitClosure

variable {u v : UnitClosure} {pairs : List (Char × Char)} {A B c x : Char} {s : CharSet}

/-! ## What a closure gives a nonterminal -/

@[simp] theorem targets_nil : targets [] x = ∅ := rfl

theorem targets_cons {k : Char} :
    targets ((k, s) :: u) x = if x = k then s else targets u x := by
  unfold targets
  rw [List.lookup_cons]
  by_cases h : x = k
  · simp [h]
  · simp [h, beq_false_of_ne h]

theorem keys_extend : (u.extend A s).map Prod.fst = u.map Prod.fst := by
  unfold extend
  rw [List.map_map]
  refine List.map_congr_left fun e _ => ?_
  show (if e.1 = A then (e.1, e.2.union s) else e).1 = e.1
  split <;> rfl

theorem mem_targets_extend :
    c ∈ (u.extend A s).targets x ↔
      c ∈ u.targets x ∨ x = A ∧ x ∈ u.map Prod.fst ∧ c ∈ s := by
  induction u with
  | nil => simp [extend]
  | cons e u ih =>
    obtain ⟨k, t⟩ := e
    have hcons : extend ((k, t) :: u) A s =
        (k, if k = A then t.union s else t) :: extend u A s := by
      unfold extend
      rw [List.map_cons]
      split <;> rfl
    rw [hcons, targets_cons, targets_cons]
    by_cases hx : x = k
    · subst hx
      by_cases hA : x = A
      · simp [hA, or_comm]
      · simp [hA]
    · simp [hx, ih]

/-- A closure whose keys differ is determined by its keys and its targets. -/
theorem eq_map_targets (h : (u.map Prod.fst).Nodup) :
    u = (u.map Prod.fst).map fun k => (k, u.targets k) := by
  induction u with
  | nil => rfl
  | cons e u ih =>
    obtain ⟨k, t⟩ := e
    obtain ⟨hk, hu⟩ := List.nodup_cons.1 h
    rw [List.map_cons, List.map_cons, targets_cons, if_pos rfl]
    refine congrArg ((k, t) :: ·) ((ih hu).trans (List.map_congr_left fun y hy => ?_))
    rw [targets_cons, if_neg]
    rintro rfl
    exact hk hy

/-! ## One pass -/

theorem pass_cons {p : Char × Char} :
    pass (p :: pairs) u = pass pairs (u.extend p.1 (u.targets p.2)) := rfl

theorem keys_pass : (pass pairs u).map Prod.fst = u.map Prod.fst := by
  induction pairs generalizing u with
  | nil => rfl
  | cons p pairs ih => rw [pass_cons, ih, keys_extend]

/-- A pass only adds. -/
theorem mem_targets_pass (h : c ∈ u.targets x) : c ∈ (pass pairs u).targets x := by
  induction pairs generalizing u with
  | nil => exact h
  | cons p pairs ih => exact ih (mem_targets_extend.2 (.inl h))

/-- A pass gives the head of a unit rule what its body has. -/
theorem mem_targets_pass_of_pair (hp : (A, B) ∈ pairs) (hA : A ∈ u.map Prod.fst)
    (h : c ∈ u.targets B) : c ∈ (pass pairs u).targets A := by
  induction pairs generalizing u with
  | nil => exact absurd hp List.not_mem_nil
  | cons p pairs ih =>
    rw [pass_cons]
    rcases List.mem_cons.1 hp with rfl | hp
    · exact mem_targets_pass (mem_targets_extend.2 (.inr ⟨rfl, hA, h⟩))
    · exact ih hp (by rwa [keys_extend]) (mem_targets_extend.2 (.inl h))

/-- A relation that passes from the body of a unit rule to its head is kept by a pass. -/
theorem pass_induction {P : Char → Char → Prop} (h : ∀ A B c, (A, B) ∈ pairs → P B c → P A c)
    (hu : ∀ x c, c ∈ u.targets x → P x c) : ∀ x c, c ∈ (pass pairs u).targets x → P x c := by
  induction pairs generalizing u with
  | nil => exact hu
  | cons p pairs ih =>
    refine ih (fun A B c hp => h A B c (List.mem_cons_of_mem _ hp)) fun x c hc => ?_
    rcases mem_targets_extend.1 hc with hc | ⟨rfl, -, hc⟩
    · exact hu x c hc
    · exact h p.1 p.2 c (List.mem_cons_self ..) (hu p.2 c hc)

/-- The number of pairs that a closure has for the given nonterminals. -/
def pairCount (keys : List Char) (u : UnitClosure) : Nat :=
  (keys.map fun k => (u.targets k).size).sum

theorem pairCount_le {keys all : List Char} (h : ∀ x c, c ∈ u.targets x → c ∈ all) :
    pairCount keys u ≤ keys.length * all.length := by
  have hle := List.sum_le_card_nsmul (keys.map fun k => (u.targets k).size) all.length ?_
  · simpa [pairCount] using hle
  · intro n hn
    obtain ⟨k, -, rfl⟩ := List.mem_map.1 hn
    exact CharSet.size_le (h k)

/-- A pass that changes something adds a pair. -/
theorem pairCount_lt_pass (hu : (u.map Prod.fst).Nodup) (hne : pass pairs u ≠ u) :
    pairCount (u.map Prod.fst) u < pairCount (u.map Prod.fst) (pass pairs u) := by
  have hadd : ∀ k, ∀ c ∈ u.targets k, c ∈ (pass pairs u).targets k := by
    intro k c hc
    exact mem_targets_pass hc
  refine List.sum_lt_sum _ _ (fun k _ => CharSet.size_le (hadd k)) ?_
  by_contra hnone
  have hsame : ∀ k ∈ u.map Prod.fst, (k, (pass pairs u).targets k) = (k, u.targets k) := by
    intro k hk
    by_contra hk'
    have hne' : (pass pairs u).targets k ≠ u.targets k := fun heq => hk' (by rw [heq])
    exact hnone ⟨k, hk, CharSet.size_lt (hadd k) hne'⟩
  refine hne ?_
  calc pass pairs u
    _ = (u.map Prod.fst).map fun k => (k, (pass pairs u).targets k) := by
      have hkeys := eq_map_targets (u := pass pairs u) (by rwa [keys_pass])
      rwa [keys_pass] at hkeys
    _ = (u.map Prod.fst).map fun k => (k, u.targets k) := List.map_congr_left hsame
    _ = u := (eq_map_targets hu).symm

/-- A closure over a list of nonterminals has them as its keys, and no others as targets. -/
structure Over (names : List Char) (u : UnitClosure) : Prop where
  keys : u.map Prod.fst = names
  targets_mem : ∀ x c, c ∈ u.targets x → c ∈ names

theorem Over.eq_map {names : List Char} (h : u.Over names) (hnames : names.Nodup) :
    u = names.map fun k => (k, u.targets k) := by
  have hu := eq_map_targets (u := u) (h.keys ▸ hnames)
  rwa [h.keys] at hu

theorem Over.pass {names : List Char} (h : u.Over names) : (pass pairs u).Over names :=
  ⟨keys_pass.trans h.keys, pass_induction (fun _ _ _ _ hc => hc) h.targets_mem⟩

end UnitClosure

namespace Grammar

variable {g : Grammar} {A B X c : Char} {w : List Char}

/-! ## The unit closure -/

theorem mem_unitPairs : (A, B) ∈ g.unitPairs ↔ UnitStep g.rules A B := by
  simp only [unitPairs, List.mem_filterMap, Option.map_eq_some_iff, Rule.unitTarget?_eq_some]
  constructor
  · rintro ⟨⟨head, body⟩, hr, target, hbody, heq⟩
    cases heq
    cases hbody
    exact hr
  · intro h
    exact ⟨_, h, B, rfl, rfl⟩

theorem mem_targets_selfClosure : c ∈ g.selfClosure.targets A ↔ A ∈ g.nonterminals ∧ c = A := by
  rw [← CharSet.mem_toList (s := g.nonterminals)]
  unfold selfClosure
  induction g.nonterminals.toList with
  | nil => simp
  | cons k ks ih =>
    rw [List.map_cons, UnitClosure.targets_cons]
    by_cases h : A = k
    · simp [h]
    · simp [h, ih]

theorem keys_selfClosure : g.selfClosure.map Prod.fst = g.nonterminals.toList := by
  simp [selfClosure, Function.comp_def]

theorem mem_nonterminals_of_unitStep (h : UnitStep g.rules A B) :
    A ∈ g.nonterminals ∧ B ∈ g.nonterminals :=
  ⟨mem_nonterminals.2 ⟨_, h, .inl rfl⟩, mem_nonterminals.2 ⟨_, h, .inr (List.mem_singleton.2 rfl)⟩⟩

theorem over_selfClosure (g : Grammar) : g.selfClosure.Over g.nonterminals.toList := by
  refine ⟨keys_selfClosure, fun x c hc => ?_⟩
  obtain ⟨hx, rfl⟩ := mem_targets_selfClosure.1 hc
  exact hx

theorem over_unitClosure (g : Grammar) : g.unitClosure.Over g.nonterminals.toList :=
  saturate_induction (fun _ hu => hu.pass) _ g.over_selfClosure

theorem keys_unitClosure : g.unitClosure.map Prod.fst = g.nonterminals.toList :=
  g.over_unitClosure.keys

theorem pass_unitClosure (g : Grammar) :
    UnitClosure.pass g.unitPairs g.unitClosure = g.unitClosure := by
  have hlimit : g.nonterminals.toList.length * g.nonterminals.toList.length <
      g.closureLimit + UnitClosure.pairCount g.nonterminals.toList g.selfClosure :=
    Nat.lt_of_lt_of_le (Nat.lt_succ_self _) (Nat.le_add_right ..)
  refine saturate_fixed (fun _ hu => UnitClosure.Over.pass hu)
    (fun _ hu => UnitClosure.pairCount_le hu.targets_mem) ?_ g.over_selfClosure hlimit
  intro u hu hne
  rw [← hu.keys]
  exact UnitClosure.pairCount_lt_pass (hu.keys ▸ g.nonterminals.nodup_toList) hne

/-- A closure holds nothing but what unit rules lead to. -/
def OnlyReached (g : Grammar) (u : UnitClosure) : Prop :=
  ∀ x c, c ∈ u.targets x → x ∈ g.nonterminals ∧ UnitReaches g.rules x c

theorem onlyReached_selfClosure (g : Grammar) : g.OnlyReached g.selfClosure := by
  intro x c hc
  obtain ⟨hx, rfl⟩ := mem_targets_selfClosure.1 hc
  exact ⟨hx, .refl⟩

theorem OnlyReached.pass {u : UnitClosure} (hu : g.OnlyReached u) :
    g.OnlyReached (UnitClosure.pass g.unitPairs u) := by
  refine UnitClosure.pass_induction ?_ hu
  rintro A B c hp ⟨-, hB⟩
  have hstep := mem_unitPairs.1 hp
  exact ⟨(mem_nonterminals_of_unitStep hstep).1, hB.head hstep⟩

/-- **The unit closure is the reflexive and transitive closure of the unit rules.** -/
theorem mem_targets_unitClosure :
    c ∈ g.unitClosure.targets A ↔ A ∈ g.nonterminals ∧ UnitReaches g.rules A c := by
  constructor
  · exact saturate_induction (P := g.OnlyReached) (fun _ => OnlyReached.pass) _
      g.onlyReached_selfClosure A c
  · rintro ⟨hA, hreach⟩
    induction hreach using Relation.ReflTransGen.head_induction_on with
    | refl =>
      exact saturate_induction (P := fun u : UnitClosure => c ∈ u.targets c)
        (fun _ => UnitClosure.mem_targets_pass) _ (mem_targets_selfClosure.2 ⟨hA, rfl⟩)
    | head hstep _ ih =>
      have hB := (mem_nonterminals_of_unitStep hstep).2
      rw [← pass_unitClosure]
      refine UnitClosure.mem_targets_pass_of_pair (mem_unitPairs.2 hstep) ?_ (ih hB)
      rw [keys_unitClosure]
      exact hA

/-! ## The rules that are inherited -/

theorem mem_inheritedRules {u : UnitClosure} {q r : Rule} (hq : q.isUnit = true) :
    r ∈ g.inheritedRules u q ↔
      r.head = q.head ∧ r.isUnit = false ∧ ∃ B ∈ u.targets q.head, ⟨B, r.body⟩ ∈ g.rules := by
  rw [inheritedRules, if_pos hq, List.mem_flatMap]
  simp only [mem_map_rulesFor, CharSet.mem_toList]
  constructor
  · rintro ⟨B, hB, hhead, hunit, hr⟩
    exact ⟨hhead, hunit, B, hB, hr⟩
  · rintro ⟨hhead, hunit, B, hB, hr⟩
    exact ⟨B, hB, hhead, hunit, hr⟩

/-- **Unit elimination gives a head the other rules of all that it reaches**, and no more. -/
theorem mem_eliminateUnits {r : Rule} :
    r ∈ g.eliminateUnits.rules ↔
      r.isUnit = false ∧ ∃ B, UnitReaches g.rules r.head B ∧ ⟨B, r.body⟩ ∈ g.rules := by
  rw [eliminateUnits, mem_withRules, List.mem_flatMap]
  constructor
  · rintro ⟨q, hq, hr⟩
    by_cases hunit : q.isUnit = true
    · obtain ⟨hhead, hunit, B, hB, hr⟩ := (mem_inheritedRules hunit).1 hr
      exact ⟨hunit, B, hhead ▸ (mem_targets_unitClosure.1 hB).2, hr⟩
    · rw [inheritedRules, if_neg hunit] at hr
      rw [List.mem_singleton.1 hr]
      exact ⟨by simpa using hunit, q.head, .refl, hq⟩
  · rintro ⟨hunit, B, hreach, hr⟩
    rcases hreach.cases_head with rfl | ⟨C, hstep, -⟩
    · refine ⟨r, hr, ?_⟩
      rw [inheritedRules, hunit, if_neg Bool.false_ne_true]
      exact List.mem_singleton.2 rfl
    · have hB : B ∈ g.unitClosure.targets r.head :=
        mem_targets_unitClosure.2 ⟨(mem_nonterminals_of_unitStep hstep).1, hreach⟩
      have hunit' : Rule.isUnit ⟨r.head, [.nonterminal C]⟩ = true := Rule.isUnit_iff.2 ⟨C, rfl⟩
      exact ⟨_, hstep, (mem_inheritedRules hunit').2 ⟨rfl, hunit, B, hB, hr⟩⟩

end Grammar

/-! ## Languages -/

section Languages

variable {rules more : List Rule} {A B X : Char} {w : List Char}

theorem Generates.of_unitReaches (h : UnitReaches rules A B) (hB : Generates rules B w) :
    Generates rules A w := by
  induction h using Relation.ReflTransGen.head_induction_on with
  | refl => exact hB
  | head hstep _ ih =>
    exact Generates.rule (r := ⟨_, [.nonterminal _]⟩) hstep (reads_nonterminal.2 ih)

/-- **Rules that are inherited along unit rules generate the same without the unit rules.** -/
theorem generates_of_inherited
    (h : ∀ r, r ∈ more ↔ r.isUnit = false ∧ ∃ B, UnitReaches rules r.head B ∧ ⟨B, r.body⟩ ∈ rules) :
    Generates more X w ↔ Generates rules X w := by
  constructor
  · refine Generates.least fun r hr u hu => ?_
    obtain ⟨-, B, hreach, hB⟩ := (h r).1 hr
    exact .of_unitReaches hreach (.rule (r := ⟨B, r.body⟩) hB hu)
  · intro hX
    -- all that reaches the nonterminal generates the string as well
    refine hX.least (S := fun Y v => ∀ A, UnitReaches rules A Y → Generates more A v) ?_ X .refl
    intro r hr u hu A hA
    by_cases hunit : r.isUnit = true
    · obtain ⟨B, hB⟩ := Rule.isUnit_iff.1 hunit
      rw [hB, reads_nonterminal] at hu
      have hstep : UnitStep rules r.head B := by
        rw [UnitStep, ← hB]
        exact hr
      exact hu A (hA.tail hstep)
    · have hunit : Rule.isUnit ⟨A, r.body⟩ = false :=
        (Rule.isUnit_congr (q := r) rfl).trans (by simpa using hunit)
      have hmem : ⟨A, r.body⟩ ∈ more := (h ⟨A, r.body⟩).2 ⟨hunit, r.head, hA, hr⟩
      exact .rule (r := ⟨A, r.body⟩) hmem (hu.mono fun Y v hv => hv Y .refl)

/-- Unit rules do not use the null symbol. -/
theorem unitReaches_nullFree : UnitReaches (nullFree rules) = UnitReaches rules := by
  have hstep : UnitStep (nullFree rules) = UnitStep rules := by
    funext A B
    simp [UnitStep]
  rw [UnitReaches, hstep]

end Languages

namespace Grammar

variable {g : Grammar} {X : Char} {w : List Char}

/-- Unit elimination keeps the language of every nonterminal. -/
theorem generates_eliminateUnits :
    Generates g.eliminateUnits.rules X w ↔ Generates g.rules X w :=
  generates_of_inherited fun _ => mem_eliminateUnits

/-- Unit elimination also keeps what is generated without the null symbol. -/
theorem generates_nullFree_eliminateUnits :
    Generates (nullFree g.eliminateUnits.rules) X w ↔ Generates (nullFree g.rules) X w := by
  refine generates_of_inherited fun r => ?_
  simp only [mem_nullFree, mem_eliminateUnits, unitReaches_nullFree]
  constructor
  · rintro ⟨⟨hunit, B, hreach, hB⟩, hnull⟩
    exact ⟨hunit, B, hreach, hB, hnull⟩
  · rintro ⟨hunit, B, hreach, hB, hnull⟩
    exact ⟨⟨hunit, B, hreach, hB⟩, hnull⟩

/-- **A grammar without unit rules and duplicates stays as it is.** -/
theorem eliminateUnits_eq_self (hnodup : g.rules.Nodup)
    (hunit : ∀ r ∈ g.rules, r.isUnit = false) : g.eliminateUnits = g := by
  refine withRules_flatMap_eq_self hnodup fun r hr => ?_
  rw [inheritedRules, hunit r hr, if_neg Bool.false_ne_true]

/-- A second elimination changes nothing. -/
theorem eliminateUnits_eliminateUnits (g : Grammar) :
    g.eliminateUnits.eliminateUnits = g.eliminateUnits :=
  eliminateUnits_eq_self (nodup_withRules ..) fun _ => not_isUnit_of_mem_eliminateUnits

/-- **Unit elimination keeps the language of every nonterminal and leaves no unit rule**, whatever
the grammar. -/
theorem derives_eliminateUnits (g : Grammar) :
    (∀ X w, Derives g.eliminateUnits X w ↔ Derives g X w) ∧
      ∀ r ∈ g.eliminateUnits.rules, r.isUnit = false := by
  refine ⟨fun X w => ?_, fun r hr => not_isUnit_of_mem_eliminateUnits hr⟩
  rw [derives_eq_generates, derives_eq_generates]
  exact generates_eliminateUnits

end Grammar

end Chomsky
