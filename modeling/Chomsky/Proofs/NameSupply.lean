import Chomsky.NameSupply
import Chomsky.Proofs.Saturation

/-!
# How a supply of names is used up

A supply is seen from outside as the list of its free letters and the table of its stand-ins.

* `NameSupply.free` — the letters that can still be granted, in order.
* `NameSupply.letters` — the terminals that have a stand-in.
* `NameSupply.pool` — the stand-ins and the free letters.
* `NameSupply.nameOf` — the nonterminal that stands for a symbol.
* `linkGrants`, `standInGrants` — the letters of a list of grants that are for links, and those that
  are for terminals.
* `Demand` — what a run asks of the supply: a name, or something that no name can serve.
* `NameSupply.Serves`, `NameSupply.Fails` — a run over a list of demands that serves all of them, or
  stops at one.
* `NameSupply.Extends` — what a run does to the table of stand-ins and to the pool.

Principal results: `fresh_ok`, `fresh_error`, `standIn_ok`, `standIn_error` — what the two
operations do; `Serves.trans`, `Fails.after`, `Extends.trans` — runs are put together;
`Fails.exhausted` — a run that asks for names only can fail only because there are too many
demands.
-/

namespace Chomsky

theorem nodup_alphabet : alphabet.Nodup := by decide

/-- In a table without repeated keys each entry is found, and nothing else. -/
theorem lookup_eq_some_iff_mem {α β : Type} [BEq α] [LawfulBEq α] {es : List (α × β)} {a : α}
    {b : β} (hes : (es.map Prod.fst).Nodup) : es.lookup a = some b ↔ (a, b) ∈ es := by
  induction es with
  | nil => simp
  | cons e es ih =>
    obtain ⟨k, v⟩ := e
    obtain ⟨hk, htail⟩ := List.nodup_cons.1 hes
    rw [List.lookup_cons, List.mem_cons, ← ih htail]
    by_cases heq : a = k
    · subst heq
      have hnone : es.lookup a ≠ some b := fun hsome =>
        hk (List.mem_map.2 ⟨(a, b), (ih htail).1 hsome, rfl⟩)
      simp [hnone, eq_comm]
    · simp [heq, beq_false_of_ne heq]

namespace NameSupply

/-! ## Free letters -/

/-- The letters that can still be granted, in the order in which they are. -/
def free (s : NameSupply) : List Char := alphabet.filter (· ∉ s.taken)

theorem mem_free {s : NameSupply} {c : Char} : c ∈ s.free ↔ c ∈ alphabet ∧ c ∉ s.taken := by
  simp [free]

/-- At the start the free letters are those that a grammar does not use. -/
theorem mem_free_ofGrammar {g : Grammar} {c : Char} :
    c ∈ (ofGrammar g).free ↔ c ∈ alphabet ∧ c ≠ g.start ∧ c ∉ g.nonterminals := by
  rw [mem_free, ofGrammar, CharSet.mem_insert, not_or]

theorem nodup_free (s : NameSupply) : s.free.Nodup := nodup_alphabet.filter _

/-- The name that is granted is the first free letter, and the others stay free. -/
theorem free_of_find? {s : NameSupply} {name : Char}
    (h : alphabet.find? (· ∉ s.taken) = some name) :
    s.free = name :: alphabet.filter (· ∉ s.taken.insert name) := by
  obtain ⟨rest, hfree⟩ : ∃ rest, s.free = name :: rest := by
    have hhead : s.free.head? = some name := by rw [free, List.head?_filter, h]
    exact List.head?_eq_some_iff.1 hhead
  have hnodup := s.nodup_free
  rw [hfree] at hnodup
  have hrest : rest = (name :: rest).filter (· ≠ name) := by
    rw [List.filter_cons_of_neg (by simp)]
    refine (List.filter_eq_self.2 fun c hc => ?_).symm
    simpa using fun hcn : c = name => (List.nodup_cons.1 hnodup).1 (hcn ▸ hc)
  rw [hfree, hrest, ← hfree, free, List.filter_filter]
  refine congrArg (name :: ·) (List.filter_congr fun c _ => ?_)
  simp [not_or]

theorem fresh_ok {s t : NameSupply} {purpose : Purpose} {name : Char}
    (h : s.fresh purpose = .ok (name, t)) :
    s.free = name :: t.free ∧ t.standIns = s.standIns ∧
      t.granted = s.granted ++ [(name, purpose)] := by
  unfold fresh at h
  split at h
  · cases h
  · rename_i n hn
    cases h
    exact ⟨free_of_find? hn, rfl, rfl⟩

theorem fresh_error {s : NameSupply} {purpose : Purpose} {e : GrammarError}
    (h : s.fresh purpose = .error e) : s.free = [] ∧ e = .exhausted purpose := by
  obtain ⟨he, hall⟩ := fresh_eq_error.1 h
  refine ⟨List.eq_nil_iff_forall_not_mem.2 fun c hc => ?_, he⟩
  obtain ⟨hc, hfree⟩ := mem_free.1 hc
  exact hfree (hall c hc)

/-! ## The table of stand-ins -/

section StandIns

variable {es : List (Char × Char)} {letter name a : Char}

theorem map_fst_insertStandIn_perm :
    (insertStandIn letter name es).Perm ((letter, name) :: es) := by
  induction es with
  | nil => exact .refl _
  | cons e es ih =>
    unfold insertStandIn
    split
    · exact .refl _
    · exact (ih.cons e).trans (.swap ..)

theorem lookup_insertStandIn (h : letter ∉ es.map Prod.fst) :
    (insertStandIn letter name es).lookup a = if a = letter then some name else es.lookup a := by
  induction es with
  | nil =>
    unfold insertStandIn
    rw [List.lookup_cons]
    by_cases ha : a = letter <;> simp [ha, beq_false_of_ne]
  | cons e es ih =>
    obtain ⟨l, n⟩ := e
    rw [List.map_cons, List.mem_cons, not_or] at h
    unfold insertStandIn
    split
    · rw [List.lookup_cons]
      by_cases ha : a = letter <;> simp [ha, beq_false_of_ne]
    · rw [List.lookup_cons, List.lookup_cons, ih h.2]
      by_cases hl : a = l
      · subst hl
        simp [Ne.symm h.1]
      · simp [beq_false_of_ne hl]

theorem pairwise_insertStandIn (h : letter ∉ es.map Prod.fst)
    (hes : (es.map Prod.fst).Pairwise (· < ·)) :
    ((insertStandIn letter name es).map Prod.fst).Pairwise (· < ·) := by
  induction es with
  | nil => simp [insertStandIn]
  | cons e es ih =>
    obtain ⟨l, n⟩ := e
    rw [List.map_cons, List.mem_cons, not_or] at h
    obtain ⟨hl, hes'⟩ := List.pairwise_cons.1 hes
    unfold insertStandIn
    split
    · rename_i hlt
      refine List.pairwise_cons.2 ⟨fun x hx => ?_, hes⟩
      rcases List.mem_cons.1 hx with rfl | hx
      · exact hlt
      · exact Char.lt_trans hlt (hl x hx)
    · rename_i hge
      refine List.pairwise_cons.2 ⟨fun x hx => ?_, ih h.2 hes'⟩
      have hx := ((map_fst_insertStandIn_perm.map Prod.fst).mem_iff).1 hx
      rcases List.mem_cons.1 hx with rfl | hx
      · exact Char.not_le.1 fun hle => h.1 (Char.le_antisymm hle (Char.not_lt.1 hge))
      · exact hl x hx

end StandIns

/-- The terminals that have a stand-in. -/
def letters (s : NameSupply) : CharSet := .ofList (s.standIns.map Prod.fst)

theorem mem_letters {s : NameSupply} {a : Char} :
    a ∈ s.letters ↔ ∃ name, s.standIns.lookup a = some name := by
  rw [letters, CharSet.mem_ofList, ← Option.isSome_iff_exists, List.lookup_isSome_iff, List.mem_map]
  simp only [beq_iff_eq]
  exact exists_congr fun p => and_congr_right fun _ => eq_comm

theorem not_mem_letters {s : NameSupply} {a : Char} :
    a ∉ s.letters ↔ s.standIns.lookup a = none := by
  rw [mem_letters, ← Option.isSome_iff_exists, Bool.not_eq_true, Option.isSome_eq_false_iff,
    Option.isNone_iff_eq_none]

theorem not_mem_keys {s : NameSupply} {a : Char} (h : s.standIns.lookup a = none) :
    a ∉ s.standIns.map Prod.fst := by
  have hletters : a ∉ s.letters := not_mem_letters.2 h
  rwa [letters, CharSet.mem_ofList] at hletters

/-- The stand-ins and the free letters. -/
def pool (s : NameSupply) : List Char := s.standIns.map Prod.snd ++ s.free

/-- The nonterminal that stands for a symbol, when there is one. -/
def nameOf (s : NameSupply) : Symbol → Char
  | .nonterminal name => name
  | .terminal letter => (s.standIns.lookup letter).getD default
  | .null => default

end NameSupply

/-! ## Letters by their purpose -/

/-- The letters of a list of grants that are for links, with the heads of their rules. -/
def linkGrants (granted : List (Char × Purpose)) : List (Char × Char) :=
  granted.filterMap fun
    | (name, .link head) => some (name, head)
    | _ => none

/-- The letters of a list of grants that are for terminals, each behind its terminal. -/
def standInGrants (granted : List (Char × Purpose)) : List (Char × Char) :=
  granted.filterMap fun
    | (name, .terminal letter) => some (letter, name)
    | _ => none

section Grants

variable {granted more : List (Char × Purpose)} {name letter : Char}

theorem linkGrants_append : linkGrants (granted ++ more) = linkGrants granted ++ linkGrants more :=
  List.filterMap_append

theorem standInGrants_append :
    standInGrants (granted ++ more) = standInGrants granted ++ standInGrants more :=
  List.filterMap_append

theorem mem_standInGrants :
    (letter, name) ∈ standInGrants granted ↔ (name, .terminal letter) ∈ granted := by
  rw [standInGrants, List.mem_filterMap]
  constructor
  · rintro ⟨⟨other, purpose⟩, hmem, hletter⟩
    cases purpose with
    | terminal a =>
      cases hletter
      exact hmem
    | link head => cases hletter
    | named text => cases hletter
  · exact fun hmem => ⟨_, hmem, rfl⟩

end Grants

/-! ## Demands -/

/-- What a run asks of a supply of names. -/
inductive Demand where
  /-- A new name. -/
  | name (purpose : Purpose)
  /-- Something that no name can serve. -/
  | fault (reason : Malformation)
  deriving DecidableEq, Repr

namespace NameSupply

/-- A run that grants a name for each of its demands, in order. -/
def Serves (s : NameSupply) (demands : List Demand) (t : NameSupply) : Prop :=
  ∃ grants : List (Char × Purpose), demands = grants.map (fun p => .name p.2) ∧
    s.free = grants.map Prod.fst ++ t.free ∧ t.granted = s.granted ++ grants

/-- A demand that cannot be served, with the error that it gives. -/
def Refuses (s : NameSupply) : Demand → GrammarError → Prop
  | .name purpose, e => s.free = [] ∧ e = .exhausted purpose
  | .fault reason, e => e = .malformedRule 0 reason

/-- A run that serves its demands up to one that it refuses. -/
def Fails (s : NameSupply) (demands : List Demand) (e : GrammarError) (t : NameSupply) : Prop :=
  ∃ before d after, demands = before ++ d :: after ∧ s.Serves before t ∧ t.Refuses d e

section Runs

variable {s t u : NameSupply} {ds es : List Demand} {e : GrammarError}

theorem Serves.refl (s : NameSupply) : s.Serves [] s :=
  ⟨[], rfl, rfl, (List.append_nil _).symm⟩

theorem Serves.trans (h : s.Serves ds t) (h' : t.Serves es u) : s.Serves (ds ++ es) u := by
  obtain ⟨grants, rfl, hfree, hgranted⟩ := h
  obtain ⟨more, rfl, hfree', hgranted'⟩ := h'
  refine ⟨grants ++ more, ?_, ?_, ?_⟩
  · rw [List.map_append]
  · rw [hfree, hfree', List.map_append, List.append_assoc]
  · rw [hgranted', hgranted, List.append_assoc]

theorem Fails.of_refuses {d : Demand} (h : s.Refuses d e) : s.Fails (d :: ds) e s :=
  ⟨[], d, ds, rfl, .refl s, h⟩

/-- A run that stops does so whatever else would have been asked. -/
theorem Fails.append (h : s.Fails ds e t) (es : List Demand) : s.Fails (ds ++ es) e t := by
  obtain ⟨before, d, after, rfl, hserves, hrefuses⟩ := h
  exact ⟨before, d, after ++ es, by rw [List.append_assoc]; rfl, hserves, hrefuses⟩

theorem Fails.after (h : t.Fails es e u) (hs : s.Serves ds t) : s.Fails (ds ++ es) e u := by
  obtain ⟨before, d, after, rfl, hserves, hrefuses⟩ := h
  exact ⟨ds ++ before, d, after, (List.append_assoc ..).symm, hs.trans hserves, hrefuses⟩

theorem Serves.length_le (h : s.Serves ds t) : ds.length ≤ s.free.length := by
  obtain ⟨grants, rfl, hfree, -⟩ := h
  rw [hfree, List.length_map, List.length_append, List.length_map]
  omega

/-- A run of demands for names fails only when there are more demands than free letters. -/
theorem Fails.exhausted (h : s.Fails ds e t) (hnames : ∀ reason, Demand.fault reason ∉ ds) :
    s.free.length < ds.length ∧ ∃ purpose, e = .exhausted purpose := by
  obtain ⟨before, d, after, rfl, ⟨grants, rfl, hfree, -⟩, hrefuses⟩ := h
  cases d with
  | fault reason => exact absurd (by simp) (hnames reason)
  | name purpose =>
    obtain ⟨hnil, he⟩ := hrefuses
    refine ⟨?_, purpose, he⟩
    rw [hfree, hnil]
    simp

end Runs

/-- What a run does that names the given terminals and grants the given names for links of rules
with the given heads: stand-ins stay, each name of the pool becomes a link or stays in the pool, and
the table of stand-ins holds what was granted for terminals. -/
structure Extends (s : NameSupply) (as : List Char) (links : List (Char × Char)) (t : NameSupply) :
    Prop where
  lookup : ∀ a name, s.standIns.lookup a = some name → t.standIns.lookup a = some name
  letters : t.letters = s.letters.insertAll as
  pool : s.pool.Perm (links.map Prod.fst ++ t.pool)
  ascending : (s.standIns.map Prod.fst).Pairwise (· < ·) →
    (t.standIns.map Prod.fst).Pairwise (· < ·)
  linkGrants : linkGrants t.granted = linkGrants s.granted ++ links
  standIns : s.standIns.Perm (standInGrants s.granted) → t.standIns.Perm (standInGrants t.granted)

section Extends

variable {s t u : NameSupply} {as bs : List Char} {ls ms : List (Char × Char)}

theorem Extends.refl (s : NameSupply) : s.Extends [] [] s :=
  ⟨fun _ _ h => h, rfl, .refl _, fun h => h, (List.append_nil _).symm, fun h => h⟩

theorem Extends.trans (h : s.Extends as ls t) (h' : t.Extends bs ms u) :
    s.Extends (as ++ bs) (ls ++ ms) u where
  lookup a name hs := h'.lookup a name (h.lookup a name hs)
  letters := by
    rw [h'.letters, h.letters]
    exact (CharSet.insertAll_append ..).symm
  pool := by
    rw [List.map_append, List.append_assoc]
    exact h.pool.trans (h'.pool.append_left _)
  ascending hs := h'.ascending (h.ascending hs)
  linkGrants := by rw [h'.linkGrants, h.linkGrants, List.append_assoc]
  standIns hs := h'.standIns (h.standIns hs)

/-- A run keeps the names of the symbols that have one. -/
theorem Extends.nameOf {x : Symbol} (h : s.Extends as ls t)
    (hx : ∀ a, x = .terminal a → a ∈ s.letters) : t.nameOf x = s.nameOf x := by
  cases x with
  | nonterminal X => rfl
  | null => rfl
  | terminal a =>
    obtain ⟨name, hname⟩ := mem_letters.1 (hx a rfl)
    simp only [NameSupply.nameOf, hname, h.lookup a name hname]

end Extends

/-! ## The operations -/

section Operations

variable {s t : NameSupply} {purpose : Purpose} {name letter head : Char} {e : GrammarError}

theorem serves_of_fresh (h : s.fresh purpose = .ok (name, t)) : s.Serves [.name purpose] t := by
  obtain ⟨hfree, -, hgranted⟩ := fresh_ok h
  exact ⟨[(name, purpose)], rfl, hfree, hgranted⟩

/-- A fresh name that is not entered into the table is a link. -/
theorem extends_of_fresh (h : s.fresh (.link head) = .ok (name, t)) :
    s.Extends [] [(name, head)] t := by
  obtain ⟨hfree, htable, hgranted⟩ := fresh_ok h
  refine ⟨fun a n hn => by rwa [htable], ?_, ?_, fun hs => by rwa [htable], ?_, fun hs => ?_⟩
  · rw [letters, htable]
    rfl
  · rw [pool, pool, hfree, htable]
    exact List.perm_middle
  · rw [hgranted, linkGrants_append]
    rfl
  · rw [htable, hgranted, standInGrants_append]
    exact hs.trans (.of_eq (List.append_nil _).symm)

theorem fails_of_fresh (h : s.fresh purpose = .error e) : s.Fails [.name purpose] e s :=
  .of_refuses (fresh_error h)

/-- The demand for a stand-in: none when the terminal has one. -/
def letterDemands (known : CharSet) (letter : Char) : List Demand :=
  if letter ∈ known then [] else [.name (.terminal letter)]

/-- **A stand-in is the one that the terminal has, or a new one that it keeps.** -/
theorem standIn_ok (h : s.standIn letter = .ok (name, t)) :
    s.Serves (letterDemands s.letters letter) t ∧ s.Extends [letter] [] t ∧
      t.standIns.lookup letter = some name := by
  unfold standIn at h
  split at h
  · rename_i n hn
    cases h
    have hmem : letter ∈ s.letters := mem_letters.2 ⟨name, hn⟩
    rw [letterDemands, if_pos hmem]
    refine ⟨.refl s, { NameSupply.Extends.refl s with letters := ?_ }, hn⟩
    refine CharSet.ext fun c => ?_
    rw [CharSet.mem_insertAll, List.mem_singleton]
    exact ⟨.inr, fun hc => hc.elim (fun hc => hc ▸ hmem) id⟩
  · rename_i hnone
    split at h
    · cases h
    · rename_i n u hu
      cases h
      have hmem : letter ∉ s.letters := not_mem_letters.2 hnone
      obtain ⟨hfree, htable, hgranted⟩ := fresh_ok hu
      have hnew : letter ∉ u.standIns.map Prod.fst := by
        rw [htable]
        simpa [letters] using hmem
      have hlookup : ∀ a, (insertStandIn letter name u.standIns).lookup a =
          if a = letter then some name else s.standIns.lookup a := fun a => by
        rw [lookup_insertStandIn hnew, htable]
      rw [letterDemands, if_neg hmem]
      refine ⟨⟨[(name, .terminal letter)], rfl, hfree, hgranted⟩, ⟨?_, ?_, ?_, ?_, ?_, ?_⟩, ?_⟩
      · intro a n ha
        rw [hlookup, if_neg, ha]
        rintro rfl
        rw [hnone] at ha
        cases ha
      · refine CharSet.ext fun c => ?_
        rw [letters, CharSet.mem_ofList, (map_fst_insertStandIn_perm.map Prod.fst).mem_iff, htable,
          CharSet.mem_insertAll, letters, CharSet.mem_ofList]
        simp
      · refine .trans ?_ ((map_fst_insertStandIn_perm.map Prod.snd).symm.append_right u.free)
        rw [pool, hfree, htable]
        exact List.perm_middle
      · intro hs
        exact pairwise_insertStandIn hnew (by rwa [htable])
      · show linkGrants u.granted = _
        rw [hgranted, linkGrants_append]
        rfl
      · intro hs
        show (insertStandIn letter name u.standIns).Perm (standInGrants u.granted)
        rw [hgranted, standInGrants_append, htable]
        exact map_fst_insertStandIn_perm.trans
          ((hs.cons _).trans (List.perm_append_singleton ..).symm)
      · rw [hlookup, if_pos rfl]

theorem standIn_error (h : s.standIn letter = .error e) :
    s.Fails (letterDemands s.letters letter) e s := by
  unfold standIn at h
  split at h
  · cases h
  · rename_i hnone
    rw [letterDemands, if_neg (not_mem_letters.2 hnone)]
    split at h
    · rename_i hfresh
      cases h
      exact fails_of_fresh hfresh
    · cases h

end Operations

end NameSupply

end Chomsky
