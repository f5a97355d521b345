import Chomsky.Proofs.Binarization

/-!
# Renaming nonterminals

Two runs of binarization over the same rules differ in the names that they give out.  Here is what
it takes to turn the names of one run into those of another.

* `Symbol.rename`, `Rule.rename` — nonterminals under other names.
* `NameSupply.nameOf_rename`, `NameSupply.rules_rename` — a renamed table of stand-ins.

Principal results: `exists_perm_map_eq` — names without duplicates are turned into as many others
by a permutation that moves nothing else; `Rule.map_rename_encode` — what is written under other
names is what is written, renamed; `Plan.eq_of_links` — a plan is its rules and its links.
-/

namespace Chomsky

/-! ## Permutations -/

/-- **Characters without duplicates are turned into as many others by a permutation** that moves
nothing else. -/
theorem exists_perm_map_eq {as bs : List Char} (has : as.Nodup) (hbs : bs.Nodup)
    (hlength : as.length = bs.length) :
    ∃ σ : Equiv.Perm Char, as.map σ = bs ∧ ∀ c, c ∉ as → c ∉ bs → σ c = c := by
  induction as generalizing bs with
  | nil =>
    rw [List.eq_nil_of_length_eq_zero hlength.symm]
    exact ⟨.refl Char, rfl, fun _ _ _ => rfl⟩
  | cons a as ih =>
    cases bs with
    | nil => cases hlength
    | cons b bs =>
      obtain ⟨ha, has⟩ := List.nodup_cons.1 has
      obtain ⟨hb, hbs⟩ := List.nodup_cons.1 hbs
      obtain ⟨τ, hτ, hfix⟩ := ih has hbs (by simpa using hlength)
      refine ⟨τ.trans (Equiv.swap (τ a) b), ?_, fun c hc hc' => ?_⟩
      · rw [List.map_cons, Equiv.trans_apply, Equiv.swap_apply_left]
        -- the swap moves none of the characters that are in place already
        refine congrArg (b :: ·) (Eq.trans (List.map_congr_left fun x hx => ?_) hτ)
        rw [Equiv.trans_apply, Equiv.swap_apply_of_ne_of_ne]
        · intro heq
          exact ha (τ.injective heq ▸ hx)
        · rintro rfl
          exact hb (hτ ▸ List.mem_map_of_mem hx)
      · rw [List.mem_cons, not_or] at hc hc'
        rw [Equiv.trans_apply, hfix c hc.2 hc'.2, Equiv.swap_apply_of_ne_of_ne]
        · intro heq
          exact hc.1 (τ.injective ((hfix c hc.2 hc'.2).trans heq))
        · exact hc'.1

/-- A list can be put in any order that its images can be put in. -/
theorem exists_perm_of_map_perm {α β : Type} {f : α → β} {as : List α} {bs : List β}
    (h : (as.map f).Perm bs) : ∃ as', as.Perm as' ∧ as'.map f = bs := by
  have hmap : List.Forall₂ (fun b a => b = f a) (as.map f) as :=
    List.forall₂_map_left_iff.2 (List.forall₂_same.2 fun _ _ => rfl)
  obtain ⟨as', hforall, hperm⟩ := List.perm_comp_forall₂ h.symm hmap
  refine ⟨as', hperm.symm, ?_⟩
  have hbs : List.Forall₂ (· = ·) bs (as'.map f) := List.forall₂_map_right_iff.2 hforall
  rw [List.forall₂_eq_eq_eq] at hbs
  exact hbs.symm

/-! ## Renamed rules -/

/-- A symbol under other names of the nonterminals. -/
def Symbol.rename (σ : Equiv.Perm Char) : Symbol → Symbol
  | nonterminal X => nonterminal (σ X)
  | terminal a => terminal a
  | null => null

/-- A rule under other names of the nonterminals. -/
def Rule.rename (σ : Equiv.Perm Char) (r : Rule) : Rule := ⟨σ r.head, r.body.map (Symbol.rename σ)⟩

section Rename

variable {σ : Equiv.Perm Char}

theorem Symbol.rename_injective : Function.Injective (Symbol.rename σ) := by
  intro x y h
  cases x <;> cases y <;> simp_all [Symbol.rename]

theorem Rule.rename_injective : Function.Injective (Rule.rename σ) := by
  rintro ⟨A, as⟩ ⟨B, bs⟩ h
  obtain ⟨hhead, hbody⟩ := Rule.mk.inj h
  have hhead : A = B := σ.injective hhead
  have hbody : as = bs := List.map_injective_iff.2 Symbol.rename_injective hbody
  rw [hhead, hbody]

theorem Symbol.rename_eq_self {x : Symbol} (h : ∀ X, x = nonterminal X → σ X = X) :
    x.rename σ = x := by
  cases x with
  | nonterminal X => exact congrArg nonterminal (h X rfl)
  | terminal a => rfl
  | null => rfl

/-- A rule without renamed nonterminals stays as it is. -/
theorem Rule.rename_eq_self {r : Rule} (hhead : σ r.head = r.head)
    (hbody : ∀ X, .nonterminal X ∈ r.body → σ X = X) : r.rename σ = r := by
  have hmap : r.body.map (Symbol.rename σ) = r.body.map id :=
    List.map_congr_left fun x hx => Symbol.rename_eq_self fun X hX => hbody X (hX ▸ hx)
  rw [rename, hhead, hmap, List.map_id]

theorem headD_map {links : List Char} {first : Char} :
    (links.map σ).headD (σ first) = σ (links.headD first) := by
  cases links <;> rfl

theorem map_rename_linkRules {first : Char} {names links : List Char} :
    (linkRules first names links).map (Rule.rename σ) =
      linkRules (σ first) (names.map σ) (links.map σ) := by
  induction names generalizing first links with
  | nil => cases links <;> rfl
  | cons second names ih =>
    cases links with
    | nil => rfl
    | cons link links =>
      show (linkRules second names links ++ [pairRule link first (links.headD second)]).map
        (Rule.rename σ) = linkRules (σ second) (names.map σ) (links.map σ) ++
          [pairRule (σ link) (σ first) ((links.map σ).headD (σ second))]
      rw [List.map_append, ih, headD_map]
      rfl

/-- **What is written for a rule under other names** is what is written for it, renamed, when the
names in the rule itself stay. -/
theorem Rule.map_rename_encode {r : Rule} {nameOf nameOf' : Symbol → Char} {links : List Char}
    (hhead : σ r.head = r.head) (hbody : ∀ X, .nonterminal X ∈ r.body → σ X = X)
    (hname : ∀ x ∈ r.namedSymbols, nameOf' x = σ (nameOf x)) :
    (r.encode nameOf links).map (Rule.rename σ) = r.encode nameOf' (links.map σ) := by
  rcases r.short_or_long with hshort | ⟨first, second, rest, hlong⟩
  · rw [encode_of_short hshort, encode_of_short hshort, List.map_singleton,
      rename_eq_self hhead hbody]
  · rw [namedSymbols_of_long hlong] at hname
    have htail : (second :: rest).map nameOf' = ((second :: rest).map nameOf).map σ := by
      rw [List.map_map]
      exact List.map_congr_left fun x hx => hname x (List.mem_cons_of_mem _ hx)
    have hlinks : (r.head :: links).map σ = r.head :: links.map σ := by rw [List.map_cons, hhead]
    rw [encode_eq_linkRules hlong, encode_eq_linkRules hlong, map_rename_linkRules, hlinks, htail,
      hname first (List.mem_cons_self ..)]

end Rename

/-! ## Plans -/

namespace Plan

theorem length_links {plan : Plan} (h : ∀ p ∈ plan, p.2.length = p.1.linkCount) :
    plan.links.length = ((plan.map Prod.fst).map Rule.linkCount).sum := by
  rw [links, List.length_flatMap, List.map_map]
  exact congrArg List.sum (List.map_congr_left h)

/-- **A plan is its rules and its links**, when each rule has as many links as it needs. -/
theorem eq_of_links {p q : Plan} (hrules : p.map Prod.fst = q.map Prod.fst)
    (hlinks : p.links = q.links) (hp : ∀ e ∈ p, e.2.length = e.1.linkCount)
    (hq : ∀ e ∈ q, e.2.length = e.1.linkCount) : p = q := by
  induction p generalizing q with
  | nil => exact (List.map_eq_nil_iff.1 hrules.symm).symm
  | cons e p ih =>
    cases q with
    | nil => cases hrules
    | cons d q =>
      obtain ⟨hrule, hrules⟩ := List.cons.inj hrules
      obtain ⟨he, hp⟩ := List.forall_mem_cons.1 hp
      obtain ⟨hd, hq⟩ := List.forall_mem_cons.1 hq
      have hlength : e.2.length = d.2.length := by rw [he, hd, hrule]
      obtain ⟨hfirst, hlinks⟩ := List.append_inj hlinks hlength
      rw [ih hrules hlinks hp hq, Prod.ext hrule hfirst]

/-- A plan under other names of the links. -/
def rename (σ : Equiv.Perm Char) (plan : Plan) : Plan := plan.map (Prod.map id (List.map σ))

variable {σ : Equiv.Perm Char} {p q plan : Plan}

theorem eq_rename (hrules : p.map Prod.fst = q.map Prod.fst) (hlinks : p.links.map σ = q.links)
    (hp : ∀ e ∈ p, e.2.length = e.1.linkCount) (hq : ∀ e ∈ q, e.2.length = e.1.linkCount) :
    q = p.rename σ := by
  refine eq_of_links ?_ ?_ hq fun e he => ?_
  · rw [← hrules, rename, List.map_map]
    rfl
  · rw [← hlinks, rename, links, links, List.map_flatMap, List.flatMap_map]
    rfl
  · obtain ⟨d, hd, rfl⟩ := List.mem_map.1 he
    exact (List.length_map _).trans (hp d hd)

/-- What a renamed plan writes is what the plan writes, renamed. -/
theorem map_rename_encode {nameOf nameOf' : Symbol → Char}
    (hold : ∀ e ∈ plan, σ e.1.head = e.1.head ∧ ∀ X, .nonterminal X ∈ e.1.body → σ X = X)
    (hname : ∀ e ∈ plan, ∀ x ∈ e.1.namedSymbols, nameOf' x = σ (nameOf x)) :
    (plan.encode nameOf).map (Rule.rename σ) = (plan.rename σ).encode nameOf' := by
  rw [encode, encode, rename, List.map_flatMap, List.flatMap_map]
  refine List.flatMap_congr fun e he => ?_
  exact Rule.map_rename_encode (hold e he).1 (hold e he).2 (hname e he)

end Plan

/-! ## Renamed stand-ins -/

namespace NameSupply

variable {s t : NameSupply} {σ : Equiv.Perm Char}

theorem lookup_map_snd {es : List (Char × Char)} {a : Char} :
    (es.map (Prod.map id σ)).lookup a = (es.lookup a).map σ := by
  induction es with
  | nil => rfl
  | cons e es ih =>
    obtain ⟨l, n⟩ := e
    rw [List.map_cons, Prod.map_apply, id_eq, List.lookup_cons, List.lookup_cons, ih]
    cases a == l <;> rfl

/-- A table with the same terminals and renamed stand-ins. -/
theorem standIns_eq_map (hkeys : s.standIns.map Prod.fst = t.standIns.map Prod.fst)
    (hnames : (s.standIns.map Prod.snd).map σ = t.standIns.map Prod.snd) :
    t.standIns = s.standIns.map (Prod.map id σ) := by
  have hzip : s.standIns.map (Prod.map id σ) =
      (s.standIns.map Prod.fst).zip ((s.standIns.map Prod.snd).map σ) :=
    List.zip_of_prod (by rw [List.map_map]; rfl) (by rw [List.map_map, List.map_map]; rfl)
  rw [hzip]
  exact List.zip_of_prod hkeys.symm hnames.symm

/-- Terminals are renamed as the table of stand-ins is. -/
theorem nameOf_rename (h : t.standIns = s.standIns.map (Prod.map id σ)) {a : Char}
    (ha : a ∈ s.letters) : t.nameOf (.terminal a) = σ (s.nameOf (.terminal a)) := by
  obtain ⟨name, hname⟩ := mem_letters.1 ha
  simp only [nameOf, h, lookup_map_snd, hname, Option.map_some, Option.getD_some]

theorem rules_rename (h : t.standIns = s.standIns.map (Prod.map id σ)) :
    t.rules = s.rules.map (Rule.rename σ) := by
  rw [rules, rules, h, List.map_map, List.map_map]
  rfl

end NameSupply

end Chomsky
