import Chomsky.Proofs.Deduplication
import Chomsky.Proofs.RuleOrder

/-!
# The rules that binarization writes

The rules that are written for a grammar are told apart by their heads.  Those for new names are the
rules of the links and of the stand-ins, one for each new name.  Those for old names are one for
each rule of the grammar, in the same order, and unfold to it.

* `Grammar.IsNew` — a name that a grammar does not use.
* `Rule.unfoldBody` — a rule with the names in its body replaced by what they stand for.
* `Grammar.newRules`, `Grammar.oldRules` — the rules of a result for new and for old names.

Principal results: `Binarized.newRules_eq`, `Binarized.oldRules_eq` — which rules they are;
`Binarized.map_head_written_perm` — there is one rule for each new name;
`Binarized.map_unfoldBody_leading` — the rules for old names unfold to those of the grammar;
`Binarized.count_bodyNonterminals_written` — each link is used once.
-/

namespace Chomsky

/-! ## New names -/

namespace Grammar

/-- A name that a grammar does not use. -/
def IsNew (g : Grammar) (name : Char) : Prop := name ∉ g.nonterminals ∧ name ≠ g.start

instance (g : Grammar) : DecidablePred g.IsNew := fun _ => inferInstanceAs (Decidable (_ ∧ _))

/-- The rules of `h` for names that `g` does not use. -/
def newRules (g h : Grammar) : List Rule := h.rules.filter fun r => g.IsNew r.head

/-- The rules of `h` for the names of `g`. -/
def oldRules (g h : Grammar) : List Rule := h.rules.filter fun r => ¬ g.IsNew r.head

end Grammar

/-! ## The rules of links -/

section Links

variable {first link : Char} {names links : List Char}

/-- There is one rule for each link, from the last link on. -/
theorem map_head_linkRules (hlength : links.length = names.length) :
    (linkRules first names links).map Rule.head = links.reverse := by
  induction names generalizing first links with
  | nil =>
    rw [List.eq_nil_of_length_eq_zero hlength]
    rfl
  | cons second names ih =>
    cases links with
    | nil => cases hlength
    | cons link links =>
      have hlength : links.length = names.length := by simpa using hlength
      rw [linkRules, List.map_append, ih hlength, List.reverse_cons]
      rfl

/-- The bodies hold each name once, and each link but the first. -/
theorem bodyNonterminals_linkRules_perm (hlength : links.length + 1 = names.length) :
    ((linkRules first names (link :: links)).flatMap Rule.bodyNonterminals).Perm
      (first :: names ++ links) := by
  induction names generalizing first link links with
  | nil => cases hlength
  | cons second names ih =>
    rw [linkRules, List.flatMap_append, List.flatMap_singleton]
    have hlast : (pairRule link first (links.headD second)).bodyNonterminals =
        [first, links.headD second] := rfl
    rw [hlast]
    cases links with
    | nil =>
      have hnames : names = [] := by simpa using hlength
      subst hnames
      exact .refl _
    | cons next links =>
      have hlength : links.length + 1 = names.length := by simpa using hlength
      have hrest : ((linkRules second names (next :: links)).flatMap Rule.bodyNonterminals).Perm
        (second :: names ++ links) := ih hlength
      refine (hrest.append_right _).trans ?_
      show (second :: names ++ links ++ [first, next]).Perm
          (first :: second :: names ++ next :: links)
      refine List.perm_iff_count.2 fun c => ?_
      simp only [List.count_append, List.count_cons, List.count_nil]
      omega

end Links

/-! ## Rules for new names, and for old ones -/

/-- A rule with the names in its body replaced by what they stand for. -/
def Rule.unfoldBody (f : Char → List Symbol) (r : Rule) : Rule := ⟨r.head, unfoldSymbols f r.body⟩

namespace Binarized

variable {g h : Grammar} {plan : Plan} {t : NameSupply} {p : Rule × List Char} {name : Char}
  {q : Rule}

theorem isNew_of_mem_newNames (b : Binarized g plan t) (hname : name ∈ newNames plan t) :
    g.IsNew name := by
  refine b.not_mem_of_new ?_
  rwa [b.keys_table]

/-- **The rules that keep the heads unfold to the rules of the grammar.** -/
theorem map_unfoldBody_leading (b : Binarized g plan t) :
    (plan.map fun p => p.1.leading t.nameOf p.2).map (Rule.unfoldBody (unfold plan t)) =
      g.rules := by
  rw [List.map_map, ← b.rules]
  refine List.map_congr_left fun p hp => ?_
  show (⟨(p.1.leading t.nameOf p.2).head, _⟩ : Rule) = p.1
  rw [b.unfold_leading hp, Rule.head_leading]

theorem mem_newNames_of_mem_links (hp : p ∈ plan) (hname : name ∈ p.2) : name ∈ newNames plan t :=
  List.mem_append_left _ (List.mem_flatMap.2 ⟨p, hp, hname⟩)

/-- The heads of the grammar are not new. -/
theorem not_isNew_head (b : Binarized g plan t) (hp : p ∈ plan) : ¬ g.IsNew p.1.head := by
  intro hnew
  exact hnew.1 (Grammar.mem_nonterminals.2 ⟨p.1, b.rule_mem hp, .inl rfl⟩)

theorem map_head_linkPart (b : Binarized g plan t) (hp : p ∈ plan) :
    (p.1.linkPart t.nameOf p.2).map Rule.head = p.2.reverse := by
  have hlength := b.lengths p hp
  unfold Rule.linkPart
  split
  · rename_i first second rest hlong
    exact map_head_linkRules (by simpa [Rule.linkCount, hlong] using hlength)
  · rename_i hshort
    rcases p.1.short_or_long with hle | ⟨first, second, rest, hlong⟩
    · rw [Rule.linkCount, Nat.sub_eq_zero_of_le (by omega)] at hlength
      rw [List.eq_nil_of_length_eq_zero hlength]
      rfl
    · exact absurd hlong (hshort first second rest)

theorem isNew_head_of_mem_linkPart (b : Binarized g plan t) (hp : p ∈ plan)
    (hq : q ∈ p.1.linkPart t.nameOf p.2) : g.IsNew q.head :=
  b.isNew_of_mem_newNames (mem_newNames_of_mem_links hp (b.unfold_of_mem_linkPart hp hq).1)

theorem isNew_head_of_mem_rules (b : Binarized g plan t) (hq : q ∈ t.rules) : g.IsNew q.head := by
  obtain ⟨e, he, rfl⟩ := List.mem_map.1 hq
  exact b.isNew_of_mem_newNames (List.mem_append_right _ (List.mem_map_of_mem he))

/-- **What is written for new names**: the rules of all links, then those of the stand-ins. -/
theorem filter_isNew_written (b : Binarized g plan t) :
    ((plan.encode t.nameOf ++ t.rules).filter fun r => g.IsNew r.head) =
      plan.flatMap (fun p => p.1.linkPart t.nameOf p.2) ++ t.rules := by
  have hstandIns : t.rules.filter (fun r => g.IsNew r.head) = t.rules :=
    List.filter_eq_self.2 fun q hq => decide_eq_true (b.isNew_head_of_mem_rules hq)
  rw [List.filter_append, hstandIns, Plan.encode, List.filter_flatMap]
  refine congrArg (· ++ _) (List.flatMap_congr fun p hp => ?_)
  have hlinks : (p.1.linkPart t.nameOf p.2).filter (fun r => g.IsNew r.head) =
      p.1.linkPart t.nameOf p.2 :=
    List.filter_eq_self.2 fun q hq => decide_eq_true (b.isNew_head_of_mem_linkPart hp hq)
  rw [Rule.encode_eq_append, List.filter_append, hlinks]
  simp [b.not_isNew_head hp]

/-- **What is written for old names**: one rule for each rule of the grammar. -/
theorem filter_not_isNew_written (b : Binarized g plan t) :
    ((plan.encode t.nameOf ++ t.rules).filter fun r => ¬ g.IsNew r.head) =
      plan.map fun p => p.1.leading t.nameOf p.2 := by
  have hstandIns : t.rules.filter (fun r => ¬ g.IsNew r.head) = [] :=
    List.filter_eq_nil_iff.2 fun q hq => by simpa using b.isNew_head_of_mem_rules hq
  rw [List.filter_append, hstandIns, List.append_nil, Plan.encode, List.filter_flatMap,
    List.map_eq_flatMap]
  refine List.flatMap_congr fun p hp => ?_
  have hlinks : (p.1.linkPart t.nameOf p.2).filter (fun r => ¬ g.IsNew r.head) = [] :=
    List.filter_eq_nil_iff.2 fun q hq => by simpa using b.isNew_head_of_mem_linkPart hp hq
  rw [Rule.encode_eq_append, List.filter_append, hlinks]
  simp [b.not_isNew_head hp]

/-- There is one rule for each new name. -/
theorem map_head_written_perm (b : Binarized g plan t) :
    ((plan.flatMap (fun p => p.1.linkPart t.nameOf p.2) ++ t.rules).map Rule.head).Perm
      (newNames plan t) := by
  have hlinks : (plan.flatMap fun p => p.1.linkPart t.nameOf p.2).map Rule.head =
      plan.flatMap fun p => p.2.reverse := by
    rw [List.map_flatMap]
    exact List.flatMap_congr fun p hp => b.map_head_linkPart hp
  have hstandIns : t.rules.map Rule.head = t.standIns.map Prod.snd := by
    rw [NameSupply.rules, List.map_map]
    rfl
  rw [List.map_append, hlinks, hstandIns, newNames]
  exact (List.Perm.flatMap_left plan fun p _ => List.reverse_perm p.2).append_right _

theorem nodup_filter_isNew_written (b : Binarized g plan t) :
    (plan.flatMap (fun p => p.1.linkPart t.nameOf p.2) ++ t.rules).Nodup :=
  (b.map_head_written_perm.nodup_iff.2 b.nodup_newNames).of_map

/-! ## The rules of the result -/

/-- **The rules for new names** in the result are those that are written. -/
theorem newRules_eq (b : Binarized g plan t) :
    g.newRules (g.withRules (plan.encode t.nameOf ++ t.rules)) =
      plan.flatMap (fun p => p.1.linkPart t.nameOf p.2) ++ t.rules := by
  unfold Grammar.newRules Grammar.withRules
  rw [← firstOccurrences_filter, b.filter_isNew_written,
    firstOccurrences_of_nodup b.nodup_filter_isNew_written]

/-- **The rules for old names** in the result are those that are written, each once. -/
theorem oldRules_eq (b : Binarized g plan t) :
    g.oldRules (g.withRules (plan.encode t.nameOf ++ t.rules)) =
      firstOccurrences (plan.map fun p => p.1.leading t.nameOf p.2) := by
  unfold Grammar.oldRules Grammar.withRules
  rw [← firstOccurrences_filter, b.filter_not_isNew_written]

/-! ## Where links are used -/

/-- The names of symbols are old names and stand-ins, and no links. -/
theorem nameOf_not_mem_links (b : Binarized g plan t) (hp : p ∈ plan) {x : Symbol}
    (hx : x ∈ p.1.namedSymbols) : t.nameOf x ∉ plan.links := by
  intro hlink
  cases x with
  | nonterminal X =>
    have hX := Rule.mem_body_of_mem_namedSymbols hx
    have hnew := b.isNew_of_mem_newNames (List.mem_append_left _ hlink)
    exact hnew.1 (Grammar.mem_nonterminals.2 ⟨p.1, b.rule_mem hp, .inr hX⟩)
  | null => exact b.null_not_mem_namedSymbols (b.rule_mem hp) hx
  | terminal a =>
    have hstandIn : t.nameOf (.terminal a) ∈ t.standIns.map Prod.snd :=
      List.mem_map_of_mem (b.standIn_mem (b.rule_mem hp) hx)
    exact (List.nodup_append.1 b.nodup_newNames).2.2 _ hlink _ hstandIn rfl

/-- In what is written for a rule each link is used as often as the rule has it. -/
theorem count_bodyNonterminals_encode (b : Binarized g plan t) (hp : p ∈ plan)
    (hlink : name ∈ plan.links) :
    ((p.1.encode t.nameOf p.2).flatMap Rule.bodyNonterminals).count name = p.2.count name := by
  have hlength := b.lengths p hp
  rcases p.1.short_or_long with hshort | ⟨first, second, rest, hlong⟩
  · have hnone : p.2 = [] := by
      rw [Rule.linkCount, Nat.sub_eq_zero_of_le (by omega)] at hlength
      exact List.eq_nil_of_length_eq_zero hlength
    have hold : name ∉ p.1.bodyNonterminals := by
      intro hbody
      have hnew := b.isNew_of_mem_newNames (List.mem_append_left _ hlink)
      refine hnew.1 (Grammar.mem_nonterminals.2 ⟨p.1, b.rule_mem hp, .inr ?_⟩)
      exact Rule.mem_bodyNonterminals.1 hbody
    rw [Rule.encode_of_short hshort, List.flatMap_singleton, hnone, List.count_nil,
      List.count_eq_zero.2 hold]
  · have hnames : name ∉ (first :: second :: rest).map t.nameOf := by
      intro hmem
      obtain ⟨x, hx, rfl⟩ := List.mem_map.1 hmem
      rw [← Rule.namedSymbols_of_long hlong] at hx
      exact b.nameOf_not_mem_links hp hx hlink
    have hcount : p.2.length + 1 = ((second :: rest).map t.nameOf).length := by
      simpa [Rule.linkCount, hlong] using hlength
    have hperm : ((linkRules (t.nameOf first) ((second :: rest).map t.nameOf)
        (p.1.head :: p.2)).flatMap
        Rule.bodyNonterminals).Perm (t.nameOf first :: (second :: rest).map t.nameOf ++ p.2) :=
      bodyNonterminals_linkRules_perm hcount
    rw [Rule.encode_eq_linkRules hlong, hperm.count_eq, List.count_append, ← List.map_cons,
      List.count_eq_zero.2 hnames, Nat.zero_add]

/-- **Each link is used once** in what is written. -/
theorem count_bodyNonterminals_written (b : Binarized g plan t) (hlink : name ∈ plan.links) :
    ((plan.encode t.nameOf ++ t.rules).flatMap Rule.bodyNonterminals).count name = 1 := by
  have hstandIns : t.rules.flatMap Rule.bodyNonterminals = [] := by
    refine List.flatMap_eq_nil_iff.2 fun q hq => ?_
    obtain ⟨e, -, rfl⟩ := List.mem_map.1 hq
    rfl
  have hnodup : plan.links.Nodup := (List.nodup_append.1 b.nodup_newNames).1
  calc ((plan.encode t.nameOf ++ t.rules).flatMap Rule.bodyNonterminals).count name
    _ = (plan.flatMap fun p => (p.1.encode t.nameOf p.2).flatMap Rule.bodyNonterminals).count
      name := by
      rw [List.flatMap_append, hstandIns, List.append_nil, Plan.encode, List.flatMap_assoc]
    _ = (plan.map fun p => p.2.count name).sum := by
      rw [List.count_flatMap]
      exact congrArg List.sum
        (List.map_congr_left fun p hp => b.count_bodyNonterminals_encode hp hlink)
    _ = plan.links.count name := List.count_flatMap.symm
    _ = 1 := List.count_eq_one_of_mem hnodup hlink

end Binarized

end Chomsky
