import Chomsky.Proofs.WellFormedness

/-!
# Sorting the rules

Rules are compared by keys, lists of numbers in which terminals count from the end of the characters
on. What that order is can be said without the numbers, and as different rules have different keys,
there is only one way to sort a list of rules.

* `Symbol.Before`, `Rule.Before` — the order of symbols and the order of rules.

Principal results: `Rule.lt_iff_before` — keys are compared as rules are ordered;
`Rule.isStrictTotalOrder_before` — the order is strict and total; `Rule.compare_iff` — the three
outcomes of a comparison; `Grammar.pairwise_sorted` — sorted rules stand in order;
`Grammar.sorted_eq_sorted_iff` — grammars are sorted alike if they have the same rules, equally
often.
-/

namespace Chomsky

/-! ## The order of symbols -/

namespace Symbol

/-- Nonterminals stand before terminals, and the null symbol stands last; among nonterminals and
among terminals the characters decide. -/
inductive Before : Symbol → Symbol → Prop
  | names {A B : Char} (h : A < B) : Before (.nonterminal A) (.nonterminal B)
  | letters {a b : Char} (h : a < b) : Before (.terminal a) (.terminal b)
  | name_letter (A b : Char) : Before (.nonterminal A) (.terminal b)
  | name_null (A : Char) : Before (.nonterminal A) .null
  | letter_null (a : Char) : Before (.terminal a) .null

theorem toNat_lt_toNat {a b : Char} : a.toNat < b.toNat ↔ a < b := UInt32.lt_iff_toNat_lt.symm

/-- **Keys are compared as symbols are ordered.** -/
theorem key_lt_key {s t : Symbol} : s.key < t.key ↔ s.Before t := by
  constructor
  · intro h
    cases s with
    | nonterminal A =>
      cases t with
      | nonterminal B => exact .names (toNat_lt_toNat.1 h)
      | terminal b => exact .name_letter A b
      | null => exact .name_null A
    | terminal a =>
      cases t with
      | nonterminal B =>
        have := toNat_lt B
        simp only [key] at h
        omega
      | terminal b => exact .letters (toNat_lt_toNat.1 (Nat.add_lt_add_iff_left.1 h))
      | null => exact .letter_null a
    | null =>
      cases t with
      | nonterminal B =>
        have := toNat_lt B
        simp only [key] at h
        omega
      | terminal b =>
        have := toNat_lt b
        simp only [key] at h
        omega
      | null => exact absurd h (Nat.lt_irrefl _)
  · intro h
    cases h with
    | names h => exact toNat_lt_toNat.2 h
    | letters h => exact Nat.add_lt_add_left (toNat_lt_toNat.2 h) _
    | name_letter A b =>
      have := toNat_lt A
      simp only [key]
      omega
    | name_null A =>
      have := toNat_lt A
      simp only [key]
      omega
    | letter_null a =>
      have := toNat_lt a
      simp only [key]
      omega

end Symbol

/-! ## The order of rules -/

/-- Words of images are ordered as the words are, if images are ordered as what they are images
of. -/
theorem lex_map_iff {α β : Type} {r : α → α → Prop} {q : β → β → Prop} {f : α → β}
    (hf : Function.Injective f) (hr : ∀ a b, q (f a) (f b) ↔ r a b) (l m : List α) :
    List.Lex q (l.map f) (m.map f) ↔ List.Lex r l m := by
  induction l generalizing m with
  | nil =>
    cases m with
    | nil => exact iff_of_false (nomatch ·) (nomatch ·)
    | cons b m => exact iff_of_true .nil .nil
  | cons a l ih =>
    cases m with
    | nil => exact iff_of_false (nomatch ·) (nomatch ·)
    | cons b m =>
      rw [List.map_cons, List.map_cons, List.cons_lex_cons_iff, List.cons_lex_cons_iff, hr,
        hf.eq_iff, ih]

namespace Rule

variable {r s : Rule}

/-- The head decides.  Among rules with one head the bodies are ordered as words are in a
dictionary, where a word stands before those that go on after it. -/
def Before (r s : Rule) : Prop :=
  r.head < s.head ∨ r.head = s.head ∧ List.Lex Symbol.Before r.body s.body

/-- **Keys are compared as rules are ordered.** -/
theorem lt_iff_before : r < s ↔ r.Before s := by
  show List.Lex (· < ·) (r.head.toNat :: r.body.map Symbol.key)
      (s.head.toNat :: s.body.map Symbol.key) ↔ _
  rw [List.cons_lex_cons_iff, Before, Char.toNat_inj, Symbol.toNat_lt_toNat,
    lex_map_iff (fun _ _ => Symbol.key_injective) fun _ _ => Symbol.key_lt_key]

/-- Rules are ordered as their keys are. -/
instance : LinearOrder Rule where
  le_refl r := lt_irrefl r.key
  le_trans r s t hrs hst := not_lt_of_ge ((le_of_not_gt hrs).trans (le_of_not_gt hst))
  le_antisymm r s hrs hsr := key_injective (le_antisymm (le_of_not_gt hrs) (le_of_not_gt hsr))
  le_total r s := (le_total r.key s.key).imp not_lt_of_ge not_lt_of_ge
  lt_iff_le_not_ge r s := ⟨fun h => ⟨lt_asymm h, not_not_intro h⟩, fun h => not_not.1 h.2⟩
  toDecidableLE := inferInstance
  toDecidableLT := inferInstance

/-- **The order of rules is strict and total.** -/
theorem isStrictTotalOrder_before : IsStrictTotalOrder Rule Before := by
  have hlt : Before = (· < · : Rule → Rule → Prop) := by
    funext r s
    exact propext lt_iff_before.symm
  rw [hlt]
  infer_instance

/-- **The three outcomes of a comparison.**  Only equal rules compare equal. -/
theorem compare_iff (r s : Rule) :
    (compare r s = .lt ↔ r.Before s) ∧ (compare r s = .eq ↔ r = s) ∧
      (compare r s = .gt ↔ s.Before r) :=
  ⟨compare_lt_iff_lt.trans lt_iff_before, compare_eq_iff_eq, compare_gt_iff_gt.trans lt_iff_before⟩

theorem le_iff_not_before : r ≤ s ↔ ¬ s.Before r := by
  rw [← lt_iff_before, not_lt]

end Rule

/-! ## Sorted grammars -/

namespace Grammar

variable {g h : Grammar}

/-- **Sorted rules stand in order.** -/
theorem pairwise_sorted (g : Grammar) : g.sorted.rules.Pairwise (· ≤ ·) :=
  List.pairwise_mergeSort' (· ≤ ·) g.rules

/-- What stands in order stays as it is. -/
theorem sorted_eq_self (hg : g.rules.Pairwise (· ≤ ·)) : g.sorted = g := by
  have hrules : g.rules.mergeSort (fun r s => r ≤ s) = g.rules := List.mergeSort_eq_self (· ≤ ·) hg
  rw [sorted, hrules]

/-- **Grammars are sorted alike if they have the same rules, equally often.** -/
theorem sorted_eq_sorted_iff (hsame : SameSettings g h) :
    g.sorted = h.sorted ↔ g.rules.Perm h.rules := by
  constructor
  · intro heq
    have hrules : g.sorted.rules = h.sorted.rules := congrArg rules heq
    exact (g.sorted_perm.symm.trans (.of_eq hrules)).trans h.sorted_perm
  · intro hperm
    have hrules : g.sorted.rules = h.sorted.rules :=
      ((g.sorted_perm.trans hperm).trans h.sorted_perm.symm).eq_of_pairwise' g.pairwise_sorted
        h.pairwise_sorted
    calc g.sorted
      _ = { g with rules := g.sorted.rules } := rfl
      _ = { h with rules := h.sorted.rules } := by rw [hrules, hsame.start, hsame.marker]
      _ = h.sorted := rfl

end Grammar

end Chomsky
