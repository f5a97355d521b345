import Chomsky.Proofs.Normalization

/-!
# Normalizing a normal form

Useless symbols are removed once, by tests on the rules as they are before the removal.  A rule that
goes may have been the only way to another nonterminal, whose rules stay; so a normal form that was
just computed may hold rules that are not reachable.  Normalized again it loses those rules and no
others, and after that it stays as it is.

* `FruitfulNormalForm` — a normal form without duplicates and without dead ends.

Principal results: `FruitfulNormalForm.of_normalize` — normalization gives such grammars;
`FruitfulNormalForm.normalize_eq` — it trims such a grammar and does nothing else;
`FruitfulNormalForm.trimmed` — trimming keeps this form; `Grammar.normalize_normalize` — what a
second and a third run give.
-/

namespace Chomsky

/-- A normal form without duplicate rules, in which no rule is a dead end. -/
structure FruitfulNormalForm (g : Grammar) : Prop where
  isNormal : g.isNormal = true
  nodup : g.rules.Nodup
  fruitful : Fruitful g.rules

namespace FruitfulNormalForm

variable {g h : Grammar} {r : Rule}

/-! ## Bodies -/

theorem body_of_mem (hg : FruitfulNormalForm g) (hr : r ∈ g.rules) :
    (∃ a, r.body = [.terminal a]) ∨ ∃ A B, r.body = [.nonterminal A, .nonterminal B] :=
  Rule.isNormal_iff.1 (List.all_eq_true.1 hg.isNormal r hr)

theorem body_ne_nil (hg : FruitfulNormalForm g) (hr : r ∈ g.rules) : r.body ≠ [] := by
  rcases hg.body_of_mem hr with ⟨a, hbody⟩ | ⟨A, B, hbody⟩ <;> simp [hbody]

theorem null_not_mem (hg : FruitfulNormalForm g) (hr : r ∈ g.rules) : Symbol.null ∉ r.body := by
  rcases hg.body_of_mem hr with ⟨a, hbody⟩ | ⟨A, B, hbody⟩ <;> simp [hbody]

theorem not_isUnit (hg : FruitfulNormalForm g) (hr : r ∈ g.rules) : r.isUnit = false := by
  rcases hg.body_of_mem hr with ⟨a, hbody⟩ | ⟨A, B, hbody⟩ <;>
    simp [Rule.isUnit, Rule.unitTarget?, hbody]

/-! ## The stages -/

/-- Neither elimination finds anything, and useless symbols are those that are not reachable. -/
theorem prepared_eq (hg : FruitfulNormalForm g) : g.prepared = g.trimmed := by
  have hnull : g.eliminateNull = g :=
    Grammar.eliminateNull_eq_self hg.nodup (fun _ => hg.body_ne_nil) fun _ => hg.null_not_mem
  have hunits : g.eliminateUnits = g :=
    Grammar.eliminateUnits_eq_self hg.nodup fun _ => hg.not_isUnit
  rw [Grammar.prepared, hnull, hunits]
  exact Grammar.eliminateUseless_eq_trimmed hg.nodup (fun _ => hg.null_not_mem) hg.fruitful

theorem binarize_eq (hg : FruitfulNormalForm g) : g.binarize = .ok g := by
  refine Grammar.binarize_eq_self hg.nodup fun r hr => (hg.body_of_mem hr).imp_left ?_
  rintro ⟨a, hbody⟩
  rw [hbody]
  rfl

/-- Trimming keeps the form: the body of a rule with a reachable head has reachable nonterminals
only, so its derivations are kept. -/
theorem trimmed (hg : FruitfulNormalForm g) : FruitfulNormalForm g.trimmed where
  isNormal := by
    refine List.all_eq_true.2 fun r hr => ?_
    exact List.all_eq_true.1 hg.isNormal r (Grammar.mem_trimmed.1 hr).1
  nodup := Grammar.nodup_trimmed hg.nodup
  fruitful := by
    rw [← Grammar.eliminateUseless_eq_trimmed hg.nodup (fun _ => hg.null_not_mem) hg.fruitful]
    exact Grammar.fruitful_eliminateUseless g

/-- **Normalization trims a normal form without dead ends**, and does nothing else. -/
theorem normalize_eq (hg : FruitfulNormalForm g) : g.normalize = .ok g.trimmed := by
  rw [Grammar.normalize_eq, hg.prepared_eq, hg.trimmed.binarize_eq]

/-- **Normalization gives normal forms without dead ends**: the third stage leaves none, and
binarization adds none. -/
theorem of_normalize (hrun : g.normalize = .ok h) : FruitfulNormalForm h := by
  have hform := Grammar.normalFormOf_normalize hrun
  rw [Grammar.normalize_eq] at hrun
  exact ⟨hform.isNormal, hform.nodup,
    Grammar.fruitful_binarize hrun (Grammar.fruitful_eliminateUseless _)⟩

end FruitfulNormalForm

namespace Grammar

/-- The only way from `S` to `B` is beside `A`, which derives nothing. -/
def severed : Grammar where
  rules := [⟨'S', [.nonterminal 'A', .nonterminal 'B']⟩, ⟨'S', [.terminal 'a']⟩,
    ⟨'A', [.terminal 'a', .nonterminal 'A']⟩, ⟨'B', [.terminal 'b']⟩]
  start := 'S'
  marker := '#'

/-- The normal form of `severed`, in which `B` is not reachable. -/
def severedForm : Grammar where
  rules := [⟨'S', [.terminal 'a']⟩, ⟨'B', [.terminal 'b']⟩]
  start := 'S'
  marker := '#'

/-- **A second run drops the rules that are not reachable, and a third run changes nothing**; one
run need not be enough. -/
theorem normalize_normalize :
    (∀ g h : Grammar, g.normalize = .ok h →
      h.normalize = .ok h.trimmed ∧ h.trimmed.normalize = .ok h.trimmed ∧
        ∀ r, r ∈ h.trimmed.rules ↔ r ∈ h.rules ∧ Reaches h.rules h.start r.head) ∧
      ∃ g h : Grammar, g.normalize = .ok h ∧ h.normalize ≠ .ok h := by
  constructor
  · intro g h hrun
    have hh := FruitfulNormalForm.of_normalize hrun
    have hagain := hh.trimmed.normalize_eq
    rw [trimmed_trimmed] at hagain
    exact ⟨hh.normalize_eq, hagain, fun r => mem_trimmed⟩
  · have hrun : severed.normalize = .ok severedForm := rfl
    have hagain : severedForm.normalize = .ok severedForm.trimmed :=
      (FruitfulNormalForm.of_normalize hrun).normalize_eq
    refine ⟨severed, severedForm, hrun, fun hsame => ?_⟩
    rw [hagain, Except.ok.injEq] at hsame
    exact absurd hsame (by decide)

theorem normalize_normalize_severed :
    severed.normalize = .ok severedForm ∧ severedForm.normalize = .ok severedForm.trimmed ∧
      severedForm.trimmed.rules = [⟨'S', [.terminal 'a']⟩] ∧
      severedForm.trimmed.normalize = .ok severedForm.trimmed := by
  have hrun : severed.normalize = .ok severedForm := rfl
  obtain ⟨hsecond, hthird, -⟩ := normalize_normalize.1 severed severedForm hrun
  exact ⟨hrun, hsecond, by decide, hthird⟩

end Grammar

end Chomsky
