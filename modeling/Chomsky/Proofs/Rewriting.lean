import Chomsky.Proofs.UsefulSymbols

/-!
# Derivations as rewriting

The strings of a nonterminal are usually given step by step: in a list of symbols some nonterminal
is replaced by the body of one of its rules, again and again, until no nonterminal is left.

* `RewriteStep`, `Rewrites` — one replacement, anywhere in the list; any number of them.
* `Spells` — a list of symbols without nonterminals, read as a string; null symbols are passed over.

Principal results: `yields_iff_rewrites` — a body yields the strings that it can be rewritten to, in
whatever order; `derives_iff_rewrites` — the same for a nonterminal; `reaches_iff_rewrites` — a
nonterminal reaches another one when it can be rewritten to a list with that one in it.
-/

namespace Chomsky

/-- One nonterminal is replaced by the body of a rule for it. -/
def RewriteStep (rules : List Rule) (as bs : List Symbol) : Prop :=
  ∃ before after, ∃ r ∈ rules,
    as = before ++ .nonterminal r.head :: after ∧ bs = before ++ r.body ++ after

/-- Any number of replacements. -/
abbrev Rewrites (rules : List Rule) : List Symbol → List Symbol → Prop :=
  Relation.ReflTransGen (RewriteStep rules)

/-- The list has no nonterminals, and its terminals are the string. -/
def Spells (form : List Symbol) (w : List Char) : Prop :=
  (∀ x ∈ form, x.isNonterminal = false) ∧ form.filterMap Symbol.terminal? = w

section Rewriting

variable {rules : List Rule} {as bs cs form : List Symbol} {v w : List Char} {A B : Char}

/-! ## Rewriting in a context -/

theorem RewriteStep.append_left (h : RewriteStep rules as bs) (cs : List Symbol) :
    RewriteStep rules (cs ++ as) (cs ++ bs) := by
  obtain ⟨before, after, r, hr, rfl, rfl⟩ := h
  exact ⟨cs ++ before, after, r, hr, by simp, by simp⟩

theorem RewriteStep.append_right (h : RewriteStep rules as bs) (cs : List Symbol) :
    RewriteStep rules (as ++ cs) (bs ++ cs) := by
  obtain ⟨before, after, r, hr, rfl, rfl⟩ := h
  exact ⟨before, after ++ cs, r, hr, by simp, by simp⟩

theorem Rewrites.append_left (h : Rewrites rules as bs) (cs : List Symbol) :
    Rewrites rules (cs ++ as) (cs ++ bs) :=
  h.lift (cs ++ ·) fun _ _ hstep => hstep.append_left cs

theorem Rewrites.append_right (h : Rewrites rules as bs) (cs : List Symbol) :
    Rewrites rules (as ++ cs) (bs ++ cs) :=
  h.lift (· ++ cs) fun _ _ hstep => hstep.append_right cs

theorem Rewrites.of_rule {r : Rule} (hr : r ∈ rules) :
    Rewrites rules [.nonterminal r.head] r.body :=
  .single ⟨[], [], r, hr, rfl, by simp⟩

/-! ## Strings -/

theorem Spells.append (ha : Spells as v) (hb : Spells bs w) : Spells (as ++ bs) (v ++ w) := by
  obtain ⟨hfree, rfl⟩ := ha
  obtain ⟨hfree', rfl⟩ := hb
  refine ⟨fun x hx => ?_, List.filterMap_append⟩
  rcases List.mem_append.1 hx with hx | hx
  · exact hfree x hx
  · exact hfree' x hx

/-- A list without nonterminals yields the string that it spells. -/
theorem Spells.yields (h : Spells form w) : Yields rules form w := by
  obtain ⟨hfree, rfl⟩ := h
  induction form with
  | nil => exact .nil
  | cons x rest ih =>
    obtain ⟨hx, hrest⟩ := List.forall_mem_cons.1 hfree
    cases x with
    | nonterminal X => cases hx
    | terminal a => exact (ih hrest).terminal a
    | null => exact (ih hrest).null

/-- A string that is yielded after a replacement is yielded before it. -/
theorem Yields.of_step (hstep : RewriteStep rules as bs) (h : Yields rules bs w) :
    Yields rules as w := by
  obtain ⟨before, after, r, hr, rfl, rfl⟩ := hstep
  obtain ⟨u, v, rfl, hu, hafter⟩ := yields_append.1 h
  obtain ⟨x, y, rfl, hbefore, hbody⟩ := yields_append.1 hu
  rw [List.append_assoc]
  exact hbefore.append (.nonterminal hr hbody hafter)

/-- **A body yields the strings that it can be rewritten to.** -/
theorem yields_iff_rewrites :
    Yields rules as w ↔ ∃ form, Rewrites rules as form ∧ Spells form w := by
  constructor
  · intro h
    induction h with
    | nil => exact ⟨[], .refl, by simp [Spells]⟩
    | terminal a _ ih =>
      obtain ⟨form, hrewrites, hspells⟩ := ih
      have hletter : Spells [.terminal a] [a] := by
        simp [Spells, Symbol.isNonterminal, Symbol.terminal?]
      exact ⟨.terminal a :: form, hrewrites.append_left [.terminal a], hletter.append hspells⟩
    | null _ ih =>
      obtain ⟨form, hrewrites, hspells⟩ := ih
      have hnull : Spells [.null] [] := by
        simp [Spells, Symbol.isNonterminal, Symbol.terminal?]
      exact ⟨.null :: form, hrewrites.append_left [.null], hnull.append hspells⟩
    | @nonterminal r rest _ _ hr _ _ ihbody ih =>
      obtain ⟨form, hrewrites, hspells⟩ := ihbody
      obtain ⟨form', hrewrites', hspells'⟩ := ih
      refine ⟨form ++ form', ?_, hspells.append hspells'⟩
      calc Rewrites rules (.nonterminal r.head :: rest) (r.body ++ rest) :=
            (Rewrites.of_rule hr).append_right rest
        Rewrites rules _ (form ++ rest) := hrewrites.append_right rest
        Rewrites rules _ (form ++ form') := hrewrites'.append_left form
  · rintro ⟨form, hrewrites, hspells⟩
    induction hrewrites using Relation.ReflTransGen.head_induction_on with
    | refl => exact hspells.yields
    | head hstep _ ih => exact ih.of_step hstep

/-- **A nonterminal derives the strings that it can be rewritten to.** -/
theorem derives_iff_rewrites {g : Grammar} {X : Char} :
    Derives g X w ↔ ∃ form, Rewrites g.rules [.nonterminal X] form ∧ Spells form w :=
  yields_iff_rewrites

/-! ## Occurrences -/

/-- All nonterminals of a list that a nonterminal can be rewritten to are reached from it. -/
theorem Rewrites.reaches (h : Rewrites rules [.nonterminal A] form) :
    ∀ B, .nonterminal B ∈ form → Reaches rules A B := by
  induction h with
  | refl =>
    intro B hB
    obtain rfl : B = A := by simpa using hB
    exact .refl
  | tail _ hstep ih =>
    obtain ⟨before, after, r, hr, rfl, rfl⟩ := hstep
    intro B hB
    rcases List.mem_append.1 hB with hB | hB
    · rcases List.mem_append.1 hB with hB | hB
      · exact ih B (List.mem_append_left _ hB)
      · have hhead : Reaches rules A r.head := ih r.head (by simp)
        exact hhead.tail ⟨r, hr, rfl, hB⟩
    · exact ih B (List.mem_append_right _ (List.mem_cons_of_mem _ hB))

/-- **A nonterminal reaches another one when it can be rewritten to a list with that one in it.** -/
theorem reaches_iff_rewrites :
    Reaches rules A B ↔ ∃ form, Rewrites rules [.nonterminal A] form ∧ .nonterminal B ∈ form := by
  constructor
  · intro h
    induction h with
    | refl => exact ⟨_, .refl, List.mem_singleton.2 rfl⟩
    | tail _ hstep ih =>
      obtain ⟨form, hrewrites, hmem⟩ := ih
      obtain ⟨r, hr, rfl, hC⟩ := hstep
      obtain ⟨before, after, rfl⟩ := List.append_of_mem hmem
      refine ⟨before ++ r.body ++ after, hrewrites.tail ⟨before, after, r, hr, rfl, rfl⟩, ?_⟩
      exact List.mem_append_left _ (List.mem_append_right _ hC)
  · rintro ⟨form, hrewrites, hmem⟩
    exact hrewrites.reaches B hmem

end Rewriting

end Chomsky
