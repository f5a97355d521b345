import Chomsky.NullElimination
import Chomsky.Proofs.Generating

/-!
# Null elimination keeps the non-empty strings

* `mem_shortened_cons` — the shortened forms of a body, symbol by symbol.
* `Grammar.mem_eliminateNull` — which rules null elimination gives.

Principal results: `Reads.of_shortened`, `Reads.exists_shortened` — a body and its shortened forms
read as the same non-empty strings; `Grammar.generates_eliminateNull` — the rules that null
elimination gives and that do not use the null symbol generate what the nonterminal derives,
without the empty string; `Grammar.null_not_mem_eliminateNull` — no rule with the null symbol is
left when that symbol only occurs alone; `Grammar.eliminateNull_eq_self` — which grammars stay as
they are; `Grammar.derives_eliminateNull` — the stage as a whole.
-/

namespace Chomsky

/-! ## Shortened forms -/

section Shortened

variable {N : CharSet} {s : Symbol} {body form rest : List Symbol} {w : List Char}

theorem mem_shortened_cons :
    form ∈ shortened N (s :: rest) ↔
      (∃ f ∈ shortened N rest, form = s :: f) ∨
        s.generatesIn (· == .null) N = true ∧ form ∈ shortened N rest := by
  rw [shortened, mem_firstOccurrences, List.mem_append, List.mem_map]
  constructor
  · rintro (⟨f, hf, rfl⟩ | h)
    · exact .inl ⟨f, hf, rfl⟩
    · split at h
      · rename_i hs
        exact .inr ⟨hs, h⟩
      · exact absurd h List.not_mem_nil
  · rintro (⟨f, hf, rfl⟩ | ⟨hs, h⟩)
    · exact .inl ⟨f, hf, rfl⟩
    · exact .inr (by rwa [if_pos hs])

/-- A shortened form is what is left of the body, in its order. -/
theorem sublist_of_mem_shortened (h : form ∈ shortened N body) : form.Sublist body := by
  induction body generalizing form with
  | nil => rw [List.mem_singleton.1 h]
  | cons s rest ih =>
    rcases mem_shortened_cons.1 h with ⟨f, hf, rfl⟩ | ⟨-, hf⟩
    · exact (ih hf).cons_cons s
    · exact (ih hf).cons s

/-- A shortened form has symbols of the body only. -/
theorem mem_of_mem_shortened (h : form ∈ shortened N body) : ∀ a ∈ form, a ∈ body :=
  fun _ ha => (sublist_of_mem_shortened h).subset ha

/-- The body reads as all that a shortened form reads as: the symbols that were dropped may stand
for the empty string. -/
theorem Reads.of_shortened {S : Interpretation} (hN : ∀ X ∈ N, S X [])
    (hf : form ∈ shortened N body) (h : Reads S form w) : Reads S body w := by
  induction body generalizing form w with
  | nil =>
    rw [List.mem_singleton.1 hf] at h
    exact h
  | cons s rest ih =>
    rcases mem_shortened_cons.1 hf with ⟨f, hkept, rfl⟩ | ⟨hs, hdropped⟩
    · cases s with
      | terminal a =>
        obtain ⟨v, rfl, hv⟩ := h
        exact ⟨v, rfl, ih hkept hv⟩
      | null => exact ih hkept h
      | nonterminal X =>
        obtain ⟨u, v, rfl, hu, hv⟩ := h
        exact ⟨u, v, rfl, hu, ih hkept hv⟩
    · have hrest := ih hdropped h
      cases s with
      | terminal a => simp [Symbol.generatesIn] at hs
      | null => exact hrest
      | nonterminal X => exact ⟨[], w, rfl, hN X (by simpa [Symbol.generatesIn] using hs), hrest⟩

/-- What a body reads as, the shortened form reads as that lacks exactly the symbols that stand for
the empty string. -/
theorem Reads.exists_shortened {T : Interpretation}
    (h : Reads (fun X u => (u = [] → X ∈ N) ∧ (u ≠ [] → T X u)) body w) :
    ∃ form ∈ shortened N body, Symbol.null ∉ form ∧ Reads T form w := by
  induction body generalizing w with
  | nil => exact ⟨[], List.mem_singleton.2 rfl, List.not_mem_nil, h⟩
  | cons s rest ih =>
    cases s with
    | terminal a =>
      obtain ⟨v, rfl, hv⟩ := h
      obtain ⟨f, hf, hnull, hreads⟩ := ih hv
      exact ⟨.terminal a :: f, mem_shortened_cons.2 (.inl ⟨f, hf, rfl⟩), by simpa using hnull,
        v, rfl, hreads⟩
    | null =>
      obtain ⟨f, hf, hnull, hreads⟩ := ih h
      exact ⟨f, mem_shortened_cons.2 (.inr ⟨rfl, hf⟩), hnull, hreads⟩
    | nonterminal X =>
      obtain ⟨u, v, rfl, ⟨hempty, hT⟩, hv⟩ := h
      obtain ⟨f, hf, hnull, hreads⟩ := ih hv
      by_cases hu : u = []
      · have hX : Symbol.generatesIn (· == .null) N (.nonterminal X) = true := by
          simpa [Symbol.generatesIn] using hempty hu
        subst hu
        exact ⟨f, mem_shortened_cons.2 (.inr ⟨hX, hf⟩), hnull, hreads⟩
      · exact ⟨.nonterminal X :: f, mem_shortened_cons.2 (.inl ⟨f, hf, rfl⟩), by simpa using hnull,
          u, v, rfl, hT hu, hreads⟩

/-- A body without nullable symbols is its only shortened form. -/
theorem shortened_eq_singleton (h : ∀ a ∈ body, a.generatesIn (· == .null) N = false) :
    shortened N body = [body] := by
  induction body with
  | nil => rfl
  | cons s rest ih =>
    obtain ⟨hs, hrest⟩ := List.forall_mem_cons.1 h
    rw [shortened, ih hrest, hs]
    rfl

/-- Where nothing is nullable, a rule with a body and without the null symbol stays as it is. -/
theorem shortenedRules_eq_singleton {r : Rule} (hne : r.body ≠ []) (hnull : Symbol.null ∉ r.body) :
    shortenedRules ∅ r = [r] := by
  have hform : shortened ∅ r.body = [r.body] := by
    refine shortened_eq_singleton fun a ha => ?_
    cases a with
    | nonterminal X => simp [Symbol.generatesIn]
    | terminal a => rfl
    | null => exact absurd ha hnull
  have hnot : r.isNull = false := by
    refine Bool.eq_false_iff.2 fun hr => hnull ?_
    rw [Rule.isNull_iff.1 hr]
    exact List.mem_singleton.2 rfl
  simp [shortenedRules, hnot, hform, hne]

end Shortened

namespace Grammar

variable {g : Grammar} {r : Rule} {X : Char} {w : List Char}

/-- Null elimination gives the shortened forms that are not empty, of the rules that are more than
the null symbol. -/
theorem mem_eliminateNull :
    r ∈ g.eliminateNull.rules ↔
      r.body ≠ [] ∧ ∃ q ∈ g.rules, q.isNull = false ∧ q.head = r.head ∧
        r.body ∈ shortened g.nullable q.body := by
  rw [eliminateNull, mem_withRules, List.mem_flatMap]
  constructor
  · rintro ⟨q, hq, hr⟩
    unfold shortenedRules at hr
    split at hr
    · exact absurd hr List.not_mem_nil
    · rename_i hnull
      obtain ⟨form, hform, rfl⟩ := List.mem_map.1 hr
      obtain ⟨hform, hne⟩ := List.mem_filter.1 hform
      exact ⟨by simpa using hne, q, hq, by simpa using hnull, rfl, hform⟩
  · rintro ⟨hne, q, hq, hnull, hhead, hform⟩
    refine ⟨q, hq, ?_⟩
    rw [shortenedRules, hnull, if_neg Bool.false_ne_true, hhead]
    exact List.mem_map.2 ⟨r.body, List.mem_filter.2 ⟨hform, by simpa using hne⟩, rfl⟩

/-- A rule whose body is the null symbol alone generates the empty string only. -/
theorem eq_nil_of_reads_isNull {S : Interpretation} (h : r.isNull = true)
    (hr : Reads S r.body w) : w = [] := by
  rw [Rule.isNull_iff.1 h] at hr
  exact hr

/-- A rule that null elimination gives generates nothing that was not derived before. -/
theorem derives_of_mem_eliminateNull (hr : r ∈ g.eliminateNull.rules)
    (h : Reads (Derives g) r.body w) : Derives g r.head w := by
  obtain ⟨-, q, hq, -, hhead, hform⟩ := mem_eliminateNull.1 hr
  rw [← hhead]
  exact Generates.rule hq (h.of_shortened (fun Y hY => mem_nullable.1 hY) hform)

/-- **Null elimination keeps the non-empty strings of every nonterminal**, even if only the rules
without the null symbol are used afterwards. -/
theorem generates_eliminateNull :
    Generates (nullFree g.eliminateNull.rules) X w ↔ w ≠ [] ∧ Derives g X w := by
  constructor
  · intro h
    refine h.least (S := fun Y v => v ≠ [] ∧ Derives g Y v) ?_
    intro r hr u hu
    obtain ⟨hr, hnull⟩ := mem_nullFree.1 hr
    exact ⟨hu.ne_nil (fun _ _ hv => hv.1) (mem_eliminateNull.1 hr).1 hnull,
      derives_of_mem_eliminateNull hr (hu.mono fun _ _ hv => hv.2)⟩
  · rintro ⟨hne, h⟩
    -- the interpretation says nothing of the empty string: those symbols are dropped
    refine Generates.least_of_generates
      (S := fun Y v => v ≠ [] → Generates (nullFree g.eliminateNull.rules) Y v) ?_ h hne
    intro q hq u hu hne
    have hnull : q.isNull = false := by
      by_contra hnull
      exact hne (eq_nil_of_reads_isNull (by simpa using hnull) hu)
    obtain ⟨form, hform, hfree, hreads⟩ :=
      Reads.exists_shortened (N := g.nullable) <| hu.mono fun Y v hv =>
        ⟨fun hv' => mem_nullable.2 (hv' ▸ hv.1), hv.2⟩
    have hform_ne : form ≠ [] := by
      rintro rfl
      exact hne hreads
    have hrule : ⟨q.head, form⟩ ∈ g.eliminateNull.rules :=
      mem_eliminateNull.2 ⟨hform_ne, q, hq, hnull, rfl, hform⟩
    exact Generates.rule (r := ⟨q.head, form⟩) (mem_nullFree.2 ⟨hrule, hfree⟩) hreads

/-- Null elimination leaves no null symbol when it only occurs as a whole body before. -/
theorem null_not_mem_eliminateNull
    (h : ∀ q ∈ g.rules, Symbol.null ∈ q.body → q.body = [.null]) (hr : r ∈ g.eliminateNull.rules) :
    Symbol.null ∉ r.body := by
  obtain ⟨-, q, hq, hnull, -, hform⟩ := mem_eliminateNull.1 hr
  intro hmem
  have hbody := h q hq (mem_of_mem_shortened hform _ hmem)
  exact absurd (Rule.isNull_iff.2 hbody) (by simp [hnull])

/-- Null elimination is exact when the null symbol only occurs as a whole body. -/
theorem generates_eliminateNull_of_null_alone
    (h : ∀ q ∈ g.rules, Symbol.null ∈ q.body → q.body = [.null]) :
    Generates g.eliminateNull.rules X w ↔ w ≠ [] ∧ Derives g X w := by
  rw [← generates_eliminateNull, nullFree_eq_self fun r => null_not_mem_eliminateNull h]

/-! ## Nothing left to eliminate -/

theorem nullable_eq_empty (hne : ∀ r ∈ g.rules, r.body ≠ [])
    (hnull : ∀ r ∈ g.rules, Symbol.null ∉ r.body) : g.nullable = ∅ := by
  refine CharSet.ext fun X => iff_of_false ?_ CharSet.not_mem_empty
  intro hX
  exact Generates.ne_nil hne hnull (mem_nullable.1 hX) rfl

/-- **A grammar without empty bodies, null symbols and duplicates stays as it is.** -/
theorem eliminateNull_eq_self (hnodup : g.rules.Nodup) (hne : ∀ r ∈ g.rules, r.body ≠ [])
    (hnull : ∀ r ∈ g.rules, Symbol.null ∉ r.body) : g.eliminateNull = g := by
  rw [eliminateNull, nullable_eq_empty hne hnull]
  exact withRules_flatMap_eq_self hnodup fun r hr =>
    shortenedRules_eq_singleton (hne r hr) (hnull r hr)

/-! ## The stage as a whole -/

/-- **Null elimination takes the empty string from every nonterminal and nothing else**, when the
null symbol only occurs as a whole body; and then nothing is left to eliminate. -/
theorem derives_eliminateNull (h : ∀ q ∈ g.rules, Symbol.null ∈ q.body → q.body = [.null]) :
    (∀ X w, Derives g.eliminateNull X w ↔ w ≠ [] ∧ Derives g X w) ∧
      (∀ r ∈ g.eliminateNull.rules, Symbol.null ∉ r.body ∧ r.body ≠ []) ∧
      g.eliminateNull.nullable = ∅ ∧ g.eliminateNull.eliminateNull = g.eliminateNull := by
  have hnull : ∀ r ∈ g.eliminateNull.rules, Symbol.null ∉ r.body :=
    fun r hr => null_not_mem_eliminateNull h hr
  have hne : ∀ r ∈ g.eliminateNull.rules, r.body ≠ [] := fun r hr => (mem_eliminateNull.1 hr).1
  refine ⟨fun X w => generates_eliminateNull_of_null_alone h, fun r hr => ⟨hnull r hr, hne r hr⟩,
    nullable_eq_empty hne hnull, eliminateNull_eq_self (nodup_withRules ..) hne hnull⟩

/-- Two nonterminals that are nullable through each other, one of them at three places of a body,
and one that is nullable by an empty body. -/
def scattered : Grammar where
  rules := [⟨'S', [.nonterminal 'A', .terminal 's', .nonterminal 'A', .nonterminal 'C',
      .nonterminal 'A']⟩,
    ⟨'A', [.nonterminal 'B', .nonterminal 'B']⟩, ⟨'A', [.terminal 'a']⟩,
    ⟨'B', [.nonterminal 'A']⟩, ⟨'B', [.null]⟩, ⟨'C', []⟩]
  start := 'S'
  marker := '#'

theorem derives_eliminateNull_scattered :
    (∀ q ∈ scattered.rules, Symbol.null ∈ q.body → q.body = [.null]) ∧
      Derives scattered 'A' [] ∧ ¬ Derives scattered.eliminateNull 'A' [] ∧
      ∀ w, w ≠ [] → (Derives scattered.eliminateNull 'S' w ↔ Derives scattered 'S' w) := by
  have halone : ∀ q ∈ scattered.rules, Symbol.null ∈ q.body → q.body = [.null] := by decide
  have hA : 'A' ∈ scattered.nullable := by decide
  obtain ⟨hderives, -⟩ := derives_eliminateNull halone
  refine ⟨halone, mem_nullable.1 hA, fun h => ((hderives 'A' []).1 h).1 rfl, fun w hw => ?_⟩
  exact (hderives 'S' w).trans (and_iff_right hw)

end Grammar

end Chomsky
