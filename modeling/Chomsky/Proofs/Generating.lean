import Chomsky.Generating
import Chomsky.Proofs.Language
import Chomsky.Proofs.Saturation

/-!
# What the generating nonterminals derive

The generating nonterminals are the least set that is closed under the rules, so they are those
that derive a string of the wanted kind.

* `Symbol.GeneratesFrom` — a symbol is a leaf, or a nonterminal with a given property.

Principal results: `head_mem_generating`, `generating_induction` — the generating nonterminals are
the least closed set; `mem_nullable` — the nullable nonterminals are those that derive the empty
string; `mem_productive` — the productive ones are those that derive a string without the null
symbol.
-/

namespace Chomsky

/-- A symbol is a leaf, or a nonterminal with a given property. -/
def Symbol.GeneratesFrom (leaf : Symbol → Bool) (P : Char → Prop) : Symbol → Prop
  | nonterminal name => P name
  | other => leaf other = true

theorem Symbol.generatesIn_iff {leaf : Symbol → Bool} {s : CharSet} {a : Symbol} :
    a.generatesIn leaf s = true ↔ a.GeneratesFrom leaf (· ∈ s) := by
  cases a <;> simp [generatesIn, GeneratesFrom]

theorem Symbol.GeneratesFrom.imp {leaf : Symbol → Bool} {P Q : Char → Prop} {a : Symbol}
    (h : ∀ c, P c → Q c) (ha : a.GeneratesFrom leaf P) : a.GeneratesFrom leaf Q := by
  cases a with
  | nonterminal name => exact h name ha
  | terminal letter => exact ha
  | null => exact ha

theorem body_all_generatesIn {leaf : Symbol → Bool} {s : CharSet} {body : List Symbol} :
    body.all (·.generatesIn leaf s) = true ↔ ∀ a ∈ body, a.GeneratesFrom leaf (· ∈ s) := by
  simp only [List.all_eq_true, Symbol.generatesIn_iff]

/-! ## One pass -/

theorem subset_generatingStep {leaf : Symbol → Bool} {s : CharSet} {r : Rule} {c : Char}
    (h : c ∈ s) : c ∈ generatingStep leaf s r := by
  unfold generatingStep
  split
  · exact CharSet.mem_insert.2 (.inr h)
  · exact h

/-- A pass adds the head of each rule whose body generates. -/
theorem head_mem_generatingPass {leaf : Symbol → Bool} {rules : List Rule} {s : CharSet} {r : Rule}
    (hr : r ∈ rules) (h : ∀ a ∈ r.body, a.GeneratesFrom leaf (· ∈ s)) :
    r.head ∈ generatingPass leaf rules s := by
  induction rules generalizing s with
  | nil => exact absurd hr List.not_mem_nil
  | cons q rules ih =>
    show r.head ∈ generatingPass leaf rules (generatingStep leaf s q)
    rcases List.mem_cons.1 hr with rfl | hr
    · refine subset_generatingPass ?_
      rw [generatingStep, if_pos (body_all_generatesIn.2 h)]
      exact CharSet.mem_insert.2 (.inl rfl)
    · exact ih hr fun a ha => (h a ha).imp fun _ => subset_generatingStep

/-- A property that passes from bodies to heads is kept by a pass. -/
theorem generatingPass_induction {leaf : Symbol → Bool} {rules : List Rule} {P : Char → Prop}
    (h : ∀ r ∈ rules, (∀ a ∈ r.body, a.GeneratesFrom leaf P) → P r.head) {s : CharSet}
    (hs : ∀ c ∈ s, P c) : ∀ c ∈ generatingPass leaf rules s, P c := by
  induction rules generalizing s with
  | nil => exact hs
  | cons q rules ih =>
    refine ih (fun r hr => h r (List.mem_cons_of_mem _ hr)) ?_
    intro c hc
    unfold generatingStep at hc
    split at hc
    · rename_i hall
      rcases CharSet.mem_insert.1 hc with rfl | hc
      · exact h q (List.mem_cons_self ..) fun a ha => (body_all_generatesIn.1 hall a ha).imp hs
      · exact hs c hc
    · exact hs c hc

namespace Grammar

/-! ## The least closed set -/

section Generating

variable {g : Grammar} {leaf : Symbol → Bool}

theorem generatingPass_generating (g : Grammar) (leaf : Symbol → Bool) :
    generatingPass leaf g.rules (g.generating leaf) = g.generating leaf := by
  refine saturate_set_fixed (g.rules.map Rule.head) (fun _ _ => subset_generatingPass) ?_
    (fun _ hc => absurd hc CharSet.not_mem_empty) (by rw [List.length_map]; omega)
  intro s hs c hc
  rcases mem_generatingPass hc with hc | ⟨r, hr, rfl⟩
  · exact hs c hc
  · exact List.mem_map_of_mem hr

/-- The generating nonterminals are closed under the rules. -/
theorem head_mem_generating {r : Rule} (hr : r ∈ g.rules)
    (h : ∀ a ∈ r.body, a.GeneratesFrom leaf (· ∈ g.generating leaf)) :
    r.head ∈ g.generating leaf := by
  rw [← generatingPass_generating g leaf]
  exact head_mem_generatingPass hr h

/-- A property that passes from bodies to heads holds of all generating nonterminals. -/
theorem generating_induction {P : Char → Prop}
    (h : ∀ r ∈ g.rules, (∀ a ∈ r.body, a.GeneratesFrom leaf P) → P r.head) :
    ∀ c ∈ g.generating leaf, P c :=
  saturate_induction (P := fun s : CharSet => ∀ c ∈ s, P c)
    (fun _ hs => generatingPass_induction h hs) _
    (fun _ hc => absurd hc CharSet.not_mem_empty)

end Generating

/-! ## Nullable nonterminals -/

theorem reads_nil_iff {S : Interpretation} {body : List Symbol} :
    Reads S body [] ↔ ∀ a ∈ body, a.GeneratesFrom (· == .null) (S · []) := by
  induction body with
  | nil => simp [Reads]
  | cons s rest ih =>
    rw [List.forall_mem_cons]
    cases s with
    | terminal a => simp [Reads, Symbol.GeneratesFrom]
    | null => simp [Reads, Symbol.GeneratesFrom, ih]
    | nonterminal X =>
      constructor
      · rintro ⟨u, v, huv, hu, hv⟩
        obtain ⟨rfl, rfl⟩ := List.append_eq_nil_iff.1 huv.symm
        exact ⟨hu, ih.1 hv⟩
      · rintro ⟨hu, hv⟩
        exact ⟨[], [], rfl, hu, ih.2 hv⟩

/-- **The nullable nonterminals are those that derive the empty string.** -/
theorem mem_nullable {g : Grammar} {X : Char} : X ∈ g.nullable ↔ Derives g X [] := by
  constructor
  · refine generating_induction (P := (Derives g · [])) ?_ X
    intro r hr hbody
    exact Generates.rule hr (reads_nil_iff.2 hbody)
  · intro h
    refine Generates.least (S := fun Y w => w = [] → Y ∈ g.nullable) ?_ h rfl
    rintro r hr _ hbody rfl
    exact head_mem_generating hr fun a ha =>
      (reads_nil_iff.1 hbody a ha).imp fun Y hY => hY rfl

/-- Which nonterminals are nullable depends on the set of the rules only. -/
theorem nullable_congr {g g' : Grammar} (h : ∀ r, r ∈ g.rules ↔ r ∈ g'.rules) :
    g.nullable = g'.nullable :=
  CharSet.ext fun X => by
    rw [mem_nullable, mem_nullable, derives_eq_generates, derives_eq_generates, generates_congr h]

/-! ## Productive nonterminals -/

/-- A body reads as some string without the null symbol when it consists of terminals and of
nonterminals that stand for some string. -/
theorem exists_reads_iff {S : Interpretation} {body : List Symbol} :
    (Symbol.null ∉ body ∧ ∃ w, Reads S body w) ↔
      ∀ a ∈ body, a.GeneratesFrom Symbol.isTerminal (fun X => ∃ w, S X w) := by
  induction body with
  | nil => simp [Reads]
  | cons s rest ih =>
    rw [List.forall_mem_cons, ← ih]
    cases s with
    | terminal a => simp [Reads, Symbol.GeneratesFrom, Symbol.isTerminal]
    | null => simp [Symbol.GeneratesFrom, Symbol.isTerminal]
    | nonterminal X =>
      constructor
      · rintro ⟨hnull, _, u, v, -, hu, hv⟩
        exact ⟨⟨u, hu⟩, fun h => hnull (List.mem_cons_of_mem _ h), v, hv⟩
      · rintro ⟨⟨u, hu⟩, hnull, v, hv⟩
        exact ⟨by simpa using hnull, u ++ v, u, v, rfl, hu, hv⟩

/-- **The productive nonterminals are those that derive a string without the null symbol.** -/
theorem mem_productive {g : Grammar} {X : Char} :
    X ∈ g.productive ↔ ∃ w, Generates (nullFree g.rules) X w := by
  constructor
  · refine generating_induction (P := fun Y => ∃ w, Generates (nullFree g.rules) Y w) ?_ X
    intro r hr hbody
    obtain ⟨hnull, w, hw⟩ := exists_reads_iff.2 hbody
    exact ⟨w, .rule (mem_nullFree.2 ⟨hr, hnull⟩) hw⟩
  · rintro ⟨w, hw⟩
    refine Generates.least (S := fun Y _ => Y ∈ g.productive) ?_ hw
    intro r hr u hbody
    obtain ⟨hr, hnull⟩ := mem_nullFree.1 hr
    exact head_mem_generating hr fun a ha =>
      (exists_reads_iff.1 ⟨hnull, u, hbody⟩ a ha).imp fun Y ⟨_, hY⟩ => hY

end Grammar

end Chomsky
