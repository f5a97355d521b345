import Chomsky.Proofs.Deduplication
import Chomsky.Proofs.NullElimination

/-!
# The shortened forms of a body, one by one

Null elimination gives all deletions of nullable symbols from the bodies, each at its first place.
They could be listed one by one, with a choice to keep or to drop each occurrence of a nullable
symbol, and the duplicates dropped at the end.  A long body has too many of them for that.  So they
are built symbol by symbol, and equal beginnings are merged at every symbol.

* `choices` — all ways of keeping or dropping, in their order.
* `deletions` — what the choices leave of a body.
* `mergedForms` — the forms that are built symbol by symbol.

Principal results: `length_choices`, `mem_choices`, `pairwise_choices` — the choices are all there,
once, in lexicographic order; `mergedForms_eq` — early merging keeps the same first places as one
removal of duplicates at the end; `shortened_eq` — so do the shortened forms;
`length_mergedForms_replicate_le` — a run of one symbol has few forms; `Grammar.rules_eliminateNull`
— the rules of null elimination are the deletions in their order.
-/

namespace Chomsky

/-! ## Choices -/

/-- What happens to an occurrence of a nullable symbol. -/
inductive Choice where
  | keep
  | drop
  deriving DecidableEq, Repr

/-- To keep comes before to drop. -/
def Choice.Before (a b : Choice) : Prop := a = keep ∧ b = drop

/-- All choices for a number of occurrences. -/
def choices : Nat → List (List Choice)
  | 0 => [[]]
  | k + 1 => (choices k).map (.keep :: ·) ++ (choices k).map (.drop :: ·)

theorem length_choices (k : Nat) : (choices k).length = 2 ^ k := by
  induction k with
  | zero => rfl
  | succ k ih =>
    rw [choices, List.length_append, List.length_map, List.length_map, ih]
    omega

theorem mem_choices {k : Nat} {cs : List Choice} : cs ∈ choices k ↔ cs.length = k := by
  induction k generalizing cs with
  | zero => simp [choices]
  | succ k ih =>
    cases cs with
    | nil => simp [choices]
    | cons c cs => cases c <;> simp [choices, ih]

/-- **The choices stand in lexicographic order.** -/
theorem pairwise_choices (k : Nat) : (choices k).Pairwise (List.Lex Choice.Before) := by
  induction k with
  | zero => exact List.pairwise_singleton ..
  | succ k ih =>
    have hcons : ∀ c, ((choices k).map (c :: ·)).Pairwise (List.Lex Choice.Before) := by
      intro c
      exact List.pairwise_map.2 (ih.imp fun h => .cons h)
    -- the first choices differ between the two halves
    refine List.pairwise_append.2 ⟨hcons .keep, hcons .drop, ?_⟩
    intro as has bs hbs
    obtain ⟨as, -, rfl⟩ := List.mem_map.1 has
    obtain ⟨bs, -, rfl⟩ := List.mem_map.1 hbs
    exact .rel ⟨rfl, rfl⟩

/-! ## Deletions -/

/-- The null symbol is nullable, and so are the nonterminals of a set. -/
abbrev Symbol.nullableIn (N : CharSet) (s : Symbol) : Bool := s.generatesIn (· == .null) N

/-- What is left of a body when the choices are carried out at the occurrences of nullable symbols,
from left to right. -/
def carryOut (N : CharSet) : List Symbol → List Choice → List Symbol
  | [], _ => []
  | s :: rest, cs =>
    if s.nullableIn N then
      match cs with
      | .drop :: cs => carryOut N rest cs
      | .keep :: cs => s :: carryOut N rest cs
      | [] => s :: carryOut N rest []
    else s :: carryOut N rest cs

/-- The number of occurrences of nullable symbols. -/
def nullableCount (N : CharSet) (body : List Symbol) : Nat := body.countP (·.nullableIn N)

/-- What all choices leave of a body, in the order of the choices. -/
def deletions (N : CharSet) (body : List Symbol) : List (List Symbol) :=
  (choices (nullableCount N body)).map (carryOut N body)

section Forms

variable {N : CharSet} {s : Symbol} {body form rest : List Symbol}

theorem deletions_cons_of_nullable (hs : s.nullableIn N = true) :
    deletions N (s :: rest) = (deletions N rest).map (s :: ·) ++ deletions N rest := by
  have hcount : nullableCount N (s :: rest) = nullableCount N rest + 1 := List.countP_cons_of_pos hs
  simp only [deletions, hcount, choices, List.map_append, List.map_map, Function.comp_def, carryOut,
    hs, if_true]

theorem deletions_cons_of_not_nullable (hs : s.nullableIn N = false) :
    deletions N (s :: rest) = (deletions N rest).map (s :: ·) := by
  have hcount : nullableCount N (s :: rest) = nullableCount N rest :=
    List.countP_cons_of_neg (Bool.eq_false_iff.1 hs)
  simp only [deletions, hcount, List.map_map, Function.comp_def, carryOut, hs, Bool.false_eq_true,
    if_false]

/-- **The shortened forms are the deletions without duplicates**, although duplicates are dropped
from the forms of every part of the body. -/
theorem shortened_eq (N : CharSet) (body : List Symbol) :
    shortened N body = firstOccurrences (deletions N body) := by
  induction body with
  | nil => rfl
  | cons s rest ih =>
    have hkept : firstOccurrences ((shortened N rest).map (s :: ·)) =
        firstOccurrences ((deletions N rest).map (s :: ·)) := by
      rw [ih, firstOccurrences_map_firstOccurrences]
    rw [shortened]
    by_cases hs : s.nullableIn N = true
    · rw [if_pos hs, deletions_cons_of_nullable hs]
      exact firstOccurrences_append_congr hkept (by rw [ih, firstOccurrences_firstOccurrences])
    · rw [if_neg hs, List.append_nil, deletions_cons_of_not_nullable (Bool.eq_false_iff.2 hs),
        hkept]

/-! ## Forms symbol by symbol -/

/-- One more symbol is kept after each form, or dropped if it is nullable. -/
def extendForms (N : CharSet) (forms : List (List Symbol)) (s : Symbol) : List (List Symbol) :=
  forms.flatMap fun form => if s.nullableIn N then [form ++ [s], form] else [form ++ [s]]

/-- The forms of a body, built from left to right; equal forms are merged at every symbol. -/
def mergedForms (N : CharSet) (body : List Symbol) : List (List Symbol) :=
  body.foldl (fun forms s => firstOccurrences (extendForms N forms s)) [[]]

/-- Without merging, the forms after a body are the deletions of it behind each form before it. -/
theorem foldl_extendForms (N : CharSet) (body : List Symbol) (forms : List (List Symbol)) :
    body.foldl (extendForms N) forms =
      forms.flatMap fun form => (deletions N body).map (form ++ ·) := by
  induction body generalizing forms with
  | nil => simp [deletions, nullableCount, choices, carryOut]
  | cons s rest ih =>
    rw [List.foldl_cons, ih, extendForms, List.flatMap_assoc]
    refine congrArg (forms.flatMap ·) (funext fun form => ?_)
    cases hs : s.nullableIn N with
    | false => simp [deletions_cons_of_not_nullable hs, Function.comp_def]
    | true => simp [deletions_cons_of_nullable hs, Function.comp_def]

theorem nodup_mergedForms (N : CharSet) (body : List Symbol) : (mergedForms N body).Nodup := by
  induction body using List.reverseRecOn with
  | nil => exact List.pairwise_singleton ..
  | append_singleton body s _ =>
    rw [mergedForms, List.foldl_concat]
    exact nodup_firstOccurrences _

/-- **Early merging keeps the same first places** as one removal of duplicates at the end. -/
theorem mergedForms_eq (N : CharSet) (body : List Symbol) :
    mergedForms N body = firstOccurrences (deletions N body) := by
  have hdeletions : body.foldl (extendForms N) [[]] = deletions N body := by
    simp [foldl_extendForms]
  rw [← hdeletions, ← firstOccurrences_of_nodup (nodup_mergedForms N body)]
  exact firstOccurrences_foldl_flatMap _ body [[]]

/-- Of eight deletions two repeat earlier ones. -/
example :
    (mergedForms (.ofList ['A'])
      [.nonterminal 'A', .nonterminal 'A', .terminal 'b', .nonterminal 'A']).map
        (·.map (·.toChar '#')) =
      [['A', 'A', 'b', 'A'], ['A', 'A', 'b'], ['A', 'b', 'A'], ['A', 'b'], ['b', 'A'], ['b']] := by
  decide

/-- **A run of one symbol has few forms**: they differ in their lengths only. -/
theorem length_mergedForms_replicate_le (N : CharSet) (s : Symbol) (n : Nat) :
    (mergedForms N (List.replicate n s)).length ≤ n + 1 := by
  have hlengths : mergedForms N (List.replicate n s) ⊆
      (List.range (n + 1)).map (List.replicate · s) := by
    intro form hform
    rw [mergedForms_eq, ← shortened_eq] at hform
    obtain ⟨m, hm, rfl⟩ := List.sublist_replicate_iff.1 (sublist_of_mem_shortened hform)
    exact List.mem_map.2 ⟨m, List.mem_range.2 (Nat.lt_succ_of_le hm), rfl⟩
  simpa using ((nodup_mergedForms N _).subperm hlengths).length_le

end Forms

/-! ## Rules -/

/-- A rule for each form of the body that is not empty. -/
def rulesOfForms (forms : List Symbol → List (List Symbol)) (r : Rule) : List Rule :=
  ((forms r.body).filter (!·.isEmpty)).map (⟨r.head, ·⟩)

theorem firstOccurrences_rulesOfForms (forms : List Symbol → List (List Symbol)) (r : Rule) :
    firstOccurrences (rulesOfForms forms r) =
      rulesOfForms (fun body => firstOccurrences (forms body)) r := by
  have hinj : Function.Injective (⟨r.head, ·⟩ : List Symbol → Rule) :=
    fun _ _ h => (Rule.mk.inj h).2
  rw [rulesOfForms, firstOccurrences_map hinj, firstOccurrences_filter, rulesOfForms]

theorem flatMap_shortenedRules (N : CharSet) (rules : List Rule) :
    rules.flatMap (shortenedRules N) =
      (rules.filter (!·.isNull)).flatMap (rulesOfForms (shortened N)) := by
  induction rules with
  | nil => rfl
  | cons r rules ih =>
    rw [List.flatMap_cons, ih, shortenedRules]
    cases hr : r.isNull <;> simp [hr, rulesOfForms]

namespace Grammar

/-- Forms that are the shortened ones but for duplicates give the same rules. -/
theorem rules_eliminateNull_of_forms (g : Grammar) {forms : List Symbol → List (List Symbol)}
    (h : ∀ body, firstOccurrences (forms body) = shortened g.nullable body) :
    g.eliminateNull.rules =
      firstOccurrences ((g.rules.filter (!·.isNull)).flatMap (rulesOfForms forms)) := by
  have hforms : (fun body => firstOccurrences (forms body)) = shortened g.nullable := funext h
  rw [eliminateNull, withRules, flatMap_shortenedRules]
  refine firstOccurrences_flatMap_congr fun r _ => ?_
  calc firstOccurrences (rulesOfForms (shortened g.nullable) r)
    _ = firstOccurrences (firstOccurrences (rulesOfForms forms r)) := by
      rw [firstOccurrences_rulesOfForms forms, hforms]
    _ = firstOccurrences (rulesOfForms forms r) := firstOccurrences_firstOccurrences _

/-- **The rules of null elimination are the deletions in their order**, each at its first place: of
every rule that is more than the null symbol, all ways of keeping or dropping its nullable symbols,
in lexicographic order, without the empty body.  To merge equal forms at every symbol changes
nothing. -/
theorem rules_eliminateNull (g : Grammar) :
    g.eliminateNull.rules = firstOccurrences
        ((g.rules.filter (!·.isNull)).flatMap (rulesOfForms (deletions g.nullable))) ∧
      g.eliminateNull.rules = firstOccurrences
        ((g.rules.filter (!·.isNull)).flatMap (rulesOfForms (mergedForms g.nullable))) ∧
      (∀ N body, mergedForms N body = firstOccurrences (deletions N body)) ∧
      ∀ k, (choices k).length = 2 ^ k ∧ (∀ cs, cs ∈ choices k ↔ cs.length = k) ∧
        (choices k).Pairwise (List.Lex Choice.Before) := by
  refine ⟨g.rules_eliminateNull_of_forms fun body => (shortened_eq _ body).symm,
    g.rules_eliminateNull_of_forms fun body => ?_, mergedForms_eq,
    fun k => ⟨length_choices k, fun _ => mem_choices, pairwise_choices k⟩⟩
  rw [mergedForms_eq, firstOccurrences_firstOccurrences, shortened_eq]

end Grammar

end Chomsky
