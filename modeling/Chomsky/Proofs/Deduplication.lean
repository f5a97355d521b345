import Chomsky.Deduplication
import Mathlib.Data.List.Basic
import Mathlib.Data.List.Induction
import Mathlib.Logic.Function.Defs

/-!
# What dropping duplicates commutes with

* `InFirstOrder` — one list has the entries of another one, each once, in the order of their first
  places.

Principal results: `firstOccurrences_append` — what a longer list adds; `firstOccurrences_filter`,
`firstOccurrences_map` — a selection and an injective map;
`firstOccurrences_flatMap_firstOccurrences` — duplicates may be dropped before entries are replaced,
if they are dropped afterwards; `inFirstOrder_iff` — a list without its duplicates is the only one
with its entries in first order.
-/

namespace Chomsky

variable {α β : Type} [DecidableEq α] [DecidableEq β] {as bs cs ds : List α} {a : α}

theorem firstOccurrences_sublist (as : List α) : (firstOccurrences as).Sublist as := by
  induction as with
  | nil => exact .slnil
  | cons a as ih => exact (List.filter_sublist.trans ih).cons_cons a

theorem firstOccurrences_firstOccurrences (as : List α) :
    firstOccurrences (firstOccurrences as) = firstOccurrences as :=
  firstOccurrences_of_nodup (nodup_firstOccurrences as)

/-- A selection from the entries keeps the first places. -/
theorem firstOccurrences_filter (p : α → Bool) (as : List α) :
    firstOccurrences (as.filter p) = (firstOccurrences as).filter p := by
  induction as with
  | nil => rfl
  | cons a as ih =>
    rw [firstOccurrences, List.filter_cons, List.filter_cons]
    split
    · rw [firstOccurrences, ih, List.filter_filter, List.filter_filter]
      simp only [Bool.and_comm]
    · rename_i ha
      rw [ih, List.filter_filter]
      refine List.filter_congr fun b _ => ?_
      by_cases hb : b = a
      · subst hb
        simp [ha]
      · simp [hb]

/-- **What a longer list adds**: the entries that are not there yet, each once. -/
theorem firstOccurrences_append (as bs : List α) :
    firstOccurrences (as ++ bs) = firstOccurrences as ++ (firstOccurrences bs).filter (· ∉ as) := by
  induction as with
  | nil => exact (List.filter_eq_self.2 fun b _ => decide_eq_true List.not_mem_nil).symm
  | cons a as ih =>
    rw [List.cons_append, firstOccurrences, firstOccurrences, ih, List.filter_append,
      List.filter_filter, List.cons_append]
    refine congrArg (a :: ·) (congrArg (_ ++ ·) (List.filter_congr fun b _ => ?_))
    simp [not_or]

/-- Entries that are all new, and without duplicates, are added as they are. -/
theorem firstOccurrences_append_of_new (hbs : bs.Nodup) (hnew : ∀ b ∈ bs, b ∉ as) :
    firstOccurrences (as ++ bs) = firstOccurrences as ++ bs := by
  rw [firstOccurrences_append, firstOccurrences_of_nodup hbs]
  refine congrArg (_ ++ ·) (List.filter_eq_self.2 fun b hb => ?_)
  simpa using hnew b hb

/-- Entries that are all there add nothing. -/
theorem firstOccurrences_append_of_subset (h : ∀ b ∈ bs, b ∈ as) :
    firstOccurrences (as ++ bs) = firstOccurrences as := by
  have hnone : (firstOccurrences bs).filter (· ∉ as) = [] := by
    refine List.filter_eq_nil_iff.2 fun b hb => ?_
    simpa using h b (mem_firstOccurrences.1 hb)
  rw [firstOccurrences_append, hnone, List.append_nil]

/-- An entry that is there adds nothing. -/
theorem firstOccurrences_concat_of_mem (ha : a ∈ as) :
    firstOccurrences (as ++ [a]) = firstOccurrences as :=
  firstOccurrences_append_of_subset fun _ hb => List.mem_singleton.1 hb ▸ ha

/-- An entry that is not there comes last. -/
theorem firstOccurrences_concat_of_not_mem (ha : a ∉ as) :
    firstOccurrences (as ++ [a]) = firstOccurrences as ++ [a] :=
  firstOccurrences_append_of_new (List.pairwise_singleton _ a)
    fun _ hb => List.mem_singleton.1 hb ▸ ha

/-- Lists that are the same without duplicates stay so when they are put together. -/
theorem firstOccurrences_append_congr (has : firstOccurrences as = firstOccurrences cs)
    (hbs : firstOccurrences bs = firstOccurrences ds) :
    firstOccurrences (as ++ bs) = firstOccurrences (cs ++ ds) := by
  have hmem : ∀ b, b ∈ as ↔ b ∈ cs := fun b => by
    rw [← mem_firstOccurrences, has, mem_firstOccurrences]
  rw [firstOccurrences_append, firstOccurrences_append, has, hbs]
  simp only [hmem]

theorem firstOccurrences_flatMap_congr {γ : Type} {as : List γ} {f f' : γ → List β}
    (h : ∀ a ∈ as, firstOccurrences (f a) = firstOccurrences (f' a)) :
    firstOccurrences (as.flatMap f) = firstOccurrences (as.flatMap f') := by
  induction as with
  | nil => rfl
  | cons a as ih =>
    obtain ⟨ha, has⟩ := List.forall_mem_cons.1 h
    exact firstOccurrences_append_congr ha (ih has)

/-- **Duplicates may be dropped before entries are replaced** when they are dropped afterwards. -/
theorem firstOccurrences_flatMap_firstOccurrences (f : α → List β) (as : List α) :
    firstOccurrences ((firstOccurrences as).flatMap f) = firstOccurrences (as.flatMap f) := by
  induction as using List.reverseRecOn with
  | nil => rfl
  | append_singleton as a ih =>
    rw [List.flatMap_append, List.flatMap_singleton]
    by_cases ha : a ∈ as
    · -- a repeated entry is replaced by what stands there already
      rw [firstOccurrences_concat_of_mem ha, ih,
        firstOccurrences_append_of_subset fun b hb => List.mem_flatMap.2 ⟨a, ha, hb⟩]
    · rw [firstOccurrences_concat_of_not_mem ha, List.flatMap_append, List.flatMap_singleton]
      exact firstOccurrences_append_congr ih rfl

/-- Duplicates may be dropped before a map when they are dropped after it. -/
theorem firstOccurrences_map_firstOccurrences (f : α → β) (as : List α) :
    firstOccurrences ((firstOccurrences as).map f) = firstOccurrences (as.map f) := by
  rw [List.map_eq_flatMap, List.map_eq_flatMap, firstOccurrences_flatMap_firstOccurrences]

/-- Duplicates are dropped at the same places when different entries get different images. -/
theorem firstOccurrences_map {f : α → β} (hf : Function.Injective f) (as : List α) :
    firstOccurrences (as.map f) = (firstOccurrences as).map f := by
  induction as with
  | nil => rfl
  | cons a as ih =>
    simp only [List.map_cons, firstOccurrences, ih, List.filter_map]
    simp [Function.comp_def, hf.eq_iff]

/-- **Duplicates may be dropped at every step** of a repeated replacement when they are dropped at
the end. -/
theorem firstOccurrences_foldl_flatMap {γ : Type} (f : γ → α → List α) (cs : List γ) (as : List α) :
    firstOccurrences (cs.foldl (fun as c => firstOccurrences (as.flatMap (f c))) as) =
      firstOccurrences (cs.foldl (fun as c => as.flatMap (f c)) as) := by
  induction cs using List.reverseRecOn with
  | nil => rfl
  | append_singleton cs c ih =>
    rw [List.foldl_concat, List.foldl_concat, firstOccurrences_firstOccurrences,
      ← firstOccurrences_flatMap_firstOccurrences, ih, firstOccurrences_flatMap_firstOccurrences]

/-! ## The order of first places -/

/-- One list has the entries of another one, each once, in the order of their first places there. -/
structure InFirstOrder (as bs : List α) : Prop where
  mem_iff : ∀ a, a ∈ bs ↔ a ∈ as
  nodup : bs.Nodup
  ordered : bs.Pairwise (as.idxOf · < as.idxOf ·)

theorem pairwise_firstOccurrences (as : List α) :
    (firstOccurrences as).Pairwise (as.idxOf · < as.idxOf ·) := by
  induction as with
  | nil => exact .nil
  | cons a as ih =>
    have hlater : ∀ b ∈ (firstOccurrences as).filter (· ≠ a), (a :: as).idxOf b =
        as.idxOf b + 1 := by
      intro b hb
      have hne : b ≠ a := by simpa using (List.mem_filter.1 hb).2
      exact List.idxOf_cons_ne as hne.symm
    refine List.pairwise_cons.2 ⟨fun b hb => ?_, ?_⟩
    · rw [List.idxOf_cons_self, hlater b hb]
      exact Nat.succ_pos _
    · refine (ih.filter _).imp_of_mem fun hb hc hlt => ?_
      rw [hlater _ hb, hlater _ hc]
      exact Nat.succ_lt_succ hlt

/-- **A list without its duplicates is the only one with its entries in first order.** -/
theorem inFirstOrder_iff : InFirstOrder as bs ↔ bs = firstOccurrences as := by
  constructor
  · intro h
    have hperm : bs.Perm (firstOccurrences as) :=
      (List.perm_ext_iff_of_nodup h.nodup (nodup_firstOccurrences as)).2 fun a => by
        rw [h.mem_iff, mem_firstOccurrences]
    refine hperm.eq_of_pairwise (fun _ _ _ _ hlt hgt => ?_) h.ordered (pairwise_firstOccurrences as)
    exact absurd hlt (Nat.lt_asymm hgt)
  · rintro rfl
    exact ⟨fun _ => mem_firstOccurrences, nodup_firstOccurrences as, pairwise_firstOccurrences as⟩

end Chomsky
