/-!
# Dropping duplicates

* `firstOccurrences` — a list without the entries that stand earlier in it.

Principal results: `mem_firstOccurrences` — nothing is lost; `nodup_firstOccurrences` — no entry
is left twice; `firstOccurrences_of_nodup` — a list without duplicates stays as it is.
-/

namespace Chomsky

variable {α : Type} [DecidableEq α]

/-- The entries of a list, each at its first place only. -/
def firstOccurrences : List α → List α
  | [] => []
  | a :: as => a :: (firstOccurrences as).filter (· ≠ a)

@[simp] theorem mem_firstOccurrences {a : α} {as : List α} :
    a ∈ firstOccurrences as ↔ a ∈ as := by
  induction as with
  | nil => simp [firstOccurrences]
  | cons b as ih =>
    by_cases h : a = b <;> simp [firstOccurrences, ih, h]

theorem nodup_firstOccurrences (as : List α) : (firstOccurrences as).Nodup := by
  induction as with
  | nil => exact .nil
  | cons a as ih =>
    exact List.nodup_cons.2 ⟨by simp, ih.filter _⟩

theorem firstOccurrences_of_nodup {as : List α} (h : as.Nodup) : firstOccurrences as = as := by
  induction as with
  | nil => rfl
  | cons a as ih =>
    obtain ⟨ha, has⟩ := List.nodup_cons.1 h
    rw [firstOccurrences, ih has]
    refine congrArg (a :: ·) (List.filter_eq_self.2 fun b hb => ?_)
    simpa using fun hba : b = a => ha (hba ▸ hb)

end Chomsky
