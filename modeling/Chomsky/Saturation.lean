/-!
# Repeated passes

A set of symbols is often computed by running a pass over the rules again and again until a pass
adds nothing.

* `passes step limit a` — the values after the first, second, … pass from `a`, up to and including
  the first pass that changes nothing, or `limit` passes.
* `saturate step limit a` — the value after the last pass.

Principal results: `saturate_fixed` — when each changing pass raises a measure that stays below
`limit`, the last value is a fixed point of the pass; `saturate_induction` — a property that every
pass keeps holds of the last value.
-/

namespace Chomsky

variable {α : Type} [DecidableEq α]

/-- The values after successive passes; the first pass that changes nothing is the last one. -/
def passes (step : α → α) : Nat → α → List α
  | 0, _ => []
  | limit + 1, a => if step a = a then [a] else step a :: passes step limit (step a)

/-- The value after the last pass. -/
def saturate (step : α → α) (limit : Nat) (a : α) : α :=
  (passes step limit a).getLastD a

theorem saturate_zero (step : α → α) (a : α) : saturate step 0 a = a := rfl

theorem saturate_succ (step : α → α) (limit : Nat) (a : α) :
    saturate step (limit + 1) a = if step a = a then a else saturate step limit (step a) := by
  unfold saturate
  rw [passes]
  split
  · rfl
  · cases h : passes step limit (step a) <;> simp [List.getLastD]

/-- A property that every pass keeps holds of the last value. -/
theorem saturate_induction {step : α → α} {P : α → Prop} (hstep : ∀ a, P a → P (step a))
    (limit : Nat) {a : α} (ha : P a) : P (saturate step limit a) := by
  induction limit generalizing a with
  | zero => exact ha
  | succ limit ih =>
    rw [saturate_succ]
    split
    · exact ha
    · exact ih (hstep a ha)

/-- **Passes reach a fixed point** when each changing pass raises a bounded measure: `inv` is kept
by every pass and bounds the measure. -/
theorem saturate_fixed {step : α → α} {inv : α → Prop} {measure : α → Nat} {bound : Nat}
    (hinv : ∀ a, inv a → inv (step a)) (hle : ∀ a, inv a → measure a ≤ bound)
    (hlt : ∀ a, inv a → step a ≠ a → measure a < measure (step a))
    {limit : Nat} {a : α} (ha : inv a) (h : bound < limit + measure a) :
    step (saturate step limit a) = saturate step limit a := by
  induction limit generalizing a with
  | zero => exact absurd (hle a ha) (by omega)
  | succ limit ih =>
    rw [saturate_succ]
    split
    · assumption
    · rename_i hne
      have := hlt a ha hne
      exact ih (hinv a ha) (by omega)

end Chomsky
