import Chomsky.Saturation
import Mathlib

/-!
# Loops that end with a quiet pass

`saturate` compares the value after a pass with the value before it, and stops after a given number
of passes in any case.  A loop does neither: a pass notes each change where it makes it, and the
loop runs until a pass has noted none.  Where no change is taken back the two agree, and the number
of passes is bounded by what the passes do, not by a limit.

* `sweep step bs` — one pass: a step for each entry of a list, which tells whether one of them
  changed something.
* `LoopEnds pass a n b` — the loop that starts with `a` ends after `n` passes, with `b`.
* `afterPasses pass n a` — what `a` has become after `n` passes.
* `Climbs f inv measure` — each change that a step makes raises a measure.

Principal results: `sweep_eq` — a sweep notes a change when the value is another one at its end;
`LoopEnds.unique` — a loop ends in one way only; `loopEnds_passes` — it ends as `saturate` does,
after as many passes as `passes` lists; `LoopEnds.add_measure_le`, `LoopEnds.le_of_quiet` — two
bounds on the number of passes.
-/

namespace Chomsky

variable {α β : Type}

/-- A step for each entry of a list, one after the other.  Tells whether a step changed
something. -/
def sweep (step : α → β → α × Bool) : List β → α → α × Bool
  | [], a => (a, false)
  | b :: bs, a =>
    let first := step a b
    let rest := sweep step bs first.1
    (rest.1, first.2 || rest.2)

/-- A loop runs passes until one of them has changed nothing; that pass is the last one. -/
inductive LoopEnds (pass : α → α × Bool) : α → Nat → α → Prop where
  | quiet {a : α} : (pass a).2 = false → LoopEnds pass a 1 (pass a).1
  | again {a b : α} {n : Nat} :
      (pass a).2 = true → LoopEnds pass (pass a).1 n b → LoopEnds pass a (n + 1) b

/-- The value after a number of passes. -/
def afterPasses (pass : α → α × Bool) (n : Nat) (a : α) : α := (fun a => (pass a).1)^[n] a

/-- Each change that a step makes to a value with the property `inv` raises the measure, and the
property is kept. -/
structure Climbs (f : α → α) (inv : α → Prop) (measure : α → Nat) : Prop where
  keeps : ∀ a, inv a → inv (f a)
  raises : ∀ a, inv a → f a ≠ a → measure a < measure (f a)

/-! ## Sweeps -/

section Sweeps

variable {f : α → β → α} {inv : α → Prop} {measure : α → Nat} {bs : List β} {a : α}

theorem climbs_id : Climbs (fun a : α => a) inv measure :=
  ⟨fun _ ha => ha, fun _ _ hne => absurd rfl hne⟩

theorem Climbs.le {f : α → α} (h : Climbs f inv measure) (ha : inv a) :
    measure a ≤ measure (f a) := by
  by_cases heq : f a = a
  · rw [heq]
  · exact Nat.le_of_lt (h.raises a ha heq)

theorem Climbs.comp {f g : α → α} (hf : Climbs f inv measure) (hg : Climbs g inv measure) :
    Climbs (fun a => g (f a)) inv measure := by
  refine ⟨fun a ha => hg.keeps _ (hf.keeps a ha), fun a ha hne => ?_⟩
  by_cases heq : f a = a
  · rw [heq] at hne ⊢
    exact hg.raises a ha hne
  · exact Nat.lt_of_lt_of_le (hf.raises a ha heq) (hg.le (hf.keeps a ha))

theorem climbs_foldl (h : ∀ b ∈ bs, Climbs (f · b) inv measure) :
    Climbs (bs.foldl f) inv measure := by
  induction bs with
  | nil => exact climbs_id
  | cons b bs ih =>
    exact (h b (List.mem_cons_self ..)).comp (ih fun c hc => h c (List.mem_cons_of_mem _ hc))

/-- Two changes in a row do not end where they began. -/
theorem Climbs.comp_ne {f g : α → α} (hf : Climbs f inv measure) (hg : Climbs g inv measure)
    (ha : inv a) : g (f a) ≠ a ↔ f a ≠ a ∨ g (f a) ≠ f a := by
  constructor
  · intro hne
    by_cases heq : f a = a
    · rw [heq] at hne ⊢
      exact .inr hne
    · exact .inl heq
  · rintro (hne | hne) heq
    -- the measure does not fall again, so the value it was raised from does not come back
    · have hlt := hf.raises a ha hne
      have hle := hg.le (hf.keeps a ha)
      rw [heq] at hle
      omega
    · have hle := hf.le ha
      have hlt := hg.raises _ (hf.keeps a ha) hne
      rw [heq] at hlt
      omega

variable [DecidableEq α]

/-- **A sweep notes a change when the value is another one at its end**, if its steps note
theirs. -/
theorem sweep_eq {step : α → β → α × Bool} (hclimbs : ∀ b ∈ bs, Climbs (f · b) inv measure)
    (hstep : ∀ b ∈ bs, ∀ a, inv a → step a b = (f a b, decide (f a b ≠ a))) (ha : inv a) :
    sweep step bs a = (bs.foldl f a, decide (bs.foldl f a ≠ a)) := by
  induction bs generalizing a with
  | nil => simp [sweep]
  | cons b bs ih =>
    obtain ⟨hb, hbs⟩ := List.forall_mem_cons.1 hclimbs
    obtain ⟨hstepb, hstepbs⟩ := List.forall_mem_cons.1 hstep
    have hne := hb.comp_ne (climbs_foldl hbs) ha
    rw [sweep, hstepb a ha, ih hbs hstepbs (hb.keeps a ha), List.foldl_cons,
      decide_eq_decide.2 hne, Bool.decide_or]

end Sweeps

/-! ## Loops -/

section Loops

variable {pass : α → α × Bool} {a b c : α} {m n k : Nat}

/-- **A loop ends in one way only.** -/
theorem LoopEnds.unique (h : LoopEnds pass a n b) (h' : LoopEnds pass a m c) : m = n ∧ c = b := by
  induction h generalizing m with
  | quiet hquiet =>
    cases h' with
    | quiet => exact ⟨rfl, rfl⟩
    | again hchange => simp [hquiet] at hchange
  | again hchange _ ih =>
    cases h' with
    | quiet hquiet => simp [hquiet] at hchange
    | again _ h' =>
      obtain ⟨rfl, rfl⟩ := ih h'
      exact ⟨rfl, rfl⟩

theorem LoopEnds.iff (h : LoopEnds pass a n b) : LoopEnds pass a m c ↔ m = n ∧ c = b := by
  constructor
  · exact h.unique
  · rintro ⟨rfl, rfl⟩
    exact h

/-- A loop ends after its first quiet pass. -/
theorem LoopEnds.le_of_quiet (h : LoopEnds pass a n b)
    (hquiet : (pass (afterPasses pass k a)).2 = false) : n ≤ k + 1 := by
  induction h generalizing k with
  | quiet => omega
  | @again a b n hchange _ ih =>
    cases k with
    | zero =>
      have hquiet : (pass a).2 = false := hquiet
      simp [hquiet] at hchange
    | succ k => exact Nat.succ_le_succ (ih hquiet)

theorem afterPasses_succ (pass : α → α × Bool) (n : Nat) (a : α) :
    afterPasses pass (n + 1) a = (pass (afterPasses pass n a)).1 :=
  Function.iterate_succ_apply' ..

variable [DecidableEq α] {f : α → α} {inv : α → Prop} {measure : α → Nat} {bound limit : Nat}

/-- Each pass but the last one raises the measure, so there are no more passes than it has room
for. -/
theorem LoopEnds.add_measure_le (hclimbs : Climbs f inv measure)
    (hpass : ∀ a, inv a → pass a = (f a, decide (f a ≠ a))) (h : LoopEnds pass a n b) (ha : inv a) :
    n + measure a ≤ measure b + 1 := by
  induction h with
  | quiet =>
    rw [hpass _ ha]
    have hle := hclimbs.le ha
    show 1 + measure _ ≤ measure (f _) + 1
    omega
  | @again a b n hchange _ ih =>
    rw [hpass a ha] at hchange ih
    have hlt := hclimbs.raises a ha (of_decide_eq_true hchange)
    have hrest := ih (hclimbs.keeps a ha)
    show n + 1 + measure a ≤ measure b + 1
    have hrest : n + measure (f a) ≤ measure b + 1 := hrest
    omega

/-- **The loop ends, as `saturate` does**, after as many passes as are listed, when the measure has
a bound and the limit leaves room for it. -/
theorem loopEnds_passes (hclimbs : Climbs f inv measure) (hle : ∀ a, inv a → measure a ≤ bound)
    (hpass : ∀ a, inv a → pass a = (f a, decide (f a ≠ a))) (ha : inv a)
    (hlimit : bound < limit + measure a) :
    LoopEnds pass a (passes f limit a).length (saturate f limit a) := by
  -- a pass that changes something takes one off the limit and adds one to the measure at least
  induction limit generalizing a with
  | zero => exact absurd (hle a ha) (by omega)
  | succ limit ih =>
    rw [saturate_succ, passes]
    by_cases hfixed : f a = a
    · have hquiet : pass a = (a, false) := by simp [hpass a ha, hfixed]
      have hends : LoopEnds pass a 1 (pass a).1 := .quiet (by rw [hquiet])
      rw [if_pos hfixed, if_pos hfixed]
      rwa [hquiet] at hends
    · have hchange : pass a = (f a, true) := by simp [hpass a ha, hfixed]
      have hlt := hclimbs.raises a ha hfixed
      have hrest := ih (hclimbs.keeps a ha) (by omega)
      rw [if_neg hfixed, if_neg hfixed, List.length_cons]
      refine .again (by rw [hchange]) ?_
      rwa [hchange]

end Loops

end Chomsky
