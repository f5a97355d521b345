import Chomsky.Grammar.Builder
import Chomsky.NameSupply

/-!
# Calls that change an object in place

`addRule`, `fresh` and `standIn` are functions: they give a changed object or an error.  A program
holds the object in a variable, and a call changes it step by step; where a step fails, the steps
before it have been done.  Here the three calls are written that way.  Each of them does all that
can fail before it changes anything, so a call that fails leaves its object as it was.

* `InPlace σ` — calls on an object of type `σ`; an object is left also by a call that fails.
* `InPlace.call` — the answer of a call, and the object that it leaves.
* `InPlace.Implements` — a call does in place what a function says, and nothing when it fails.
* `InPlace.replaceBy` — the call that puts what a function gives in the place of its object.

Principal results: `Grammar.addRuleInPlace_implements`, `NameSupply.freshInPlace_implements`,
`NameSupply.standInInPlace_implements` — the three calls; `InPlace.Implements.eq_of_error` — a call
that fails leaves its object as it was.
-/

namespace Chomsky

/-- Calls on an object that is held in place. -/
abbrev InPlace (σ : Type) : Type → Type := ExceptT GrammarError (StateM σ)

namespace InPlace

variable {σ α β : Type}

/-- The answer of a call, and the object that it leaves. -/
def call (m : InPlace σ α) (s : σ) : Except GrammarError α × σ := m.run.run s

@[simp] theorem call_pure (a : α) (s : σ) : (pure a : InPlace σ α).call s = (.ok a, s) := rfl

@[simp] theorem call_throw (e : GrammarError) (s : σ) :
    (throw e : InPlace σ α).call s = (.error e, s) :=
  rfl

@[simp] theorem call_get (s : σ) : (get : InPlace σ σ).call s = (.ok s, s) := rfl

@[simp] theorem call_set (s t : σ) : (set t : InPlace σ Unit).call s = (.ok (), t) := rfl

@[simp] theorem call_modify (f : σ → σ) (s : σ) :
    (modify f : InPlace σ Unit).call s = (.ok (), f s) :=
  rfl

/-- What comes after a call sees the object that the call leaves; after a failure it is not done. -/
@[simp] theorem call_bind (m : InPlace σ α) (rest : α → InPlace σ β) (s : σ) :
    (m >>= rest).call s =
      match m.call s with
      | (.error e, t) => (.error e, t)
      | (.ok a, t) => (rest a).call t := by
  unfold call
  rw [ExceptT.run_bind, StateT.run_bind]
  rcases m.run.run s with ⟨e | a, t⟩ <;> rfl

/-- A call does in place what a function says, and nothing when it fails. -/
def Implements (m : InPlace σ α) (f : σ → Except GrammarError (α × σ)) : Prop :=
  ∀ s, m.call s =
    match f s with
    | .error e => (.error e, s)
    | .ok (a, t) => (.ok a, t)

variable {m : InPlace σ α} {f : σ → Except GrammarError (α × σ)} {s t : σ} {a : α}
  {e : GrammarError}

/-- **A call that fails leaves its object as it was.** -/
theorem Implements.eq_of_error (h : m.Implements f) (hcall : m.call s = (.error e, t)) :
    t = s ∧ f s = .error e := by
  rw [h s] at hcall
  split at hcall
  · rename_i e' he
    cases hcall
    exact ⟨rfl, he⟩
  · cases hcall

theorem Implements.eq_of_ok (h : m.Implements f) (hcall : m.call s = (.ok a, t)) :
    f s = .ok (a, t) := by
  rw [h s] at hcall
  split at hcall
  · cases hcall
  · rename_i b u hb
    cases hcall
    exact hb

/-- A new object is computed from the one that is held, and takes its place. -/
def replaceBy (f : σ → Except GrammarError σ) : InPlace σ Unit := do
  match f (← get) with
  | .error e => throw e
  | .ok t => set t

theorem replaceBy_implements (f : σ → Except GrammarError σ) :
    (replaceBy f).Implements fun s => (f s).map ((), ·) := by
  intro s
  unfold replaceBy
  cases hf : f s <;> simp [hf, Except.map]

end InPlace

/-! ## Rules -/

namespace Grammar

/-- One more rule at the end of the grammar that is held: the body is read, the rule is made, and
only then the grammar is changed. -/
def addRuleInPlace (head : Char) (t : Text) : InPlace Grammar Unit := do
  match bodyOfText (← get).marker t with
  | .error reason => throw (.malformedRule 0 reason)
  | .ok body =>
    match Rule.make head body with
    | .error reason => throw (.malformedRule 0 reason)
    | .ok rule => modify fun g => { g with rules := g.rules ++ [rule] }

theorem addRuleInPlace_implements (head : Char) (t : Text) :
    (addRuleInPlace head t).Implements fun g => (g.addRule head t).map ((), ·) := by
  intro g
  unfold addRule addRuleInPlace
  cases hbody : bodyOfText g.marker t with
  | error reason => simp [hbody, Except.map]
  | ok body =>
    cases hrule : Rule.make head body with
    | error reason => simp [hbody, hrule, Except.map]
    | ok rule => simp [hbody, hrule, Except.map]

end Grammar

/-! ## Names -/

namespace NameSupply

/-- Grants the first letter that is not taken, and takes it. -/
def freshInPlace (purpose : Purpose) : InPlace NameSupply Char := do
  match alphabet.find? (· ∉ (← get).taken) with
  | none => throw (.exhausted purpose)
  | some name =>
    modify fun s => { s with taken := s.taken.insert name }
    modify fun s => { s with granted := s.granted ++ [(name, purpose)] }
    return name

/-- The nonterminal for a terminal; a new one is entered into the table once it is granted. -/
def standInInPlace (letter : Char) : InPlace NameSupply Char := do
  match (← get).standIns.lookup letter with
  | some name => return name
  | none =>
    let name ← freshInPlace (.terminal letter)
    modify fun s => { s with standIns := insertStandIn letter name s.standIns }
    return name

theorem freshInPlace_implements (purpose : Purpose) :
    (freshInPlace purpose).Implements fun s => s.fresh purpose := by
  intro s
  unfold fresh freshInPlace
  simp only [InPlace.call_bind, InPlace.call_get]
  cases alphabet.find? (· ∉ s.taken) with
  | none => simp
  | some name => simp only [InPlace.call_bind, InPlace.call_modify, InPlace.call_pure]

theorem standInInPlace_implements (letter : Char) :
    (standInInPlace letter).Implements fun s => s.standIn letter := by
  intro s
  have hfresh := freshInPlace_implements (.terminal letter) s
  unfold standIn standInInPlace
  simp only [InPlace.call_bind, InPlace.call_get]
  cases s.standIns.lookup letter with
  | some name => simp
  | none =>
    simp only [InPlace.call_bind, hfresh]
    cases s.fresh (.terminal letter) with
    | error e => simp
    | ok p => simp

end NameSupply

end Chomsky
