import Chomsky.Proofs.InPlace
import Chomsky.Proofs.NameSupply

/-!
# Any sequence of calls on a supply of names

A supply is asked for new names and for stand-ins, in any order and also after it was used up.  Its
two tables have to agree at every point: a stand-in that is remembered must be taken, and nothing
may be remembered that was not granted.  Both are said here by the history of the calls, which the
supply does not keep.

* `Call`, `Call.perform` — the calls on a supply.
* `Exchange`, `NameSupply.run` — calls with their answers; a run goes on after a failure.
* `Used`, `Call.NeedsName` — what the history says of a letter, and of a call.
* `Apart`, `Stable`, `Justified` — names that are not given twice, stand-ins that stay, answers that
  the history calls for.
* `Records` — a supply agrees with a history.

Principal results: `Call.perform_eq` — what a call does; `Records.step` — one call; `Records.run` —
any sequence of calls; `answers_of_calls` — what the answers are, and which rules are left at the
end.
-/

namespace Chomsky

namespace NameSupply

/-! ## Calls -/

/-- A supply is asked for a new name, or for the stand-in of a terminal. -/
inductive Call where
  | fresh (purpose : Purpose)
  | standIn (letter : Char)
  deriving DecidableEq, Repr

namespace Call

/-- What a new name is wanted for. -/
def purpose : Call → Purpose
  | fresh purpose => purpose
  | standIn letter => .terminal letter

/-- The call on the supply that is held. -/
def perform : Call → InPlace NameSupply Char
  | fresh purpose => freshInPlace purpose
  | standIn letter => standInInPlace letter

/-- The name that the supply has for a call without a new one. -/
def remembered (s : NameSupply) : Call → Option Char
  | fresh _ => none
  | standIn letter => s.standIns.lookup letter

/-- The table of stand-ins once a name is granted. -/
def enter (name : Char) (es : List (Char × Char)) : Call → List (Char × Char)
  | fresh _ => es
  | standIn letter => insertStandIn letter name es

/-- The supply once a name is granted. -/
def grant (s : NameSupply) (call : Call) (name : Char) : NameSupply where
  taken := s.taken.insert name
  standIns := call.enter name s.standIns
  granted := s.granted ++ [(name, call.purpose)]

/-- **What a call does**: it gives the name that is remembered, or the first letter that is free, or
it fails and does nothing. -/
theorem perform_eq (call : Call) (s : NameSupply) :
    call.perform.call s =
      match call.remembered s with
      | some name => (.ok name, s)
      | none =>
        match alphabet.find? (· ∉ s.taken) with
        | some name => (.ok name, call.grant s name)
        | none => (.error (.exhausted call.purpose), s) := by
  cases call with
  | fresh purpose =>
    have hfresh := freshInPlace_implements purpose s
    simp only [NameSupply.fresh] at hfresh
    simp only [perform, remembered, hfresh]
    cases alphabet.find? (· ∉ s.taken) <;> rfl
  | standIn letter =>
    have hstandIn := standInInPlace_implements letter s
    simp only [NameSupply.standIn, NameSupply.fresh] at hstandIn
    simp only [perform, remembered, hstandIn]
    cases s.standIns.lookup letter with
    | some name => rfl
    | none => cases alphabet.find? (· ∉ s.taken) <;> rfl

/-- **A call that fails leaves the supply as it was.** -/
theorem eq_of_perform_error {call : Call} {s t : NameSupply} {e : GrammarError}
    (hcall : call.perform.call s = (.error e, t)) : t = s := by
  rw [perform_eq] at hcall
  split at hcall
  · cases hcall
  · split at hcall
    · cases hcall
    · cases hcall
      rfl

end Call

/-- A call with its answer. -/
abbrev Exchange := Call × Except GrammarError Char

/-- Calls one after the other, with their answers, and the supply that they leave. -/
def run (s : NameSupply) : List Call → List Exchange × NameSupply
  | [] => ([], s)
  | call :: calls =>
    let (answer, t) := call.perform.call s
    let (more, u) := run t calls
    ((call, answer) :: more, u)

/-! ## What the history says -/

/-- A letter is taken: the grammar uses it, or it was given as an answer. -/
def Used (g : Grammar) (history : List Exchange) (c : Char) : Prop :=
  c = g.start ∨ c ∈ g.nonterminals ∨ ∃ call, (call, .ok c) ∈ history

/-- A call needs a new name unless it asks again for the stand-in of a terminal. -/
def Call.NeedsName (history : List Exchange) : Call → Prop
  | fresh _ => True
  | standIn letter => ∀ name, (standIn letter, .ok name) ∉ history

/-- The same name is given for the same terminal only. -/
def Apart (x y : Exchange) : Prop :=
  ∀ name, x.2 = .ok name → y.2 = .ok name → ∃ letter, x.1 = .standIn letter ∧ y.1 = .standIn letter

/-- A terminal that has got a stand-in gets it again. -/
def Stable (x y : Exchange) : Prop :=
  ∀ letter name, x = (.standIn letter, .ok name) → y.1 = .standIn letter → y.2 = .ok name

/-- The history calls for the answer: a new name is the first letter that is not taken, and the call
fails when it needs one and there is none. -/
structure Justified (g : Grammar) (history : List Exchange) (call : Call)
    (answer : Except GrammarError Char) : Prop where
  fails : (∃ e, answer = .error e) ↔
    call.NeedsName history ∧ ∀ c ∈ alphabet, Used g history c
  error : ∀ e, answer = .error e → e = .exhausted call.purpose
  first : ∀ name, answer = .ok name → call.NeedsName history →
    name ∈ alphabet ∧ ¬ Used g history name ∧ ∀ c ∈ alphabet, c < name → Used g history c

/-- A supply agrees with the history of its calls. -/
structure Records (g : Grammar) (history : List Exchange) (s : NameSupply) : Prop where
  taken : ∀ c, c ∈ s.taken ↔ Used g history c
  standIns : ∀ letter name,
    s.standIns.lookup letter = some name ↔ (.standIn letter, .ok name) ∈ history
  ascending : (s.standIns.map Prod.fst).Pairwise (· < ·)
  named : ∀ call name, (call, .ok name) ∈ history →
    name ∈ alphabet ∧ name ≠ g.start ∧ name ∉ g.nonterminals
  apart : history.Pairwise Apart
  stable : history.Pairwise Stable

/-! ## One call -/

theorem pairwise_alphabet : alphabet.Pairwise (· < ·) := by decide

/-- The letter that is granted is the first one that is free. -/
theorem first_of_find? {s : NameSupply} {name : Char}
    (h : alphabet.find? (· ∉ s.taken) = some name) :
    name ∈ alphabet ∧ name ∉ s.taken ∧ ∀ c ∈ alphabet, c < name → c ∈ s.taken := by
  obtain ⟨hfree, before, after, hsplit, hbefore⟩ := List.find?_eq_some_iff_append.1 h
  refine ⟨List.mem_of_find?_eq_some h, by simpa using hfree, fun c hc hlt => ?_⟩
  have hascending := pairwise_alphabet
  rw [hsplit] at hc hascending
  rcases List.mem_append.1 hc with hc | hc
  · simpa using hbefore c hc
  · rcases List.mem_cons.1 hc with rfl | hc
    · exact absurd hlt (Char.lt_irrefl _)
    · have hgt := List.rel_of_pairwise_cons (List.pairwise_append.1 hascending).2.1 hc
      exact absurd (Char.lt_trans hlt hgt) (Char.lt_irrefl _)

theorem mem_taken_of_find?_eq_none {s : NameSupply} (h : alphabet.find? (· ∉ s.taken) = none) :
    ∀ c ∈ alphabet, c ∈ s.taken := by
  intro c hc
  simpa using List.find?_eq_none.1 h c hc

section Steps

variable {g : Grammar} {history : List Exchange} {s : NameSupply} {call : Call} {name c : Char}
  {e : GrammarError}

/-- The supply for a grammar has no history. -/
theorem records_ofGrammar (g : Grammar) : Records g [] (ofGrammar g) where
  taken c := by simp [ofGrammar, Used]
  standIns letter name := by simp [ofGrammar]
  ascending := .nil
  named call name h := absurd h List.not_mem_nil
  apart := .nil
  stable := .nil

/-- A call needs a new name when the supply remembers none. -/
theorem Records.needsName_iff (h : Records g history s) :
    call.NeedsName history ↔ call.remembered s = none := by
  cases call with
  | fresh purpose => simp [Call.NeedsName, Call.remembered]
  | standIn letter =>
    simp only [Call.NeedsName, Call.remembered, ← h.standIns, Option.eq_none_iff_forall_ne_some]

theorem pairwise_append_singleton {α : Type} {R : α → α → Prop} {l : List α} {a : α}
    (hl : l.Pairwise R) (ha : ∀ b ∈ l, R b a) : (l ++ [a]).Pairwise R := by
  simpa [List.pairwise_append, hl] using ha

instance : Std.Symm Apart where
  symm x y h := by
    intro name hy hx
    obtain ⟨letter, hletter, hletter'⟩ := h name hx hy
    exact ⟨letter, hletter', hletter⟩

namespace Call

/-- A name that is granted is found for its terminal. -/
theorem lookup_enter (hnone : call.remembered s = none) {l : Char} :
    (call.enter name s.standIns).lookup l =
      if call = .standIn l then some name else s.standIns.lookup l := by
  cases call with
  | fresh purpose => simp [enter]
  | standIn letter => simp [enter, lookup_insertStandIn (not_mem_keys hnone), eq_comm]

theorem ascending_enter (hnone : call.remembered s = none)
    (hs : (s.standIns.map Prod.fst).Pairwise (· < ·)) :
    ((call.enter name s.standIns).map Prod.fst).Pairwise (· < ·) := by
  cases call with
  | fresh purpose => exact hs
  | standIn letter => exact pairwise_insertStandIn (not_mem_keys hnone) hs

end Call

/-- A call that needs a new name has not been given one. -/
theorem Records.stable_of_needsName (h : Records g history s) (hnone : call.remembered s = none)
    (answer : Except GrammarError Char) : ∀ x ∈ history, Stable x (call, answer) := by
  intro x hx letter name hxl hcall
  subst hxl
  obtain rfl : call = .standIn letter := hcall
  exact absurd hx (h.needsName_iff.2 hnone name)

/-- An exchange that gives no new name changes nothing. -/
theorem Records.append (h : Records g history s) {x : Exchange}
    (hsame : ∀ call name, (call, .ok name) ∈ history ++ [x] ↔ (call, .ok name) ∈ history)
    (hapart : ∀ y ∈ history, Apart y x) (hstable : ∀ y ∈ history, Stable y x) :
    Records g (history ++ [x]) s where
  taken c := by simp only [h.taken, Used, hsame]
  standIns letter name := by rw [h.standIns, hsame]
  ascending := h.ascending
  named call name hmem := h.named call name ((hsame call name).1 hmem)
  apart := pairwise_append_singleton h.apart hapart
  stable := pairwise_append_singleton h.stable hstable

/-- A terminal asks for its stand-in again. -/
theorem Records.again (h : Records g history s) (hname : call.remembered s = some name) :
    Records g (history ++ [(call, .ok name)]) s := by
  cases call with
  | fresh purpose => cases hname
  | standIn letter =>
    have hmem : (.standIn letter, .ok name) ∈ history := (h.standIns letter name).1 hname
    refine h.append (fun call' name' => ?_) (fun x hx n hxn hn => ?_) fun x hx l n hxl hl => ?_
    · rw [List.mem_append, List.mem_singleton, or_iff_left_iff_imp]
      intro heq
      rwa [heq]
    · -- the history has the exchange already, and it is apart from all others
      cases hn
      obtain ⟨call, answer⟩ := x
      obtain rfl : answer = .ok name := hxn
      by_cases heq : call = .standIn letter
      · exact ⟨letter, heq, rfl⟩
      · refine h.apart.forall hx hmem ?_ name rfl rfl
        intro hpair
        exact heq (congrArg Prod.fst hpair)
    · subst hxl
      cases hl
      have hn : some name = some n := hname.symm.trans ((h.standIns letter n).2 hx)
      rw [Option.some.inj hn]

/-- A call fails. -/
theorem Records.refuse (h : Records g history s) (hnone : call.remembered s = none) :
    Records g (history ++ [(call, .error e)]) s := by
  refine h.append (fun call' name' => by simp) (fun x hx n hxn hn => ?_)
    (h.stable_of_needsName hnone _)
  cases hn

/-- A new name is granted. -/
theorem Records.grant (h : Records g history s) (hnone : call.remembered s = none)
    (hfind : alphabet.find? (· ∉ s.taken) = some name) :
    Records g (history ++ [(call, .ok name)]) (call.grant s name) := by
  obtain ⟨hletter, hfree, -⟩ := first_of_find? hfind
  -- all that was given is taken, so the name is given for the first time
  have hunused : ¬ Used g history name := fun hused => hfree ((h.taken name).2 hused)
  refine ⟨fun c => ?_, fun l n => ?_, Call.ascending_enter hnone h.ascending, fun c n hn => ?_, ?_,
    pairwise_append_singleton h.stable (h.stable_of_needsName hnone _)⟩
  · simp only [Call.grant, CharSet.mem_insert, h.taken, Used, List.mem_append, List.mem_singleton,
      Prod.mk.injEq, Except.ok.injEq, exists_or, exists_eq_left]
    tauto
  · rw [Call.grant, Call.lookup_enter hnone, List.mem_append, ← h.standIns]
    split
    · rename_i hcall
      subst hcall
      have hlookup : s.standIns.lookup l = none := hnone
      simp [hlookup, eq_comm]
    · rename_i hcall
      simp [Ne.symm hcall]
  · rcases List.mem_append.1 hn with hn | hn
    · exact h.named c n hn
    · cases List.mem_singleton.1 hn
      exact ⟨hletter, fun hstart => hunused (.inl hstart), fun hold => hunused (.inr (.inl hold))⟩
  · refine pairwise_append_singleton h.apart fun x hx n hxn hn => ?_
    cases hn
    exact absurd (.inr (.inr ⟨x.1, hxn ▸ hx⟩)) hunused

/-- **One call.**  The supply goes on to agree with the history, which calls for the answer. -/
theorem Records.step {answer : Except GrammarError Char} {t : NameSupply}
    (h : Records g history s) (hcall : call.perform.call s = (answer, t)) :
    Records g (history ++ [(call, answer)]) t ∧ Justified g history call answer := by
  rw [Call.perform_eq] at hcall
  split at hcall
  · rename_i name hname
    cases hcall
    have hknown : ¬ call.NeedsName history := by
      rw [h.needsName_iff, hname]
      exact Option.some_ne_none name
    refine ⟨h.again hname, ?_, fun e he => ?_, fun n _ hneeds => absurd hneeds hknown⟩
    · exact iff_of_false (by simp) fun hneeds => hknown hneeds.1
    · cases he
  · rename_i hnone
    have hneeds := h.needsName_iff.2 hnone
    split at hcall
    · rename_i name hfind
      cases hcall
      obtain ⟨hletter, hfree, hfirst⟩ := first_of_find? hfind
      simp only [h.taken] at hfree hfirst
      refine ⟨h.grant hnone hfind, ?_, fun e he => ?_, fun n hn _ => ?_⟩
      · exact iff_of_false (by simp) fun hall => hfree (hall.2 name hletter)
      · cases he
      · cases hn
        exact ⟨hletter, hfree, hfirst⟩
    · rename_i hfind
      cases hcall
      have hall := mem_taken_of_find?_eq_none hfind
      simp only [h.taken] at hall
      refine ⟨h.refuse hnone, ?_, fun e he => ?_, fun n hn => ?_⟩
      · exact iff_of_true ⟨_, rfl⟩ ⟨hneeds, hall⟩
      · exact (Except.error.inj he).symm
      · cases hn

end Steps

/-! ## Any sequence of calls -/

/-- **Any sequence of calls.**  Every answer is the one that the history up to it calls for. -/
theorem Records.run {g : Grammar} {history : List Exchange} {s : NameSupply}
    (h : Records g history s) (calls : List Call) :
    Records g (history ++ (s.run calls).1) (s.run calls).2 ∧
      ∀ before call answer after, (s.run calls).1 = before ++ (call, answer) :: after →
        Justified g (history ++ before) call answer := by
  induction calls generalizing history s with
  | nil =>
    refine ⟨by rwa [NameSupply.run, List.append_nil], fun before call answer after hsplit => ?_⟩
    simp [NameSupply.run] at hsplit
  | cons first calls ih =>
    rcases hcall : first.perform.call s with ⟨answer, t⟩
    obtain ⟨hstep, hjustified⟩ := h.step hcall
    obtain ⟨hrecords, hrest⟩ := ih hstep
    simp only [NameSupply.run, hcall]
    refine ⟨by simpa using hrecords, fun before call answer' after hsplit => ?_⟩
    cases before with
    | nil =>
      cases hsplit
      simpa using hjustified
    | cons x before =>
      obtain ⟨rfl, hafter⟩ := List.cons.inj hsplit
      simpa using hrest before call answer' after hafter

/-! ## The rules at the end -/

theorem Records.mem_rules {g : Grammar} {history : List Exchange} {s : NameSupply}
    (h : Records g history s) (r : Rule) :
    r ∈ s.rules ↔ ∃ letter name,
      (.standIn letter, .ok name) ∈ history ∧ r = ⟨name, [.terminal letter]⟩ := by
  have hnodup : (s.standIns.map Prod.fst).Nodup := h.ascending.imp Char.ne_of_lt
  simp only [rules, List.mem_map, Prod.exists, ← h.standIns, lookup_eq_some_iff_mem hnodup,
    eq_comm (a := r)]

theorem flatMap_bodyTerminals_rules (s : NameSupply) :
    s.rules.flatMap Rule.bodyTerminals = s.standIns.map Prod.fst := by
  unfold rules
  induction s.standIns with
  | nil => rfl
  | cons e es ih => simp [ih, Rule.bodyTerminals, Symbol.terminal?]

/-- The calls of a run are those that were asked for. -/
theorem map_fst_run (s : NameSupply) (calls : List Call) :
    (s.run calls).1.map Prod.fst = calls := by
  induction calls generalizing s with
  | nil => rfl
  | cons call calls ih => simp [run, ih]

/-- **What a supply answers to any sequence of calls.**  The names are letters that the grammar does
not use; none is given twice but to one terminal, which always gets the same; every answer is the
first free letter or a failure exactly when the history calls for it, and a failure changes nothing.
At the end there is one rule for each terminal that has got a stand-in, in the order of the
terminals. -/
theorem answers_of_calls (g : Grammar) (calls : List Call) :
    ((ofGrammar g).run calls).1.map Prod.fst = calls ∧
      (∀ call name, (call, .ok name) ∈ ((ofGrammar g).run calls).1 →
        name ∈ alphabet ∧ name ≠ g.start ∧ name ∉ g.nonterminals) ∧
      ((ofGrammar g).run calls).1.Pairwise Apart ∧
      ((ofGrammar g).run calls).1.Pairwise Stable ∧
      (∀ before call answer after,
        ((ofGrammar g).run calls).1 = before ++ (call, answer) :: after →
          Justified g before call answer) ∧
      (∀ (call : Call) (s t : NameSupply) (e : GrammarError),
        call.perform.call s = (.error e, t) → t = s) ∧
      (∀ r, r ∈ ((ofGrammar g).run calls).2.rules ↔ ∃ letter name,
        (.standIn letter, .ok name) ∈ ((ofGrammar g).run calls).1 ∧
          r = ⟨name, [.terminal letter]⟩) ∧
      (((ofGrammar g).run calls).2.rules.flatMap Rule.bodyTerminals).Pairwise (· < ·) := by
  obtain ⟨hrecords, hjustified⟩ := (records_ofGrammar g).run calls
  rw [List.nil_append] at hrecords
  refine ⟨map_fst_run _ calls, hrecords.named, hrecords.apart, hrecords.stable, hjustified,
    fun call s t e => Call.eq_of_perform_error, hrecords.mem_rules, ?_⟩
  rw [flatMap_bodyTerminals_rules]
  exact hrecords.ascending

/-- A grammar that leaves the last two letters. -/
def crowded : Grammar where
  rules := (alphabet.take 24).map fun X => ⟨X, [.terminal 'a']⟩
  start := 'A'
  marker := '#'

/-- Two names are granted; then a new one is refused, and a stand-in is still given. -/
theorem answers_of_calls_crowded :
    let history : List Exchange := [(.standIn 'b', .ok 'Y'), (.fresh (.link 'A'), .ok 'Z')]
    let refused : Exchange := (.standIn 'a', .error (.exhausted (.terminal 'a')))
    let again : Exchange := (.standIn 'b', .ok 'Y')
    let calls : List Call := [.standIn 'b', .fresh (.link 'A'), .standIn 'a', .standIn 'b']
    ((ofGrammar crowded).run calls).1 = history ++ [refused, again] ∧
      Justified crowded history refused.1 refused.2 ∧
      ((ofGrammar crowded).run calls).2.rules = [⟨'Y', [.terminal 'b']⟩] := by
  intro history refused again calls
  have hrun : ((ofGrammar crowded).run calls).1 = history ++ [refused, again] := by decide
  obtain ⟨-, -, -, -, hjustified, -⟩ := answers_of_calls crowded calls
  exact ⟨hrun, hjustified history refused.1 refused.2 [again] hrun, by decide⟩

end NameSupply

end Chomsky
