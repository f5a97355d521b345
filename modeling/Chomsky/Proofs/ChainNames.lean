import Chomsky.Pass

/-!
# The names of chains

A chain has the name that it was given while it was made.  A chain that is made of a list joins the
names of its members, empty names included.  A pass that is added at the end adds a plus sign and
its name, unless the name so far is empty: then there should be nothing to add to.  But a chain
whose only member is nameless, such as a chain of nothing, has an empty name as well, and of its
next members those that are nameless leave no trace, nor does the plus sign before the first other
one.

* `Built` — the chains that can be made; `addAll` — additions one after the other.
* `joined` — the names of the members, with plus signs between them.

Principal results: `built_iff` — a chain is made of a list and of additions; `name_addAll` — the
name after additions; `name_addAll_ofList` — when it is that of the members; `name_unnamed` — it
need not be.
-/

namespace Chomsky

namespace Chain

/-! ## How chains are made -/

/-- Chains that were made of a list of passes or of two passes, and by adding passes. -/
inductive Built : Chain → Prop
  | ofList (ps : List Pass) : Built (ofList ps)
  | followedBy (p q : Pass) : Built (p.followedBy q)
  | add {c : Chain} (p : Pass) (h : Built c) : Built (c.add p)

/-- Adds passes one after the other. -/
def addAll (c : Chain) (qs : List Pass) : Chain := qs.foldl add c

/-- The names of the members, with plus signs between them. -/
def joined (c : Chain) : String := "+".intercalate (c.members.map Pass.name)

theorem Built.addAll {c : Chain} (h : Built c) (qs : List Pass) : Built (c.addAll qs) := by
  induction qs generalizing c with
  | nil => exact h
  | cons q qs ih => exact ih (h.add q)

/-- **A chain is made of a list, and of additions.** -/
theorem built_iff {c : Chain} : Built c ↔ ∃ ps qs, c = (ofList ps).addAll qs := by
  constructor
  · intro h
    induction h with
    | ofList ps => exact ⟨ps, [], rfl⟩
    | followedBy p q => exact ⟨[p, q], [], rfl⟩
    | add p _ ih =>
      obtain ⟨ps, qs, rfl⟩ := ih
      exact ⟨ps, qs ++ [p], by simp [Chain.addAll]⟩
  · rintro ⟨ps, qs, rfl⟩
    exact (Built.ofList ps).addAll qs

theorem members_addAll (c : Chain) (qs : List Pass) : (c.addAll qs).members = c.members ++ qs := by
  induction qs generalizing c with
  | nil => simp [addAll]
  | cons q qs ih =>
    show ((c.add q).addAll qs).members = _
    simp [ih, add]

/-! ## Joined names -/

theorem joinNames_eq_intercalate (ns : List String) : joinNames ns = "+".intercalate ns := by
  induction ns with
  | nil => rfl
  | cons n ns ih =>
    cases ns with
    | nil => rw [joinNames, String.intercalate_singleton]
    | cons m rest => rw [joinNames, ih, String.intercalate_cons_cons]

theorem name_ofList (ps : List Pass) : (ofList ps).name = (ofList ps).joined := by
  rw [joined, ← joinNames_eq_intercalate]
  rfl

/-- Joined names are empty where there is no name, or only one, which is empty. -/
theorem intercalate_eq_empty {ns : List String} :
    "+".intercalate ns = "" ↔ ns = [] ∨ ns = [""] := by
  match ns with
  | [] => simp
  | [n] => simp
  | n :: m :: rest => simp

/-- Names that were joined before are joined to others. -/
theorem intercalate_cons_intercalate {ns : List String} (hns : ns ≠ []) (ms : List String) :
    "+".intercalate ("+".intercalate ns :: ms) = "+".intercalate (ns ++ ms) := by
  cases ms with
  | nil => simp
  | cons m ms =>
    rw [String.intercalate_cons_cons,
      String.intercalate_append_of_ne_nil hns (List.cons_ne_nil m ms)]

/-- Empty names in front take up their plus signs. -/
theorem length_intercalate_dropWhile_le (ns : List String) :
    ("+".intercalate (ns.dropWhile (· = ""))).length ≤ ("+".intercalate ns).length := by
  induction ns with
  | nil => simp
  | cons n ns ih =>
    by_cases hn : n = ""
    · subst hn
      have hdrop : ("" :: ns).dropWhile (· = "") = ns.dropWhile (· = "") := by simp
      rw [hdrop]
      cases ns with
      | nil => simp
      | cons m rest =>
        rw [String.intercalate_cons_cons, String.length_append]
        omega
    · simp [hn]

/-- Empty names in front are seen, if they are not the only name. -/
theorem intercalate_dropWhile_eq_iff {ns : List String} :
    "+".intercalate (ns.dropWhile (· = "")) = "+".intercalate ns ↔
      ns.length ≤ 1 ∨ ns.head? ≠ some "" := by
  match ns with
  | [] => simp
  | [n] => by_cases hn : n = "" <;> simp [hn]
  | n :: m :: rest =>
    by_cases hn : n = ""
    · subst hn
      have hshorter := length_intercalate_dropWhile_le (m :: rest)
      have hdrop : ("" :: m :: rest).dropWhile (· = "") = (m :: rest).dropWhile (· = "") := by simp
      rw [hdrop, String.intercalate_cons_cons]
      refine iff_of_false (fun heq => ?_) (by simp)
      have hlength := congrArg String.length heq
      rw [String.length_append, String.length_append] at hlength
      have hplus : "+".length = 1 := rfl
      omega
    · simp [hn]

/-! ## The name after additions -/

/-- Behind a name that is not empty all names stand. -/
theorem name_addAll_of_ne {c : Chain} (hc : c.name ≠ "") (qs : List Pass) :
    (c.addAll qs).name = "+".intercalate (c.name :: qs.map Pass.name) := by
  induction qs generalizing c with
  | nil => simp [addAll]
  | cons q qs ih =>
    have hname : (c.add q).name = c.name ++ "+" ++ q.name := if_neg hc
    show ((c.add q).addAll qs).name = _
    rw [ih (by simp [hname]), hname, String.intercalate_cons_append, List.map_cons,
      String.intercalate_cons_cons]

/-- Behind an empty name all names stand from the first on that is not empty. -/
theorem name_addAll_of_eq {c : Chain} (hc : c.name = "") (qs : List Pass) :
    (c.addAll qs).name = "+".intercalate ((qs.map Pass.name).dropWhile (· = "")) := by
  induction qs generalizing c with
  | nil => simpa [addAll] using hc
  | cons q qs ih =>
    have hname : (c.add q).name = q.name := if_pos hc
    show ((c.add q).addAll qs).name = _
    by_cases hq : q.name = ""
    · rw [ih (hname.trans hq)]
      simp [hq]
    · rw [name_addAll_of_ne (by rwa [hname]), hname]
      simp [hq]

/-- **The name after additions.** -/
theorem name_addAll (ps qs : List Pass) :
    ((ofList ps).addAll qs).name =
      if (ofList ps).name = "" then "+".intercalate (((ps ++ qs).map Pass.name).dropWhile (· = ""))
      else "+".intercalate ((ps ++ qs).map Pass.name) := by
  have hps : (ofList ps).name = "+".intercalate (ps.map Pass.name) := name_ofList ps
  by_cases hempty : (ofList ps).name = ""
  · rw [if_pos hempty, name_addAll_of_eq hempty]
    rw [hps, intercalate_eq_empty] at hempty
    rcases hempty with hnil | hsingle <;> simp [*]
  · have hne : ps.map Pass.name ≠ [] := by
      intro hnil
      exact hempty (hps.trans (intercalate_eq_empty.2 (.inl hnil)))
    rw [if_neg hempty, name_addAll_of_ne hempty, hps, intercalate_cons_intercalate hne,
      List.map_append]

/-- **When a name is that of the members.**  The name of a list with additions joins the names of
all members, but if the list has no name, the empty names in front are left out.  So the name is
that of the members unless the list has at most one member, there are two members at least in the
end, and the first of them has an empty name.  Every chain is a list with additions. -/
theorem name_addAll_ofList (ps qs : List Pass) :
    ((ofList ps).addAll qs).members = ps ++ qs ∧
      ((ofList ps).addAll qs).name =
        (if (ofList ps).name = ""
          then "+".intercalate (((ps ++ qs).map Pass.name).dropWhile (· = ""))
        else "+".intercalate ((ps ++ qs).map Pass.name)) ∧
      (((ofList ps).addAll qs).name = ((ofList ps).addAll qs).joined ↔
        2 ≤ ps.length ∨ (ps ++ qs).length ≤ 1 ∨ ((ps ++ qs).map Pass.name).head? ≠ some "") ∧
      ∀ c : Chain, Built c ↔ ∃ ps qs, c = (ofList ps).addAll qs := by
  refine ⟨members_addAll _ qs, name_addAll ps qs, ?_, fun c => built_iff⟩
  have hjoined : ((ofList ps).addAll qs).joined = "+".intercalate ((ps ++ qs).map Pass.name) := by
    rw [joined, members_addAll]
    rfl
  have hps : (ofList ps).name = "+".intercalate (ps.map Pass.name) := name_ofList ps
  rw [name_addAll, hjoined]
  by_cases hempty : (ofList ps).name = ""
  · rw [if_pos hempty, intercalate_dropWhile_eq_iff, List.length_map]
    rw [hps, intercalate_eq_empty] at hempty
    have hshort : ¬ 2 ≤ ps.length := by
      rw [← List.length_map (f := Pass.name)]
      rcases hempty with hnil | hsingle
      · simp [hnil]
      · simp [hsingle]
    simp only [hshort, false_or]
  · rw [if_neg hempty]
    refine iff_of_true rfl ?_
    rw [hps, intercalate_eq_empty] at hempty
    match ps, hempty with
    | [], hne => simp at hne
    | [p], hne =>
      have hp : p.name ≠ "" := by simpa using hne
      exact .inr (.inr (by simpa using hp))
    | _ :: _ :: _, _ => exact .inl (by simp)

/-- The usual chain, made step by step. -/
example : ((Pass.stage .null).followedBy (.stage .unit)).addAll [.stage .useless, .stage .normal] =
    Chain.standard := rfl

/-- A chain of nothing, to which first a chain of nothing was added and then a stage. -/
def unnamed : Chain := ((ofList []).add (ofList []).toPass).add (.stage .null)

/-- **The name of a chain need not be that of its members.** -/
theorem name_unnamed :
    Built unnamed ∧ unnamed.name = "null" ∧ unnamed.joined = "+null" ∧
      (ofList unnamed.members).name = "+null" :=
  ⟨((Built.ofList []).add _).add _, by decide, by decide, by decide⟩

end Chain

end Chomsky
