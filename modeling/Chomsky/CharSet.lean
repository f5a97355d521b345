/-!
# Finite sets of characters

A set is kept as the strictly ascending list of its members, so each set has one representation.

* `CharSet` — the sets; `CharSet.toList` lists the members in ascending order.
* `insert`, `union`, `ofList` — building sets.

Principal results: `mem_insert`, `mem_union`, `mem_ofList` — what is in the sets built; `ext` —
sets with the same members are equal.
-/

namespace Chomsky

/-- Adds a character to an ascending list, at its place. -/
def insertAscending (c : Char) : List Char → List Char
  | [] => [c]
  | d :: ds =>
    if c < d then c :: d :: ds
    else if c = d then d :: ds
    else d :: insertAscending c ds

theorem mem_insertAscending {c x : Char} {ds : List Char} :
    x ∈ insertAscending c ds ↔ x = c ∨ x ∈ ds := by
  induction ds with
  | nil => simp [insertAscending]
  | cons d ds ih =>
    unfold insertAscending
    split
    · simp
    split
    · rename_i h; subst h; simp
    · simp only [List.mem_cons, ih]
      exact or_left_comm

theorem pairwise_insertAscending {c : Char} {ds : List Char} (h : ds.Pairwise (· < ·)) :
    (insertAscending c ds).Pairwise (· < ·) := by
  induction ds with
  | nil => simp [insertAscending]
  | cons d ds ih =>
    obtain ⟨hd, hds⟩ := List.pairwise_cons.1 h
    unfold insertAscending
    split
    · rename_i hcd
      refine List.pairwise_cons.2 ⟨fun x hx => ?_, h⟩
      rcases List.mem_cons.1 hx with rfl | hx
      · exact hcd
      · exact Char.lt_trans hcd (hd x hx)
    split
    · exact h
    · rename_i hcd hne
      refine List.pairwise_cons.2 ⟨fun x hx => ?_, ih hds⟩
      rcases mem_insertAscending.1 hx with rfl | hx
      · exact Char.not_le.1 fun hle => hne (Char.le_antisymm hle (Char.not_lt.1 hcd))
      · exact hd x hx

/-- A finite set of characters. -/
structure CharSet where
  /-- The members, in ascending order. -/
  toList : List Char
  ascending : toList.Pairwise (· < ·)
  deriving DecidableEq

namespace CharSet

instance : Membership Char CharSet := ⟨fun s c => c ∈ s.toList⟩

instance (c : Char) (s : CharSet) : Decidable (c ∈ s) := inferInstanceAs (Decidable (c ∈ s.toList))

@[simp] theorem mem_toList {c : Char} {s : CharSet} : c ∈ s.toList ↔ c ∈ s := Iff.rfl

/-- The set without members. -/
def empty : CharSet := ⟨[], .nil⟩

instance : EmptyCollection CharSet := ⟨empty⟩

instance : Inhabited CharSet := ⟨∅⟩

@[simp] theorem not_mem_empty {c : Char} : ¬ c ∈ (∅ : CharSet) := List.not_mem_nil

/-- The set with one more member. -/
def insert (s : CharSet) (c : Char) : CharSet :=
  ⟨insertAscending c s.toList, pairwise_insertAscending s.ascending⟩

@[simp] theorem mem_insert {s : CharSet} {c x : Char} : x ∈ s.insert c ↔ x = c ∨ x ∈ s :=
  mem_insertAscending

/-- The set with all characters of a list added. -/
def insertAll (s : CharSet) (cs : List Char) : CharSet := cs.foldl insert s

@[simp] theorem mem_insertAll {s : CharSet} {cs : List Char} {x : Char} :
    x ∈ s.insertAll cs ↔ x ∈ cs ∨ x ∈ s := by
  unfold insertAll
  induction cs generalizing s with
  | nil => simp
  | cons c cs ih =>
    rw [List.foldl_cons, ih, mem_insert, List.mem_cons]
    exact or_left_comm.trans or_assoc.symm

/-- The set of the characters of a list. -/
def ofList (cs : List Char) : CharSet := (∅ : CharSet).insertAll cs

@[simp] theorem mem_ofList {cs : List Char} {x : Char} : x ∈ ofList cs ↔ x ∈ cs := by
  simp [ofList]

/-- All members of two sets. -/
def union (s t : CharSet) : CharSet := s.insertAll t.toList

@[simp] theorem mem_union {s t : CharSet} {x : Char} : x ∈ s.union t ↔ x ∈ t ∨ x ∈ s :=
  mem_insertAll

/-- The number of members. -/
def size (s : CharSet) : Nat := s.toList.length

/-- Two strictly ascending lists with the same members are equal. -/
theorem eq_of_pairwise {as bs : List Char} (ha : as.Pairwise (· < ·)) (hb : bs.Pairwise (· < ·))
    (h : ∀ c, c ∈ as ↔ c ∈ bs) : as = bs := by
  induction as generalizing bs with
  | nil =>
    cases bs with
    | nil => rfl
    | cons b bs => exact absurd ((h b).2 (List.mem_cons_self ..)) List.not_mem_nil
  | cons a as ih =>
    cases bs with
    | nil => exact absurd ((h a).1 (List.mem_cons_self ..)) List.not_mem_nil
    | cons b bs =>
      obtain ⟨haa, has⟩ := List.pairwise_cons.1 ha
      obtain ⟨hbb, hbs⟩ := List.pairwise_cons.1 hb
      have hab : a = b := by
        rcases List.mem_cons.1 ((h a).1 (List.mem_cons_self ..)) with hab | hab
        · exact hab
        rcases List.mem_cons.1 ((h b).2 (List.mem_cons_self ..)) with hba | hba
        · exact hba.symm
        · exact absurd (Char.lt_trans (hbb a hab) (haa b hba)) (Char.lt_irrefl b)
      subst hab
      refine congrArg (a :: ·) (ih has hbs fun c => ⟨fun hc => ?_, fun hc => ?_⟩)
      · rcases List.mem_cons.1 ((h c).1 (List.mem_cons_of_mem _ hc)) with rfl | hc'
        · exact absurd (haa c hc) (Char.lt_irrefl c)
        · exact hc'
      · rcases List.mem_cons.1 ((h c).2 (List.mem_cons_of_mem _ hc)) with rfl | hc'
        · exact absurd (hbb c hc) (Char.lt_irrefl c)
        · exact hc'

/-- **Sets with the same members are equal.** -/
@[ext] theorem ext {s t : CharSet} (h : ∀ c, c ∈ s ↔ c ∈ t) : s = t := by
  obtain ⟨as, ha⟩ := s
  obtain ⟨bs, hb⟩ := t
  have hab : as = bs := eq_of_pairwise ha hb h
  subst hab
  rfl

end CharSet

end Chomsky
