import Chomsky.CharSet
import Chomsky.Saturation
import Mathlib

/-!
# Saturation of finite sets

A pass over the rules that only adds members, and none from outside a known list of characters,
reaches a fixed point: every pass that changes the set makes it larger.

Principal results: `CharSet.size_lt` — a proper superset is larger; `saturate_set_fixed` — passes
that only add members end in a fixed point.
-/

namespace Chomsky

namespace CharSet

theorem nodup_toList (s : CharSet) : s.toList.Nodup := by
  refine List.Pairwise.imp ?_ s.ascending
  rintro a b hlt rfl
  exact Char.lt_irrefl a hlt

theorem size_le {s : CharSet} {cs : List Char} (h : ∀ c ∈ s, c ∈ cs) : s.size ≤ cs.length :=
  (s.nodup_toList.subperm h).length_le

/-- A proper superset is larger. -/
theorem size_lt {s t : CharSet} (h : ∀ c ∈ s, c ∈ t) (hne : t ≠ s) : s.size < t.size := by
  refine Nat.lt_of_le_of_ne (size_le h) fun heq => hne ?_
  have hperm := (s.nodup_toList.subperm h).perm_of_length_le (Nat.le_of_eq heq.symm)
  exact ext fun c => hperm.mem_iff.symm

theorem insert_of_mem {s : CharSet} {c : Char} (h : c ∈ s) : s.insert c = s :=
  ext fun x => by
    rw [mem_insert]
    exact or_iff_right_of_imp fun hx => hx ▸ h

theorem size_insert_of_not_mem {s : CharSet} {c : Char} (h : c ∉ s) :
    (s.insert c).size = s.size + 1 := by
  have hperm : (s.insert c).toList.Perm (c :: s.toList) :=
    (List.perm_ext_iff_of_nodup (nodup_toList _) (List.nodup_cons.2 ⟨h, nodup_toList s⟩)).2
      fun x => mem_insert.trans List.mem_cons.symm
  exact hperm.length_eq

theorem insertAll_append (s : CharSet) (as bs : List Char) :
    s.insertAll (as ++ bs) = (s.insertAll as).insertAll bs :=
  List.foldl_append

/-- Adding all characters of a list adds its members only. -/
theorem insertAll_congr {s : CharSet} {as bs : List Char} (h : ∀ c, c ∈ as ↔ c ∈ bs) :
    s.insertAll as = s.insertAll bs :=
  ext fun c => by simp only [mem_insertAll, h]

end CharSet

/-- **Passes that only add members end in a fixed point** when all that they add comes from a list
that is shorter than the number of passes. -/
theorem saturate_set_fixed {step : CharSet → CharSet} (cs : List Char)
    (hadd : ∀ s, ∀ c ∈ s, c ∈ step s) (hcs : ∀ s, (∀ c ∈ s, c ∈ cs) → ∀ c ∈ step s, c ∈ cs)
    {limit : Nat} {s : CharSet} (hs : ∀ c ∈ s, c ∈ cs) (h : cs.length < limit + s.size) :
    step (saturate step limit s) = saturate step limit s :=
  saturate_fixed hcs (fun _ hs => CharSet.size_le hs)
    (fun s _ hne => CharSet.size_lt (hadd s) hne) hs h

end Chomsky
