import Chomsky.Pass

/-!
# Named passes

* `Registry` — passes under names, in the order they were registered.  A name may be registered
  more than once; the first entry counts.
* `get?` — the pass of a name; `upTo` — all passes up to that one.
* `Registry.default` — the four stages under their own names.

Principal results: `isSome_get?` — a pass is found for the names that are listed;
`upTo_eq_error` — the names that are not listed are refused.
-/

namespace Chomsky

structure Registry where
  entries : List (String × Pass)

namespace Registry

def empty : Registry := ⟨[]⟩

/-- One more entry, after the others. -/
def register (r : Registry) (name : String) (p : Pass) : Registry :=
  ⟨r.entries ++ [(name, p)]⟩

/-- The four stages in their usual order, after what is there. -/
def registerStages (r : Registry) : Registry :=
  [Stage.null, .unit, .useless, .normal].foldl (fun r s => r.register s.name (.stage s)) r

def default : Registry := empty.registerStages

/-- The names, in order. -/
def names (r : Registry) : List String := r.entries.map (·.1)

/-- The first pass registered under a name. -/
def get? (r : Registry) (name : String) : Option Pass := r.entries.lookup name

/-- The entries up to the first one with a name, that one included. -/
def entriesUntil? (name : String) : List (String × Pass) → Option (List (String × Pass))
  | [] => none
  | e :: es => if e.1 = name then some [e] else (entriesUntil? name es).map (e :: ·)

/-- The chain of all passes up to the first one registered under a name. -/
def upTo (r : Registry) (last : String) : Except GrammarError Chain :=
  match entriesUntil? last r.entries with
  | none => .error (.unknownPass last)
  | some es => .ok (.ofList (es.map (·.2)))

theorem isSome_get? {r : Registry} {name : String} :
    (r.get? name).isSome = true ↔ name ∈ r.names := by
  obtain ⟨es⟩ := r
  simp only [get?, names]
  induction es with
  | nil => simp
  | cons e es ih =>
    obtain ⟨n, p⟩ := e
    by_cases h : name = n
    · simp [h]
    · simp [List.lookup_cons, beq_false_of_ne h, h, ih]

theorem entriesUntil?_eq_none {name : String} {es : List (String × Pass)} :
    entriesUntil? name es = none ↔ name ∉ es.map (·.1) := by
  induction es with
  | nil => simp [entriesUntil?]
  | cons e es ih =>
    by_cases h : e.1 = name
    · simp [entriesUntil?, h]
    · simp [entriesUntil?, h, ih, Ne.symm h]

theorem upTo_eq_error {r : Registry} {name : String} {e : GrammarError} :
    r.upTo name = .error e ↔ e = .unknownPass name ∧ name ∉ r.names := by
  unfold upTo names
  split
  · rename_i h
    simp only [Except.error.injEq, eq_comm (a := GrammarError.unknownPass name),
      entriesUntil?_eq_none.1 h, not_false_eq_true, and_true]
  · rename_i es h
    have hmem : name ∈ r.entries.map (·.1) := Decidable.not_not.1 fun hn => by
      simp [entriesUntil?_eq_none.2 hn] at h
    simp [hmem]

end Registry

end Chomsky
