import Chomsky.Proofs.PassTrees
import Chomsky.Proofs.Resumption

/-!
# Looking passes up by name

A registry is searched in three ways: for the pass of a name, for the position of a name, up to
which all passes are copied into a chain, and for all names.  They agree also when a name was
registered again and when chains were registered: the first entry with a name counts, and what is
registered later stands behind it.

* `PassTable` — passes of any kind under names; `get?`, `upTo`, `names` — the three searches.
* `Finds`, `Misses` — all that the searches tell of a name.
* `Registry.table` — a registry of passes over the stages, as such a table.

Principal results: `finds_append_cons` — what is found at the first entry with a name;
`finds_or_misses` — the searches agree; `Registry.get?_table`, `Registry.upTo_table` — registries
are searched in this way; `lookups_agree` — all this, and the chains of the usual stages.
-/

namespace Chomsky

/-! ## Tables of passes -/

/-- Passes of a kind under names, in the order in which they were registered. -/
structure PassTable (α : Type) where
  entries : List (String × PassTree α)

namespace PassTable

variable {α : Type}

/-- One more entry, after the others. -/
def register (t : PassTable α) (name : String) (p : PassTree α) : PassTable α :=
  ⟨t.entries ++ [(name, p)]⟩

/-- More entries, one after the other. -/
def registerAll (t : PassTable α) (more : List (String × PassTree α)) : PassTable α :=
  more.foldl (fun t e => t.register e.1 e.2) t

def names (t : PassTable α) : List String := t.entries.map (·.1)

/-- The pass of the first entry with a name. -/
def get? (t : PassTable α) (name : String) : Option (PassTree α) :=
  (t.entries.find? fun e => e.1 = name).map (·.2)

/-- A chain of copies of all passes up to the position at which a name stands first. -/
def upTo (K : PassKind α) (t : PassTable α) (last : String) : Except GrammarError (PassTree α) :=
  match t.entries.findIdx? fun e => e.1 = last with
  | none => .error (.unknownPass last)
  | some i => .ok (K.ofList ((t.entries.take (i + 1)).map fun e => K.copyOf e.2))

theorem entries_registerAll (t : PassTable α) (more : List (String × PassTree α)) :
    (t.registerAll more).entries = t.entries ++ more := by
  induction more generalizing t with
  | nil => simp [registerAll]
  | cons e more ih =>
    show ((t.register e.1 e.2).registerAll more).entries = _
    simp [ih, register]

variable (K : PassKind α) (t : PassTable α) (name : String)

/-- No entry has the name: it is not listed, no pass is found for it, and it leads to no chain. -/
structure Misses : Prop where
  not_mem_names : name ∉ t.names
  get?_eq : t.get? name = none
  upTo_eq : t.upTo K name = .error (.unknownPass name)

/-- An entry is the first with the name: the name is listed, the pass of this entry is found for it,
and the chain that it leads to runs copies of what was registered before this entry, and then a copy
of the pass that is found.  When copies do what the passes do, it runs these passes themselves. -/
structure Finds (before : List (String × PassTree α)) (p : PassTree α)
    (after : List (String × PassTree α)) (c : PassTree α) : Prop where
  entries_eq : t.entries = before ++ (name, p) :: after
  not_mem_before : name ∉ before.map (·.1)
  mem_names : name ∈ t.names
  get?_eq : t.get? name = some p
  upTo_eq : t.upTo K name = .ok c
  run_copies : ∀ g,
    K.run c g = K.runAll (before.map fun e => K.copyOf e.2) g >>= K.run (K.copyOf p)
  run_eq : (∀ p g, K.apply (K.copy p) g = K.apply p g) →
    ∀ g, K.run c g = K.runAll (before.map (·.2)) g >>= K.run p

variable {K t name}

/-- No search stops at entries that do not have the name. -/
theorem decide_name_eq_false {entries : List (String × PassTree α)} (h : name ∉ entries.map (·.1)) :
    ∀ e ∈ entries, decide (e.1 = name) = false := by
  intro e he
  refine decide_eq_false fun hname => ?_
  exact h (hname ▸ List.mem_map_of_mem he)

/-- A chain runs what stands before its last member, and then that member. -/
theorem run_ofList_append_singleton (K : PassKind α) (ts : List (PassTree α)) (t : PassTree α)
    (g : Grammar) : K.run (K.ofList (ts ++ [t])) g = K.runAll ts g >>= K.run t := by
  have hlast : K.runAll [t] = K.run t := funext (K.runAll_singleton t)
  rw [PassKind.ofList, PassKind.run, K.runAll_append, hlast]

/-- **What is found at the first entry with a name** does not depend on the entries after it. -/
theorem finds_append_cons {before after : List (String × PassTree α)} {p : PassTree α}
    (ht : t.entries = before ++ (name, p) :: after) (hfirst : name ∉ before.map (·.1)) :
    t.Finds K name before p after
      (K.ofList ((before ++ [(name, p)]).map fun e => K.copyOf e.2)) := by
  have hbefore := decide_name_eq_false hfirst
  have hindex : t.entries.findIdx? (fun e => e.1 = name) = some before.length := by
    rw [ht, List.findIdx?_append, List.findIdx?_eq_none_iff.2 hbefore, List.findIdx?_cons]
    simp
  have htake : t.entries.take (before.length + 1) = before ++ [(name, p)] := by
    rw [ht, List.append_cons]
    exact List.take_left' (by simp)
  have hrun : ∀ g, K.run (K.ofList ((before ++ [(name, p)]).map fun e => K.copyOf e.2)) g =
      K.runAll (before.map fun e => K.copyOf e.2) g >>= K.run (K.copyOf p) := by
    intro g
    rw [List.map_append, List.map_singleton, run_ofList_append_singleton]
  refine ⟨ht, hfirst, ?_, ?_, ?_, hrun, fun hcopy g => ?_⟩
  · simp [names, ht]
  · rw [get?, List.find?_eq_some_iff_append.2 ⟨by simp, before, after, ht, by simpa using hbefore⟩]
    rfl
  · rw [upTo, hindex]
    simp only [htake]
  · have hcopies : (before.map fun e => K.copyOf e.2) = (before.map (·.2)).map K.copyOf := by simp
    have hlast : K.run (K.copyOf p) = K.run p := funext (K.run_copyOf hcopy p)
    rw [hrun, hcopies, K.runAll_map_copyOf hcopy, hlast]

theorem misses_of_not_mem (h : name ∉ t.names) : t.Misses K name := by
  have hnone := decide_name_eq_false h
  refine ⟨h, ?_, ?_⟩
  · rw [get?, List.find?_eq_none.2 fun e he => by simp [hnone e he]]
    rfl
  · rw [upTo, List.findIdx?_eq_none_iff.2 hnone]

/-- **The searches agree**, and once a name is found, later entries do not change this. -/
theorem finds_or_misses (t : PassTable α) (name : String) :
    t.Misses K name ∨ ∃ before p after c, t.Finds K name before p after c ∧
      ∀ more, (t.registerAll more).Finds K name before p (after ++ more) c := by
  by_cases hname : name ∈ t.names
  · right
    obtain ⟨_, _, hsplit, hfirst⟩ := List.eq_append_cons_of_mem hname
    obtain ⟨before, rest, ht, rfl, hrest⟩ := List.map_eq_append_iff.1 hsplit
    obtain ⟨⟨_, p⟩, after, rfl, rfl, -⟩ := List.map_eq_cons_iff.1 hrest
    refine ⟨before, p, after, _, finds_append_cons ht hfirst, fun more => ?_⟩
    refine finds_append_cons ?_ hfirst
    rw [entries_registerAll, ht, List.append_assoc, List.cons_append]
  · exact .inl (misses_of_not_mem hname)

end PassTable

/-! ## Registries of passes over the stages -/

namespace Registry

def table (r : Registry) : PassTable Stage := ⟨r.entries.map fun e => (e.1, e.2.tree)⟩

theorem table_register (r : Registry) (name : String) (p : Pass) :
    (r.register name p).table = r.table.register name p.tree := by
  simp [table, register, PassTable.register]

/-- The stages are registered as four passes, after what is there. -/
theorem table_registerStages (r : Registry) :
    r.registerStages.table = r.table.registerAll
      ([Stage.null, .unit, .useless, .normal].map fun s => (s.name, .pass s)) := by
  simp only [registerStages, List.foldl_cons, List.foldl_nil, table_register, Pass.tree]
  rfl

theorem names_table (r : Registry) : r.table.names = r.names := by
  simp [table, names, PassTable.names]

theorem get?_table (r : Registry) (name : String) :
    r.table.get? name = (r.get? name).map Pass.tree := by
  obtain ⟨entries⟩ := r
  simp only [table, PassTable.get?, get?]
  induction entries with
  | nil => rfl
  | cons e entries ih =>
    obtain ⟨n, p⟩ := e
    by_cases hn : n = name
    · simp [hn]
    · have hbeq : (name == n) = false := beq_false_of_ne (Ne.symm hn)
      simpa [List.lookup_cons, hn, hbeq] using ih

/-- The entries up to a name are those up to its first position. -/
theorem entriesUntil?_eq (name : String) (entries : List (String × Pass)) :
    entriesUntil? name entries =
      (entries.findIdx? fun e => e.1 = name).map fun i => entries.take (i + 1) := by
  induction entries with
  | nil => rfl
  | cons e entries ih =>
    rw [entriesUntil?, List.findIdx?_cons]
    by_cases he : e.1 = name
    · simp [he]
    · simp [he, ih, Function.comp_def]

theorem upTo_table (r : Registry) (name : String) :
    r.table.upTo Stage.kind name = (r.upTo name).map fun c => c.toPass.tree := by
  rw [PassTable.upTo, upTo, entriesUntil?_eq, table, List.findIdx?_map]
  simp only [Function.comp_def]
  cases r.entries.findIdx? fun e => e.1 = name with
  | none => rfl
  | some i =>
    simp only [Option.map_some, Except.map, Pass.tree_ofList, Stage.copyOf_kind]
    simp [List.map_take, Function.comp_def]

/-! ## The usual stages -/

/-- **The usual stages can be cut anywhere**: the chain up to a stage, and then the stages that are
left, do what all of them do. -/
theorem exists_rest_default (s : Stage) :
    ∃ c rest, default.get? s.name = some (.stage s) ∧ default.upTo s.name = .ok c ∧
      c.members ++ rest = Chain.standard.members ∧
      ∀ g, (c.apply g >>= Pass.applyAll rest) = g.normalize := by
  have hcut : ∀ (ps rest : List Pass), ps ++ rest = Chain.standard.members →
      ∀ g, ((Chain.ofList ps).apply g >>= Pass.applyAll rest) = g.normalize := by
    intro ps rest hps g
    show _ = Pass.applyAll Chain.standard.members g
    rw [← hps, Pass.applyAll_append, Chain.apply_ofList]
    cases Pass.applyAll ps g <;> rfl
  obtain ⟨rest, hrest⟩ : ∃ rest, s.pathTo.map Pass.stage ++ rest = Chain.standard.members := by
    cases s <;> exact ⟨_, rfl⟩
  exact ⟨_, rest, by cases s <;> rfl, upTo_default s, hrest, hcut _ rest hrest⟩

end Registry

namespace PassTable

variable {α : Type}

/-- **Lookups agree.**  Whatever the passes of a table are: either a name is not listed, no pass is
found for it, and the chain up to it is refused; or there is a first entry with the name, its pass
is found, and the chain up to it runs copies of the passes before it and then a copy of that pass,
which does what the passes themselves do as long as this is so for each copy.  Later entries change
nothing of this.  Registries are filled and searched as their tables are, and their passes run as
those of the tables.  In the usual registry the chain up to the last stage normalizes, and so does
the chain up to any stage with the other stages behind it. -/
theorem lookups_agree (K : PassKind α) :
    (∀ (t : PassTable α) (name : String),
      t.Misses K name ∨ ∃ before p after c, t.Finds K name before p after c ∧
        ∀ more, (t.registerAll more).Finds K name before p (after ++ more) c) ∧
    (∀ (r : Registry) (name : String),
      r.table.names = r.names ∧ r.table.get? name = (r.get? name).map Pass.tree ∧
        r.table.upTo Stage.kind name = ((r.upTo name).map fun c => c.toPass.tree) ∧
        ∀ p, (r.register name p).table = r.table.register name p.tree) ∧
    (∀ (p : Pass) (g : Grammar), Stage.kind.run p.tree g = p.apply g) ∧
    (∃ c, Registry.default.upTo Stage.normal.name = .ok c ∧ ∀ g, c.apply g = g.normalize) ∧
    ∀ s : Stage, ∃ c rest, Registry.default.get? s.name = some (.stage s) ∧
      Registry.default.upTo s.name = .ok c ∧ c.members ++ rest = Chain.standard.members ∧
      ∀ g, (c.apply g >>= Pass.applyAll rest) = g.normalize := by
  refine ⟨finds_or_misses, fun r name => ?_, Pass.run_tree, ?_, Registry.exists_rest_default⟩
  · exact ⟨r.names_table, r.get?_table name, r.upTo_table name, r.table_register name⟩
  · exact ⟨_, Registry.upTo_default .normal, fun g => rfl⟩

/-- A pass, two passes in a chain, and another pass under the first name. -/
def twiceNamed : PassTable (Nat × Text) where
  entries :=
    [("one", .pass (0, ['a'])),
      ("two", PassKind.additions.followedBy (.pass (0, ['b'])) (.pass (0, ['c']))),
      ("one", .pass (0, ['d']))]

theorem lookups_agree_twiceNamed :
    (∀ p g, PassKind.additions.apply (PassKind.additions.copy p) g = PassKind.additions.apply p g) ∧
      twiceNamed.Misses PassKind.additions "three" ∧
      ∃ before p after c, twiceNamed.Finds PassKind.additions "two" before p after c ∧
        (∀ g, PassKind.additions.run c g =
          PassKind.additions.runAll (before.map (·.2)) g >>= PassKind.additions.run p) ∧
        (twiceNamed.registerAll [("two", .pass (0, ['e']))]).upTo PassKind.additions "two" = .ok c ∧
        PassKind.additions.run c ⟨[], 'S', '#'⟩ =
          .ok ⟨[⟨'S', [.terminal 'a']⟩, ⟨'S', [.terminal 'b']⟩, ⟨'S', [.terminal 'c']⟩], 'S',
            '#'⟩ := by
  have hcopy : ∀ p g,
      PassKind.additions.apply (PassKind.additions.copy p) g = PassKind.additions.apply p g :=
    fun _ _ => rfl
  obtain ⟨hsearch, -⟩ := lookups_agree PassKind.additions
  have hmissed : ¬ ∃ before p after c,
      twiceNamed.Finds PassKind.additions "three" before p after c ∧
        ∀ more, (twiceNamed.registerAll more).Finds PassKind.additions "three" before p
          (after ++ more) c := by
    rintro ⟨before, p, after, c, hfound, -⟩
    exact absurd hfound.mem_names (by decide)
  have hlisted : ¬ twiceNamed.Misses PassKind.additions "two" := by
    intro hmisses
    exact absurd (by decide) hmisses.not_mem_names
  obtain ⟨before, p, after, c, hfound, hmore⟩ := (hsearch twiceNamed "two").resolve_left hlisted
  refine ⟨hcopy, (hsearch twiceNamed "three").resolve_right hmissed, before, p, after, c, hfound,
    hfound.run_eq hcopy, (hmore _).upTo_eq, ?_⟩
  obtain rfl := Except.ok.inj (hfound.upTo_eq.symm.trans rfl)
  rfl

end PassTable

end Chomsky
