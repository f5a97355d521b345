import Chomsky.Grammar.Builder
import Chomsky.Pass
import Mathlib.Logic.Relation

/-!
# Trees of chains over any passes

Chains are made of passes of any kind, not only of the four stages, and a chain is a pass again.
All that a chain knows of a pass is its name, what it does to a grammar, and how to make a copy of
it.  What a chain does is settled by the passes at its leaves, in the order in which they are met
from left to right: the way in which they were put together is not seen.

* `PassKind` — what is known of the passes of one kind.
* `PassTree` — passes of a kind, and chains of passes; `PassTree.leaves` — the passes that it is
  made of.
* `PassKind.run` — runs a tree as a chain is run.
* `PassKind.ofList`, `PassKind.followedBy`, `PassKind.add`, `PassKind.copyOf` — the ways to make
  chains.
* `PassKind.Rearranges` — one change of the way in which passes are put together.
* `Stage.kind`, `Pass.tree` — passes over the four stages, as trees.

Principal results: `run_eq_runLeaves` — a tree runs its leaves; `runLeaves_eq_error` — the first
leaf that fails decides; `runAll_rearranged` and `rearranged_of_leaves` — other chains of the same
leaves are rearrangements, and do the same; `Pass.run_tree` — passes over the stages run as their
trees do; `chains_compose` — all this together.
-/

namespace Chomsky

/-- What a chain knows of its passes. -/
structure PassKind (α : Type) where
  name : α → String
  apply : α → Grammar → Except GrammarError Grammar
  copy : α → α

/-- A pass of some kind, or a chain of passes under a name. -/
inductive PassTree (α : Type) where
  | pass (p : α)
  | chain (name : String) (members : List (PassTree α))

namespace PassTree

variable {α : Type}

mutual

/-- The passes at the leaves, from left to right. -/
def leaves : PassTree α → List α
  | pass p => [p]
  | chain _ members => allLeaves members

def allLeaves : List (PassTree α) → List α
  | [] => []
  | t :: ts => t.leaves ++ allLeaves ts

end

theorem allLeaves_eq_flatMap (ts : List (PassTree α)) : allLeaves ts = ts.flatMap leaves := by
  induction ts with
  | nil => rfl
  | cons t ts ih => rw [allLeaves, List.flatMap_cons, ih]

theorem allLeaves_append (ts us : List (PassTree α)) :
    allLeaves (ts ++ us) = allLeaves ts ++ allLeaves us := by
  simp only [allLeaves_eq_flatMap, List.flatMap_append]

end PassTree

namespace PassKind

open PassTree

variable {α : Type} (K : PassKind α)

/-! ## Runs, chains and copies -/

mutual

/-- Runs a tree: a chain hands what one member gave to the next, up to the first that fails. -/
def run : PassTree α → Grammar → Except GrammarError Grammar
  | .pass p, g => K.apply p g
  | .chain _ members, g => runAll members g

def runAll : List (PassTree α) → Grammar → Except GrammarError Grammar
  | [], g => .ok g
  | t :: ts, g =>
    match run t g with
    | .error e => .error e
    | .ok h => runAll ts h

end

/-- Passes one after the other, each on what the last one gave, up to the first that fails. -/
def runLeaves (ps : List α) (g : Grammar) : Except GrammarError Grammar :=
  ps.foldlM (fun h p => K.apply p h) g

def nameOf : PassTree α → String
  | .pass p => K.name p
  | .chain name _ => name

/-- A chain of passes, named by all their names. -/
def ofList (ts : List (PassTree α)) : PassTree α := .chain (Chain.joinNames (ts.map K.nameOf)) ts

/-- A chain of two passes. -/
def followedBy (t u : PassTree α) : PassTree α := K.ofList [t, u]

/-- The chain with a name and members, and one more pass at its end. -/
def add (name : String) (members : List (PassTree α)) (t : PassTree α) : PassTree α :=
  .chain (if name = "" then K.nameOf t else name ++ "+" ++ K.nameOf t) (members ++ [t])

mutual

/-- Copies a tree: a chain keeps its name and copies its members. -/
def copyOf : PassTree α → PassTree α
  | .pass p => .pass (K.copy p)
  | .chain name members => .chain name (copyAll members)

def copyAll : List (PassTree α) → List (PassTree α)
  | [] => []
  | t :: ts => copyOf t :: copyAll ts

end

/-! ## A tree runs its leaves -/

theorem runLeaves_append (ps qs : List α) (g : Grammar) :
    K.runLeaves (ps ++ qs) g = K.runLeaves ps g >>= K.runLeaves qs := by
  unfold runLeaves
  exact List.foldlM_append

mutual

/-- **A tree runs its leaves.** -/
theorem run_eq_runLeaves (t : PassTree α) (g : Grammar) : K.run t g = K.runLeaves t.leaves g := by
  cases t with
  | pass p =>
    rw [run, leaves, runLeaves, List.foldlM_cons]
    cases K.apply p g <;> rfl
  | chain name members =>
    rw [run, leaves]
    exact runAll_eq_runLeaves members g

theorem runAll_eq_runLeaves (ts : List (PassTree α)) (g : Grammar) :
    K.runAll ts g = K.runLeaves (allLeaves ts) g := by
  cases ts with
  | nil => rfl
  | cons t ts =>
    rw [runAll, allLeaves, runLeaves_append, run_eq_runLeaves t g]
    cases K.runLeaves t.leaves g with
    | error e => rfl
    | ok h => exact runAll_eq_runLeaves ts h

end

theorem runAll_append (ts us : List (PassTree α)) (g : Grammar) :
    K.runAll (ts ++ us) g = K.runAll ts g >>= K.runAll us := by
  rw [runAll_eq_runLeaves, runAll_eq_runLeaves, allLeaves_append, runLeaves_append]
  congr 1
  funext h
  rw [runAll_eq_runLeaves]

theorem runAll_singleton (t : PassTree α) (g : Grammar) : K.runAll [t] g = K.run t g := by
  rw [runAll]
  cases K.run t g <;> rfl

/-- **A run ends with the error of the first pass that fails**, on what the passes before it
gave. -/
theorem runLeaves_eq_error {ps : List α} {g : Grammar} {e : GrammarError} :
    K.runLeaves ps g = .error e ↔
      ∃ before p after h, ps = before ++ p :: after ∧ K.runLeaves before g = .ok h ∧
        K.apply p h = .error e := by
  constructor
  · intro hrun
    induction ps generalizing g with
    | nil => cases hrun
    | cons p ps ih =>
      cases hp : K.apply p g with
      | error e' =>
        have hfirst : K.runLeaves (p :: ps) g = .error e' := by
          rw [runLeaves, List.foldlM_cons, hp]
          rfl
        obtain rfl : e' = e := Except.error.inj (hfirst.symm.trans hrun)
        exact ⟨[], p, ps, g, rfl, rfl, hp⟩
      | ok g' =>
        have hstep : ∀ qs, K.runLeaves (p :: qs) g = K.runLeaves qs g' := by
          intro qs
          rw [runLeaves, List.foldlM_cons, hp]
          rfl
        obtain ⟨before, q, after, h, rfl, hbefore, hq⟩ := ih ((hstep ps).symm.trans hrun)
        exact ⟨p :: before, q, after, h, rfl, (hstep before).trans hbefore, hq⟩
  · rintro ⟨before, p, after, h, rfl, hbefore, hp⟩
    rw [runLeaves_append, hbefore]
    show K.runLeaves (p :: after) h = .error e
    rw [runLeaves, List.foldlM_cons, hp]
    rfl

/-! ## The ways to make chains -/

@[simp] theorem leaves_ofList (ts : List (PassTree α)) : (K.ofList ts).leaves = allLeaves ts := by
  rw [ofList, leaves]

@[simp] theorem leaves_followedBy (t u : PassTree α) :
    (K.followedBy t u).leaves = t.leaves ++ u.leaves := by
  rw [followedBy, leaves_ofList]
  simp [allLeaves]

@[simp] theorem leaves_add (name : String) (members : List (PassTree α)) (t : PassTree α) :
    (K.add name members t).leaves = allLeaves members ++ t.leaves := by
  rw [add, leaves, allLeaves_append]
  simp [allLeaves]

mutual

/-- A copy has copies at its leaves. -/
theorem leaves_copyOf (t : PassTree α) : (K.copyOf t).leaves = t.leaves.map K.copy := by
  cases t with
  | pass p => rw [copyOf, leaves, leaves, List.map_singleton]
  | chain name members =>
    rw [copyOf, leaves, leaves]
    exact allLeaves_copyAll members

theorem allLeaves_copyAll (ts : List (PassTree α)) :
    allLeaves (K.copyAll ts) = (allLeaves ts).map K.copy := by
  cases ts with
  | nil => rfl
  | cons t ts =>
    rw [copyAll, allLeaves, allLeaves, List.map_append, leaves_copyOf t, allLeaves_copyAll ts]

end

/-- **A copy does what the tree does**, as long as this is so for its leaves. -/
theorem run_copyOf (hcopy : ∀ p g, K.apply (K.copy p) g = K.apply p g) (t : PassTree α)
    (g : Grammar) :
    K.run (K.copyOf t) g = K.run t g := by
  rw [run_eq_runLeaves, run_eq_runLeaves, leaves_copyOf]
  simp only [runLeaves, List.foldlM_map, hcopy]

theorem runAll_map_copyOf (hcopy : ∀ p g, K.apply (K.copy p) g = K.apply p g)
    (ts : List (PassTree α)) (g : Grammar) : K.runAll (ts.map K.copyOf) g = K.runAll ts g := by
  induction ts generalizing g with
  | nil => rfl
  | cons t ts ih =>
    rw [List.map_cons, runAll, runAll, K.run_copyOf hcopy]
    cases K.run t g with
    | error e => rfl
    | ok h => exact ih h

/-! ## Rearrangements -/

/-- One change to a row of passes: all of them, also none, become members of a chain; the only one
is replaced by its copy; or such a change is made to neighbours in a longer row. -/
inductive Rearranges : List (PassTree α) → List (PassTree α) → Prop
  | group (ts : List (PassTree α)) (name : String) : Rearranges ts [.chain name ts]
  | copy (t : PassTree α) : Rearranges [t] [K.copyOf t]
  | beside (left right : List (PassTree α)) {ts us : List (PassTree α)} (h : Rearranges ts us) :
      Rearranges (left ++ ts ++ right) (left ++ us ++ right)

/-- Any number of such changes, made or undone. -/
def Rearranged : List (PassTree α) → List (PassTree α) → Prop := Relation.EqvGen K.Rearranges

variable {K} {ts us vs : List (PassTree α)}

theorem Rearranged.symm (h : K.Rearranged ts us) : K.Rearranged us ts := Relation.EqvGen.symm _ _ h

theorem Rearranged.trans (h : K.Rearranged ts us) (h' : K.Rearranged us vs) : K.Rearranged ts vs :=
  Relation.EqvGen.trans _ _ _ h h'

theorem Rearranged.beside (h : K.Rearranged ts us) (left right : List (PassTree α)) :
    K.Rearranged (left ++ ts ++ right) (left ++ us ++ right) := by
  induction h with
  | rel ts us h => exact .rel _ _ (.beside left right h)
  | refl ts => exact .refl _
  | symm ts us _ ih => exact ih.symm
  | trans ts us vs _ _ ih ih' => exact ih.trans ih'

theorem rearranged_group (ts : List (PassTree α)) (name : String) :
    K.Rearranged ts [.chain name ts] :=
  .rel _ _ (.group ts name)

/-- The members of a chain are rearranged where they stand: the chain is taken apart and made
again. -/
theorem Rearranged.inside (h : K.Rearranged ts us) (name name' : String) :
    K.Rearranged [.chain name ts] [.chain name' us] :=
  ((rearranged_group ts name).symm.trans h).trans (rearranged_group us name')

theorem runAll_rearranges (hcopy : ∀ p g, K.apply (K.copy p) g = K.apply p g)
    (h : K.Rearranges ts us) (g : Grammar) : K.runAll ts g = K.runAll us g := by
  induction h generalizing g with
  | group ts name => rw [runAll_singleton, run]
  | copy t => rw [runAll_singleton, runAll_singleton, K.run_copyOf hcopy]
  | beside left right h ih =>
    have hsame : K.runAll _ = K.runAll _ := funext ih
    simp only [runAll_append, hsame]

/-- **Rearranged passes do the same.** -/
theorem runAll_rearranged (hcopy : ∀ p g, K.apply (K.copy p) g = K.apply p g)
    (h : K.Rearranged ts us) (g : Grammar) : K.runAll ts g = K.runAll us g := by
  induction h with
  | rel ts us h => exact runAll_rearranges hcopy h g
  | refl ts => rfl
  | symm ts us _ ih => exact ih.symm
  | trans ts us vs _ _ ih ih' => exact ih.trans ih'

mutual

/-- All chains of a tree can be taken apart. -/
theorem rearranged_leaves (t : PassTree α) : K.Rearranged [t] (t.leaves.map .pass) := by
  cases t with
  | pass p =>
    rw [leaves, List.map_singleton]
    exact .refl _
  | chain name members =>
    rw [leaves]
    exact (rearranged_group members name).symm.trans (rearranged_allLeaves members)

theorem rearranged_allLeaves (ts : List (PassTree α)) :
    K.Rearranged ts ((allLeaves ts).map .pass) := by
  cases ts with
  | nil => exact .refl _
  | cons t ts =>
    have hfirst := (rearranged_leaves t).beside [] ts
    have hrest := (rearranged_allLeaves ts).beside (t.leaves.map .pass) []
    rw [allLeaves, List.map_append]
    simp only [List.nil_append, List.singleton_append, List.append_nil] at hfirst hrest
    exact hfirst.trans hrest

end

/-- **Chains of the same leaves are rearrangements of each other.** -/
theorem rearranged_of_leaves (h : allLeaves ts = allLeaves us) : K.Rearranged ts us := by
  have hflat := rearranged_allLeaves (K := K) us
  rw [← h] at hflat
  exact (rearranged_allLeaves ts).trans hflat.symm

end PassKind

/-! ## Passes over the four stages -/

/-- The stages as a kind of passes; a copy of a stage is that stage. -/
def Stage.kind : PassKind Stage where
  name := Stage.name
  apply := Stage.apply
  copy := id

mutual

theorem Stage.copyOf_kind (t : PassTree Stage) : Stage.kind.copyOf t = t := by
  cases t with
  | pass s => rfl
  | chain name members => rw [PassKind.copyOf, Stage.copyAll_kind members]

theorem Stage.copyAll_kind (ts : List (PassTree Stage)) : Stage.kind.copyAll ts = ts := by
  cases ts with
  | nil => rfl
  | cons t ts => rw [PassKind.copyAll, Stage.copyOf_kind t, Stage.copyAll_kind ts]

end

namespace Pass

mutual

def tree : Pass → PassTree Stage
  | stage s => .pass s
  | chain name members => .chain name (trees members)

def trees : List Pass → List (PassTree Stage)
  | [] => []
  | p :: ps => p.tree :: trees ps

end

theorem trees_eq_map (ps : List Pass) : trees ps = ps.map tree := by
  induction ps with
  | nil => rfl
  | cons p ps ih => rw [trees, List.map_cons, ih]

theorem nameOf_tree (p : Pass) : Stage.kind.nameOf p.tree = p.name := by
  cases p <;> rw [tree] <;> rfl

theorem tree_ofList (ps : List Pass) :
    (Chain.ofList ps).toPass.tree = Stage.kind.ofList (ps.map tree) := by
  have hnames : Stage.kind.nameOf ∘ tree = name := funext nameOf_tree
  rw [Chain.ofList, Chain.toPass, tree, trees_eq_map, PassKind.ofList, List.map_map, hnames]

theorem tree_add (c : Chain) (p : Pass) :
    (c.add p).toPass.tree = Stage.kind.add c.name (c.members.map tree) p.tree := by
  rw [Chain.add, Chain.toPass, tree, trees_eq_map, List.map_append, PassKind.add, nameOf_tree]
  rfl

mutual

/-- **A pass over the stages runs as its tree does.** -/
theorem run_tree (p : Pass) (g : Grammar) : Stage.kind.run p.tree g = p.apply g := by
  cases p with
  | stage s =>
    rw [tree, PassKind.run, apply]
    rfl
  | chain name members =>
    rw [tree, PassKind.run, apply]
    exact runAll_trees members g

theorem runAll_trees (ps : List Pass) (g : Grammar) :
    Stage.kind.runAll (trees ps) g = applyAll ps g := by
  cases ps with
  | nil => rfl
  | cons p ps =>
    rw [trees, PassKind.runAll, applyAll, run_tree p g]
    cases p.apply g with
    | error e => rfl
    | ok h => exact runAll_trees ps h

end

end Pass

namespace PassKind

open PassTree

variable {α : Type} (K : PassKind α)

theorem run_eq_of_rearranged (hcopy : ∀ p g, K.apply (K.copy p) g = K.apply p g) {t u : PassTree α}
    (h : K.Rearranged [t] [u]) (g : Grammar) : K.run t g = K.run u g := by
  rw [← K.runAll_singleton t, ← K.runAll_singleton u]
  exact runAll_rearranged hcopy h g

/-- **Chains compose.**  Whatever the passes are: a tree of chains runs its leaves from left to
right, each on what the last one gave, and ends with the error of the first that fails.  The leaves
of a chain are those of its members in their order, in whichever way it was made, and those of a
copy are copies.  Trees of the same leaves are rearrangements of each other, by putting passes into
chains of their own, also none of them, and taking them out again, and they do the same.  As long as
the copies of passes do what the passes do, replacing passes by copies changes nothing either.
Passes over the stages are run in this way. -/
theorem chains_compose :
    (∀ t g, K.run t g = K.runLeaves t.leaves g) ∧
    (∀ t g e, K.run t g = .error e ↔
      ∃ before p after h, t.leaves = before ++ p :: after ∧ K.runLeaves before g = .ok h ∧
        K.apply p h = .error e) ∧
    (∀ ts, (K.ofList ts).leaves = ts.flatMap leaves) ∧
    (∀ t u, (K.followedBy t u).leaves = t.leaves ++ u.leaves) ∧
    (∀ name members t, (K.add name members t).leaves = (chain name members).leaves ++ t.leaves) ∧
    (∀ t, (K.copyOf t).leaves = t.leaves.map K.copy) ∧
    (∀ t u, t.leaves = u.leaves → K.Rearranged [t] [u] ∧ ∀ g, K.run t g = K.run u g) ∧
    ((∀ p g, K.apply (K.copy p) g = K.apply p g) →
      ∀ t u, K.Rearranged [t] [u] → ∀ g, K.run t g = K.run u g) ∧
    ∀ (p : Pass) (g : Grammar), p.apply g = Stage.kind.run p.tree g := by
  refine ⟨K.run_eq_runLeaves, fun t g e => ?_, fun ts => ?_, K.leaves_followedBy,
    fun name members t => ?_, K.leaves_copyOf, fun t u hleaves => ⟨?_, fun g => ?_⟩,
    fun hcopy t u h => K.run_eq_of_rearranged hcopy h, fun p g => (p.run_tree g).symm⟩
  · rw [run_eq_runLeaves]
    exact K.runLeaves_eq_error
  · rw [leaves_ofList, allLeaves_eq_flatMap]
  · rw [leaves_add, leaves]
  · refine rearranged_of_leaves ?_
    simp [allLeaves, hleaves]
  · rw [run_eq_runLeaves, run_eq_runLeaves, hleaves]

/-- Passes that add one rule for the start symbol each; a copy of such a pass is told from it by a
number. -/
def additions : PassKind (Nat × Text) where
  name p := String.ofList p.2
  apply p g := g.addRule g.start p.2
  copy p := (p.1 + 1, p.2)

/-- Three additions, the second of which has a body that is mixed with the marker. -/
def mixedAdditions : PassTree (Nat × Text) :=
  additions.add "" [.pass (0, ['a']),
    additions.followedBy (additions.ofList []) (.pass (0, ['b', '#']))]
    (.pass (0, ['#', 'c']))

/-- The same additions as members of one chain, the first of them a copy, and a chain of nothing
behind them. -/
def copiedAdditions : PassTree (Nat × Text) :=
  additions.ofList [additions.copyOf (.pass (0, ['a'])), .pass (0, ['b', '#']),
    .pass (0, ['#', 'c']), additions.ofList []]

theorem chains_compose_additions :
    (∀ p g, additions.apply (additions.copy p) g = additions.apply p g) ∧
      additions.Rearranged [mixedAdditions] [copiedAdditions] ∧
      (∀ g, additions.run copiedAdditions g = additions.run mixedAdditions g) ∧
      additions.run mixedAdditions ⟨[], 'S', '#'⟩ =
        .error (.malformedRule 0 (.mixedMarker ['b', '#'])) := by
  have hcopy : ∀ p g, additions.apply (additions.copy p) g = additions.apply p g := fun _ _ => rfl
  obtain ⟨-, hfirst, -, -, -, -, hleaves, hsame, -⟩ := additions.chains_compose
  have hrow : additions.Rearranged [mixedAdditions] [copiedAdditions] := by
    obtain ⟨hgrouped, -⟩ := hleaves mixedAdditions
      (additions.ofList [.pass (0, ['a']), .pass (0, ['b', '#']), .pass (0, ['#', 'c']),
        additions.ofList []]) rfl
    have hcopied : additions.Rearranges [.pass (0, ['a'])] [additions.copyOf (.pass (0, ['a']))] :=
      .copy _
    have hmembers := Relation.EqvGen.rel _ _ (hcopied.beside []
      [.pass (0, ['b', '#']), .pass (0, ['#', 'c']), additions.ofList []])
    exact hgrouped.trans (Rearranged.inside hmembers _ _)
  refine ⟨hcopy, hrow, fun g => (hsame hcopy _ _ hrow g).symm, ?_⟩
  exact (hfirst _ _ _).2 ⟨[(0, ['a'])], (0, ['b', '#']), [(0, ['#', 'c'])], _, rfl, rfl, rfl⟩

end PassKind

end Chomsky
