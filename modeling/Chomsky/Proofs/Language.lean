import Chomsky.Derivation

/-!
# The language of a nonterminal as a least interpretation

Rewritings change the rules and keep some of the languages.  Such facts are proved here once, for
any interpretation of the nonterminals by sets of strings.

* `Reads S body word` — the body reads as the string when each nonterminal may stand for any string
  that the interpretation `S` gives it.
* `Generates rules name word` — the nonterminal yields the string by the given rules.
* `nullFree rules` — the rules without the null symbol.
* `Fruitful rules` — no rule is a dead end.

Principal results: `yields_iff_reads` — yielding is reading under the interpretation that the rules
generate; `Generates.least` — that interpretation is contained in every one that is closed under
the rules.
-/

namespace Chomsky

/-- An interpretation says which strings a nonterminal may stand for. -/
abbrev Interpretation := Char → List Char → Prop

/-- A body reads as a string under an interpretation of its nonterminals. -/
def Reads (S : Interpretation) : List Symbol → List Char → Prop
  | [], w => w = []
  | .terminal a :: rest, w => ∃ v, w = a :: v ∧ Reads S rest v
  | .null :: rest, w => Reads S rest w
  | .nonterminal X :: rest, w => ∃ u v, w = u ++ v ∧ S X u ∧ Reads S rest v

/-- A nonterminal yields a string by the given rules. -/
def Generates (rules : List Rule) : Interpretation := fun name word =>
  Yields rules [.nonterminal name] word

theorem derives_eq_generates (g : Grammar) : Derives g = Generates g.rules := rfl

/-- The rules that do not use the null symbol. -/
def nullFree (rules : List Rule) : List Rule := rules.filter (Symbol.null ∉ ·.body)

@[simp] theorem mem_nullFree {rules : List Rule} {r : Rule} :
    r ∈ nullFree rules ↔ r ∈ rules ∧ Symbol.null ∉ r.body := by
  simp [nullFree]

theorem nullFree_eq_self {rules : List Rule} (h : ∀ r ∈ rules, Symbol.null ∉ r.body) :
    nullFree rules = rules :=
  List.filter_eq_self.2 fun r hr => by simpa using h r hr

/-- No rule is a dead end: each body reads as some string by the rules. -/
def Fruitful (rules : List Rule) : Prop :=
  ∀ r ∈ rules, ∃ w, Reads (Generates rules) r.body w

/-! ## Reading bodies -/

section Reads

variable {S T : Interpretation} {as bs : List Symbol} {w : List Char}

/-- Reading depends only on the nonterminals of the body. -/
theorem Reads.imp (h : ∀ X, .nonterminal X ∈ as → ∀ u, S X u → T X u) (hr : Reads S as w) :
    Reads T as w := by
  induction as generalizing w with
  | nil => exact hr
  | cons s rest ih =>
    have hrest : ∀ X, .nonterminal X ∈ rest → ∀ u, S X u → T X u :=
      fun X hX => h X (List.mem_cons_of_mem _ hX)
    cases s with
    | terminal a =>
      obtain ⟨v, hw, hv⟩ := hr
      exact ⟨v, hw, ih hrest hv⟩
    | null => exact ih hrest hr
    | nonterminal X =>
      obtain ⟨u, v, hw, hu, hv⟩ := hr
      exact ⟨u, v, hw, h X (List.mem_cons_self ..) u hu, ih hrest hv⟩

theorem Reads.mono (h : ∀ X u, S X u → T X u) (hr : Reads S as w) : Reads T as w :=
  hr.imp fun X _ => h X

theorem reads_append :
    Reads S (as ++ bs) w ↔ ∃ u v, w = u ++ v ∧ Reads S as u ∧ Reads S bs v := by
  induction as generalizing w with
  | nil =>
    constructor
    · intro h
      exact ⟨[], w, rfl, rfl, h⟩
    · rintro ⟨u, v, rfl, rfl, h⟩
      exact h
  | cons s rest ih =>
    cases s with
    | terminal a =>
      constructor
      · rintro ⟨x, rfl, hx⟩
        obtain ⟨u, v, rfl, hu, hv⟩ := ih.1 hx
        exact ⟨a :: u, v, rfl, ⟨u, rfl, hu⟩, hv⟩
      · rintro ⟨u, v, rfl, ⟨x, rfl, hx⟩, hv⟩
        exact ⟨x ++ v, rfl, ih.2 ⟨x, v, rfl, hx, hv⟩⟩
    | null => exact ih
    | nonterminal X =>
      constructor
      · rintro ⟨x, y, rfl, hx, hy⟩
        obtain ⟨u, v, rfl, hu, hv⟩ := ih.1 hy
        exact ⟨x ++ u, v, (List.append_assoc ..).symm, ⟨x, u, rfl, hx, hu⟩, hv⟩
      · rintro ⟨u, v, rfl, ⟨x, y, rfl, hx, hy⟩, hv⟩
        exact ⟨x, y ++ v, List.append_assoc .., hx, ih.2 ⟨y, v, rfl, hy, hv⟩⟩

@[simp] theorem reads_nonterminal {X : Char} : Reads S [.nonterminal X] w ↔ S X w := by
  constructor
  · rintro ⟨u, v, rfl, hu, rfl⟩
    rwa [List.append_nil]
  · intro h
    exact ⟨w, [], (List.append_nil w).symm, h, rfl⟩

@[simp] theorem reads_terminal {a : Char} : Reads S [.terminal a] w ↔ w = [a] := by
  constructor
  · rintro ⟨v, rfl, rfl⟩
    rfl
  · rintro rfl
    exact ⟨[], rfl, rfl⟩

/-- A body of two nonterminals reads as two strings in a row. -/
theorem reads_pair {X Y : Char} :
    Reads S [.nonterminal X, .nonterminal Y] w ↔ ∃ u v, w = u ++ v ∧ S X u ∧ S Y v := by
  rw [show [Symbol.nonterminal X, .nonterminal Y] = [.nonterminal X] ++ [.nonterminal Y] from rfl,
    reads_append]
  simp only [reads_nonterminal]

/-- A body that is not empty and has no null symbol reads as non-empty strings, when its
nonterminals do. -/
theorem Reads.ne_nil (hS : ∀ X u, S X u → u ≠ []) (hne : as ≠ []) (hnull : .null ∉ as)
    (hr : Reads S as w) : w ≠ [] := by
  cases as with
  | nil => exact absurd rfl hne
  | cons s rest =>
    cases s with
    | terminal a =>
      obtain ⟨v, rfl, -⟩ := hr
      exact List.cons_ne_nil _ _
    | null => exact absurd (List.mem_cons_self ..) hnull
    | nonterminal X =>
      obtain ⟨u, v, rfl, hu, -⟩ := hr
      exact fun h => hS X u hu (List.append_eq_nil_iff.1 h).1

end Reads

/-! ## The interpretation that rules generate -/

section Generates

variable {rules more : List Rule} {S : Interpretation} {X : Char} {w : List Char}

/-- **Yielding is reading under the generated interpretation.** -/
theorem yields_iff_reads {body : List Symbol} :
    Yields rules body w ↔ Reads (Generates rules) body w := by
  constructor
  · intro h
    induction h with
    | nil => rfl
    | terminal a _ ih => exact ⟨_, rfl, ih⟩
    | null _ ih => exact ih
    | nonterminal hr hbody _ _ ih =>
      have hfirst := hbody.nonterminal hr .nil
      rw [List.append_nil] at hfirst
      exact ⟨_, _, rfl, hfirst, ih⟩
  · intro h
    induction body generalizing w with
    | nil =>
      cases h
      exact .nil
    | cons s rest ih =>
      cases s with
      | terminal a =>
        obtain ⟨v, rfl, hv⟩ := h
        exact (ih hv).terminal a
      | null => exact (ih h).null
      | nonterminal X =>
        obtain ⟨u, v, rfl, hu, hv⟩ := h
        exact Yields.append hu (ih hv)

/-- A nonterminal generates what the bodies of its rules read as. -/
theorem generates_iff :
    Generates rules X w ↔ ∃ r ∈ rules, r.head = X ∧ Reads (Generates rules) r.body w := by
  simp only [← yields_iff_reads]
  exact derives_iff (g := ⟨rules, X, X⟩)

theorem Generates.rule {r : Rule} (hr : r ∈ rules) (h : Reads (Generates rules) r.body w) :
    Generates rules r.head w :=
  generates_iff.2 ⟨r, hr, rfl, h⟩

theorem Generates.mono (h : ∀ r ∈ rules, r ∈ more) (hX : Generates rules X w) :
    Generates more X w :=
  Yields.mono h hX

/-- **The generated interpretation is the least one that is closed under the rules.** -/
theorem Generates.least (h : ∀ r ∈ rules, ∀ u, Reads S r.body u → S r.head u)
    (hX : Generates rules X w) : S X w := by
  have hreads : ∀ {body : List Symbol} {u : List Char}, Yields rules body u → Reads S body u := by
    intro body u hu
    induction hu with
    | nil => rfl
    | terminal a _ ih => exact ⟨_, rfl, ih⟩
    | null _ ih => exact ih
    | nonterminal hr _ _ ihbody ih => exact ⟨_, _, rfl, h _ hr _ ihbody, ih⟩
  exact reads_nonterminal.1 (hreads hX)

/-- What is generated, with what is known of the strings of the body's nonterminals: `S` may use
that they are generated. -/
theorem Generates.least_of_generates
    (h : ∀ r ∈ rules, ∀ u, Reads (fun Y v => Generates rules Y v ∧ S Y v) r.body u → S r.head u)
    (hX : Generates rules X w) : S X w := by
  have hboth : Generates rules X w ∧ S X w :=
    hX.least (S := fun Y v => Generates rules Y v ∧ S Y v) fun r hr u hu =>
      ⟨.rule hr (hu.mono fun _ _ hv => hv.1), h r hr u hu⟩
  exact hboth.2

/-- Without empty bodies and null symbols no nonterminal generates the empty string. -/
theorem Generates.ne_nil (hne : ∀ r ∈ rules, r.body ≠ [])
    (hnull : ∀ r ∈ rules, Symbol.null ∉ r.body) (hX : Generates rules X w) : w ≠ [] :=
  hX.least (S := fun _ v => v ≠ []) fun r hr _ hu =>
    hu.ne_nil (fun _ _ hv => hv) (hne r hr) (hnull r hr)

/-- Rules with the same members generate the same. -/
theorem generates_congr (h : ∀ r, r ∈ rules ↔ r ∈ more) : Generates rules = Generates more := by
  funext X w
  exact propext ⟨.mono fun r => (h r).1, .mono fun r => (h r).2⟩

end Generates

end Chomsky
