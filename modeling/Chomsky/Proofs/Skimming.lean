import Chomsky.Json.Skim
import Chomsky.Proofs.JsonScanning
import Mathlib

/-!
# Skimming reaches the end of a value

Skimming goes through a text character by character, with a list of the arrays and objects that are
still open.  The texts that it has to get through are built on the value: of each of its parts,
skimming leaves the state that its surroundings expect.

* `skimAfter` — what is left to do when a value is complete.
* `skimFrom_more`, `skimFrom_finish` — one character.
* `skimFrom_spaces`, `skimFrom_word`, `skimFrom_text`, `skimFrom_number` — the parts that are no
  arrays or objects.

Principal results: `skimFrom_value` — a value of any nesting is skimmed to its end, inside whatever
is open; `skimValue_append` — of a text that begins with a value, what comes after the value is
left.
-/

namespace Chomsky.Json

open Skim

/-- What is left to do when a value inside `nest` is complete. -/
def skimAfter (nest : List Nest) (t : Text) : Except JsonFault Text :=
  match nest with
  | [] => .ok t
  | _ :: _ => skimFrom nest .next t

variable {nest : List Nest} {state : Skim} {c : Char} {t : Text}

/-! ## One character -/

theorem skimFrom_more {nest' : List Nest} {state' : Skim}
    (h : state.step nest c t = .more nest' state') :
    skimFrom nest state (c :: t) = skimFrom nest' state' t := by
  rw [skimFrom, h]

theorem skimFrom_finish {nest' : List Nest} (h : state.step nest c t = finish nest') :
    skimFrom nest state (c :: t) = skimAfter nest' t := by
  rw [skimFrom, h]
  cases nest' <;> rfl

/-! ## White space, words and strings -/

/-- States in which white space may come. -/
def Skim.isIdle : Skim → Bool
  | value | firstItem | firstKey | key | colon | next => true
  | _ => false

theorem step_space (hidle : state.isIdle = true) (hc : isSpace c = true) :
    state.step nest c t = .more nest state := by
  cases state <;> simp_all [isIdle, step, following]

theorem skimFrom_spaces (hidle : state.isIdle = true) {space : Text} (hspace : IsSpaces space) :
    skimFrom nest state (space ++ t) = skimFrom nest state t := by
  induction space with
  | nil => rfl
  | cons c space ih =>
    obtain ⟨hc, hspace⟩ := List.forall_mem_cons.1 hspace
    rw [List.cons_append, skimFrom_more (step_space hidle hc), ih hspace]

theorem skimFrom_word (l : Char) (ls : Text) :
    skimFrom nest (.word (l :: ls)) (l :: ls ++ t) = skimAfter nest t := by
  induction ls generalizing l with
  | nil => exact skimFrom_finish (by simp [step])
  | cons m ls ih =>
    have hstep : ∀ u, step nest (.word (l :: m :: ls)) l u = .more nest (.word (m :: ls)) := by
      simp [step]
    rw [List.cons_append, skimFrom_more (hstep _)]
    exact ih m

theorem skimFrom_code {u : Text} {n : Nat} (hu : IsCode u n) (isKey : Bool) :
    skimFrom nest (.hex isKey 3) (u ++ t) = skimFrom nest (.text isKey) t := by
  cases hu with
  | digits ha hb hc hd =>
    rw [← hexValue?_eq_some] at ha hb hc hd
    simp [skimFrom, step, ha, hb, hc, hd]

theorem skimFrom_text {body : Text} (hbody : IsStringBody body) (isKey : Bool) :
    skimFrom nest (.text isKey) (body ++ '"' :: t) =
      if isKey then skimFrom nest .colon t else skimAfter nest t := by
  induction hbody with
  | nil =>
    cases isKey with
    | false => exact skimFrom_finish rfl
    | true => exact skimFrom_more rfl
  | @plain c body hc _ ih =>
    have hcontrol : ¬ c.toNat < 0x20 := Nat.not_lt.2 hc.not_control
    have hstep : ∀ u, step nest (.text isKey) c u = .more nest (.text isKey) := by
      simp [step, hc.ne_quote, hc.ne_backslash, hcontrol]
    rw [List.cons_append, skimFrom_more (hstep _), ih]
  | @escape c d body hc _ ih =>
    have hstep : ∀ u, step nest (.escape isKey) c u = .more nest (.text isKey) := by
      simp [step, ne_u_of_mem_escapes hc, unescape?_eq_some.2 hc]
    rw [List.cons_append, List.cons_append, skimFrom_more rfl, skimFrom_more (hstep _), ih]
  | code hu _ ih =>
    simp only [List.cons_append, List.append_assoc]
    rw [skimFrom_more rfl, skimFrom_more rfl, skimFrom_code hu, ih]

/-! ## Numbers -/

/-- States in which a number may end. -/
def Skim.endsNumber : Skim → Bool
  | zero | integer | fraction | exponentDigits => true
  | _ => false

/-- States inside a sequence of digits. -/
def Skim.inDigits : Skim → Bool
  | integer | fraction | exponentDigits => true
  | _ => false

theorem step_afterNumber (hends : state.endsNumber = true) (hc : inNumber c = false) :
    state.step nest c t = afterNumber nest c := by
  simp only [inNumber, Bool.or_eq_false_iff, List.contains_eq_mem, decide_eq_false_iff_not,
    List.mem_cons, List.not_mem_nil, or_false, not_or] at hc
  cases state <;> simp_all [endsNumber, step, afterInteger]

theorem skimFrom_afterNumber (hends : state.endsNumber = true) (ht : Stops t) :
    skimFrom nest state t = skimAfter nest t := by
  match t with
  | [] => cases nest <;> cases state <;> first | rfl | cases hends
  | c :: t =>
    have hstep : state.step nest c t = afterNumber nest c := step_afterNumber hends (ht c rfl)
    rw [skimFrom, hstep]
    cases nest with
    | nil => rfl
    | cons n nest => rfl

theorem step_digit (hdigits : state.inDigits = true) (hc : c.isDigit = true) :
    state.step nest c t = .more nest state := by
  cases state <;> simp_all [inDigits, step]

theorem skimFrom_digits (hdigits : state.inDigits = true) {ds : Text}
    (hds : ∀ d ∈ ds, d.isDigit = true) :
    skimFrom nest state (ds ++ t) = skimFrom nest state t := by
  induction ds with
  | nil => rfl
  | cons d ds ih =>
    obtain ⟨hd, hds⟩ := List.forall_mem_cons.1 hds
    rw [List.cons_append, skimFrom_more (step_digit hdigits hd), ih hds]

theorem skimFrom_exponentDigits {ds : Text} (hds : IsDigits ds)
    (hstate : state = .exponent ∨ state = .exponentSign) (ht : Stops t) :
    skimFrom nest state (ds ++ t) = skimAfter nest t := by
  match ds, hds with
  | d :: ds, ⟨_, hds⟩ =>
    obtain ⟨hd, hds⟩ := List.forall_mem_cons.1 hds
    have hplus : d ≠ '+' := by rintro rfl; cases hd
    have hminus : d ≠ '-' := by rintro rfl; cases hd
    have hstep : state.step nest d (ds ++ t) = .more nest .exponentDigits := by
      rcases hstate with rfl | rfl <;> simp [step, hplus, hminus, hd]
    rw [List.cons_append, skimFrom_more hstep, skimFrom_digits rfl hds, skimFrom_afterNumber rfl ht]

theorem skimFrom_exponent {e : Text} (he : IsExponent e)
    (hstate : state = .zero ∨ state = .integer ∨ state = .fraction) (ht : Stops t) :
    skimFrom nest state (e ++ t) = skimAfter nest t := by
  cases he with
  | none =>
    have hends : state.endsNumber = true := by rcases hstate with rfl | rfl | rfl <;> rfl
    exact skimFrom_afterNumber hends ht
  | @digits e sign ds he hsign hds =>
    have hstep : ∀ u, state.step nest e u = .more nest .exponent := fun u => by
      rcases hstate with rfl | rfl | rfl <;> rcases he with rfl | rfl <;> rfl
    rw [List.cons_append, skimFrom_more (hstep _), List.append_assoc]
    rcases hsign with rfl | rfl | rfl
    · exact skimFrom_exponentDigits hds (.inl rfl) ht
    · exact (skimFrom_more rfl).trans (skimFrom_exponentDigits hds (.inr rfl) ht)
    · exact (skimFrom_more rfl).trans (skimFrom_exponentDigits hds (.inr rfl) ht)

theorem skimFrom_fraction {f e : Text} (hf : IsFraction f) (he : IsExponent e)
    (hstate : state = .zero ∨ state = .integer) (ht : Stops t) :
    skimFrom nest state (f ++ (e ++ t)) = skimAfter nest t := by
  cases hf with
  | none => exact skimFrom_exponent he (hstate.imp_right .inl) ht
  | @digits ds hds =>
    have hstep : ∀ u, state.step nest '.' u = .more nest .point := fun u => by
      rcases hstate with rfl | rfl <;> rfl
    match ds, hds with
    | d :: ds, ⟨_, hds⟩ =>
      obtain ⟨hd, hds⟩ := List.forall_mem_cons.1 hds
      have hdigit : ∀ u, step nest .point d u = .more nest .fraction := by simp [step, hd]
      rw [List.cons_append, skimFrom_more (hstep _), List.cons_append, skimFrom_more (hdigit _),
        skimFrom_digits rfl hds]
      exact skimFrom_exponent he (.inr (.inr rfl)) ht

/-- What begins a number, before which a sign may stand. -/
theorem skimFrom_whole {w f e : Text} (hw : IsWhole w) (hf : IsFraction f) (he : IsExponent e)
    (hstate : state = .value ∨ state = .minus) (ht : Stops t) :
    skimFrom nest state (w ++ (f ++ (e ++ t))) = skimAfter nest t := by
  cases hw with
  | zero =>
    have hstep : ∀ u, state.step nest '0' u = .more nest .zero := fun u => by
      rcases hstate with rfl | rfl <;> rfl
    rw [List.cons_append, List.nil_append, skimFrom_more (hstep _)]
    exact skimFrom_fraction hf he (.inl rfl) ht
  | @digits d ds hd hne hds =>
    have hother : d ≠ '"' ∧ d ≠ '[' ∧ d ≠ '{' ∧ d ≠ 't' ∧ d ≠ 'f' ∧ d ≠ 'n' ∧ d ≠ '-' := by
      refine ⟨?_, ?_, ?_, ?_, ?_, ?_, ?_⟩ <;> (rintro rfl; cases hd)
    have hspace : isSpace d = false := isSpace_of_opens (by simp [opens, hd])
    have hstep : ∀ u, state.step nest d u = .more nest .integer := fun u => by
      rcases hstate with rfl | rfl
      · simp [step, start, hspace, hother, hne, hd]
      · simp [step, firstDigit, hne, hd]
    rw [List.cons_append, skimFrom_more (hstep _), skimFrom_digits rfl hds]
    exact skimFrom_fraction hf he (.inr rfl) ht

/-- **A number is skimmed to its end.** -/
theorem skimFrom_number {u : Text} (hu : IsNumber u) (ht : Stops t) :
    skimFrom nest .value (u ++ t) = skimAfter nest t := by
  cases hu with
  | parts hsign hwhole hfraction hexponent =>
    simp only [List.append_assoc]
    rcases hsign with rfl | rfl
    · exact skimFrom_whole hwhole hfraction hexponent (.inl rfl) ht
    · exact (skimFrom_more rfl).trans (skimFrom_whole hwhole hfraction hexponent (.inr rfl) ht)

/-! ## Values -/

/-- The first item of an array is skimmed as any value. -/
theorem skimFrom_firstItem (hc : opens c = true) :
    skimFrom nest .firstItem (c :: t) = skimFrom nest .value (c :: t) := by
  have hspace := isSpace_of_opens hc
  have hclose : c ≠ ']' := by rintro rfl; cases hc
  simp [skimFrom, step, hspace, hclose]

mutual

/-- **A value is skimmed to its end**, inside whatever is open and with white space before it. -/
theorem skimFrom_value : ∀ (v : Json) {nest : List Nest} {t rest : Text},
    Led (Spells Verbatim v) t →
    Stops rest → skimFrom nest .value (t ++ rest) = skimAfter nest rest
  | v, nest, _, rest, ⟨space, inner, hspace, hinner, rfl⟩, hrest => by
    rw [List.append_assoc, skimFrom_spaces rfl hspace]
    match v, hinner with
    | .null, h =>
      subst h
      exact (skimFrom_more rfl).trans (skimFrom_word 'u' ['l', 'l'])
    | .bool true, h =>
      subst h
      exact (skimFrom_more rfl).trans (skimFrom_word 'r' ['u', 'e'])
    | .bool false, h =>
      subst h
      exact (skimFrom_more rfl).trans (skimFrom_word 'a' ['l', 's', 'e'])
    | .number spelling, ⟨heq, h⟩ =>
      subst heq
      exact skimFrom_number h hrest
    | .string s, ⟨body, ⟨_, h⟩, heq⟩ =>
      subst heq
      rw [List.cons_append, List.append_assoc, skimFrom_more rfl]
      exact skimFrom_text h false
    | .array [], ⟨space', h, heq⟩ =>
      subst heq
      rw [List.cons_append, List.append_assoc, skimFrom_more rfl, skimFrom_spaces rfl h]
      exact skimFrom_finish rfl
    | .array (x :: xs), ⟨first, more, space', hfirst, hmore, hspace', heq⟩ =>
      subst heq
      simp only [List.cons_append, List.nil_append, List.append_assoc]
      rw [skimFrom_more rfl]
      have hstops := hmore.stops hspace' rest
      have hx : skimFrom (.array :: nest) .value (first ++ _) = _ := skimFrom_value x hfirst hstops
      obtain ⟨space'', item, hspace'', hitem, rfl⟩ := hfirst
      obtain ⟨c, u, rfl, hc⟩ := hitem.exists_cons
      rw [List.append_assoc, skimFrom_spaces rfl hspace''] at hx ⊢
      rw [List.cons_append, skimFrom_firstItem hc, ← List.cons_append, hx]
      exact skimFrom_items xs hmore hspace' rest
    | .object [], ⟨space', h, heq⟩ =>
      subst heq
      rw [List.cons_append, List.append_assoc, skimFrom_more rfl, skimFrom_spaces rfl h]
      exact skimFrom_finish rfl
    | .object (m :: ms), ⟨first, more, space', hfirst, hmore, hspace', heq⟩ =>
      subst heq
      simp only [List.cons_append, List.nil_append, List.append_assoc]
      rw [skimFrom_more rfl]
      have hstops := hmore.stops hspace' rest
      rw [skimFrom_member m (.inl rfl) hfirst hstops]
      exact skimFrom_members ms hmore hspace' rest

theorem skimFrom_items : ∀ (xs : List Json) {nest : List Nest} {more space : Text},
    SpellsItems Verbatim xs more → IsSpaces space → ∀ rest : Text,
      skimFrom (.array :: nest) .next (more ++ (space ++ ']' :: rest)) = skimAfter nest rest
  | [], nest, _, space, h, hspace, rest => by
    have h : _ = [] := h
    subst h
    rw [List.nil_append, skimFrom_spaces rfl hspace]
    exact skimFrom_finish rfl
  | x :: xs, nest, _, space, ⟨space', item, more, hspace', hitem, hmore, heq⟩, hspace, rest => by
    subst heq
    simp only [List.cons_append, List.append_assoc]
    have hstops := hmore.stops hspace rest
    rw [skimFrom_spaces rfl hspace', skimFrom_more rfl, skimFrom_value x hitem hstops]
    exact skimFrom_items xs hmore hspace rest

theorem skimFrom_member : ∀ (m : Text × Json) {nest : List Nest} {state : Skim} {t rest : Text},
    state = .firstKey ∨ state = .key → SpellsMember Verbatim m t → Stops rest →
      skimFrom (.object :: nest) state (t ++ rest) = skimAfter (.object :: nest) rest
  | (k, v), nest, state, _, rest, hstate, ⟨before, space, after, hkey, hspace, hvalue, heq⟩,
      hrest => by
    obtain ⟨space', quoted, hspace', ⟨body, ⟨_, hbody⟩, rfl⟩, rfl⟩ := hkey
    subst heq
    simp only [List.cons_append, List.nil_append, List.append_assoc]
    have hidle : state.isIdle = true := by rcases hstate with rfl | rfl <;> rfl
    have hquote : ∀ u,
        state.step (.object :: nest) '"' u = .more (.object :: nest) (.text true) := by
      intro u
      rcases hstate with rfl | rfl <;> rfl
    rw [skimFrom_spaces hidle hspace', skimFrom_more (hquote _), skimFrom_text hbody true,
      if_pos rfl, skimFrom_spaces rfl hspace, skimFrom_more rfl]
    exact skimFrom_value v hvalue hrest

theorem skimFrom_members : ∀ (ms : List (Text × Json)) {nest : List Nest} {more space : Text},
    SpellsMembers Verbatim ms more → IsSpaces space → ∀ rest : Text,
      skimFrom (.object :: nest) .next (more ++ (space ++ '}' :: rest)) = skimAfter nest rest
  | [], nest, _, space, h, hspace, rest => by
    have h : _ = [] := h
    subst h
    rw [List.nil_append, skimFrom_spaces rfl hspace]
    exact skimFrom_finish rfl
  | m :: ms, nest, _, space, ⟨space', member, more, hspace', hmember, hmore, heq⟩, hspace,
      rest => by
    subst heq
    simp only [List.cons_append, List.append_assoc]
    have hstops := hmore.stops hspace rest
    rw [skimFrom_spaces rfl hspace', skimFrom_more rfl, skimFrom_member m (.inr rfl) hmember hstops]
    exact skimFrom_members ms hmore hspace rest

end

/-- **What comes after a value is left.** -/
theorem skimValue_append {v : Json} {t rest : Text} (h : Led (Spells Verbatim v) t)
    (hrest : Stops rest) :
    skimValue (t ++ rest) = .ok rest :=
  skimFrom_value v h hrest

end Chomsky.Json
