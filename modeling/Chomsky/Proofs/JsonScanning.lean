import Chomsky.Proofs.JsonSyntax
import Mathlib

/-!
# What the scanner accepts

The parts of the readers of JSON texts, against the grammar of the format.  Strings are read
character by character through the states of `StringState`.

* `skipSpace_eq_cons`, `expectWord_eq_ok` — white space and words.
* `hexValue?_eq_some`, `unescape?_eq_some` — the digits and the escapes of the reader are those of
  the format.
* `readStringFrom_code`, `exists_code` — four hexadecimal digits at once.

Principal results: `readString_eq_ok` — a string is read exactly if what stands before its closing
quote spells a text, and it is read as that text; `readString_of_not_spellsText` — the other strings
are refused as malformed.
-/

namespace Chomsky.Json

/-! ## White space and words -/

theorem skipSpace_append {space : Text} (h : IsSpaces space) (t : Text) :
    skipSpace (space ++ t) = skipSpace t :=
  List.dropWhile_append_of_pos h

theorem exists_skipSpace (t : Text) : ∃ space, IsSpaces space ∧ t = space ++ skipSpace t :=
  ⟨t.takeWhile isSpace, fun _ => List.mem_takeWhile_imp, List.takeWhile_append_dropWhile.symm⟩

/-- **What follows white space begins with something else.** -/
theorem skipSpace_eq_cons {t u : Text} {c : Char} :
    skipSpace t = c :: u ↔ ∃ space, IsSpaces space ∧ isSpace c = false ∧ t = space ++ c :: u := by
  constructor
  · intro h
    obtain ⟨space, hspace, heq⟩ := exists_skipSpace t
    have hc := List.head?_dropWhile_not isSpace t
    rw [show t.dropWhile isSpace = c :: u from h] at hc
    exact ⟨space, hspace, hc, by rw [← h, ← heq]⟩
  · rintro ⟨space, hspace, hc, rfl⟩
    rw [skipSpace_append hspace]
    simp [skipSpace, hc]

theorem IsSpaces.skipSpace_append_cons {space : Text} (h : IsSpaces space) {c : Char}
    (hc : isSpace c = false) (t : Text) : skipSpace (space ++ c :: t) = c :: t :=
  skipSpace_eq_cons.2 ⟨space, h, hc, rfl⟩

/-- **Where a member begins**: at the opening quote of its key.  What follows is the rest of its
text. -/
theorem SpellsMember.exists_skipSpace {str : Text → Text → Prop} {m : Text × Json} {t : Text}
    (h : SpellsMember str m t) :
    ∃ body space value, str body m.1 ∧ IsSpaces space ∧ Led (Spells str m.2) value ∧
      value.length < t.length ∧
      ∀ rest, skipSpace (t ++ rest) =
        '"' :: (body ++ '"' :: (space ++ ':' :: (value ++ rest))) := by
  obtain ⟨k, v⟩ := m
  obtain ⟨before, space, value, ⟨space', quoted, hspace', ⟨body, hbody, rfl⟩, rfl⟩, hspace, hvalue,
    rfl⟩ := h
  refine ⟨body, space, value, hbody, hspace, hvalue, ?_, fun rest => ?_⟩
  · simp only [List.length_append, List.length_cons]
    omega
  · exact skipSpace_eq_cons.2 ⟨space', hspace', rfl, by simp⟩

theorem skipSpace_eq_nil {t : Text} : skipSpace t = [] ↔ IsSpaces t := by
  simp [skipSpace, List.dropWhile_eq_nil_iff, IsSpaces]

theorem expectWord_eq_ok {w t rest : Text} : expectWord w t = .ok rest ↔ t = w ++ rest := by
  refine ⟨fun h => ?_, fun h => h ▸ expectWord_append w rest⟩
  induction w generalizing t with
  | nil => cases h; rfl
  | cons c w ih =>
    match t with
    | [] => cases h
    | d :: t =>
      unfold expectWord at h
      split at h
      · subst_vars
        rw [ih h, List.cons_append]
      · cases h

/-! ## Digits and escapes -/

theorem toNat_lt_of_hexValue? {c : Char} {n : Nat} (h : hexValue? c = some n) : c.toNat < 128 := by
  unfold hexValue? at h
  have hle : ∀ d e : Char, d ≤ e → d.toNat ≤ e.toNat := fun _ _ h => h
  split at h
  · rename_i hdigit
    simp only [Char.isDigit, Bool.and_eq_true, decide_eq_true_eq] at hdigit
    exact Nat.lt_of_le_of_lt (hle c '9' hdigit.2) (by decide)
  split at h
  · rename_i hlower
    exact Nat.lt_of_le_of_lt (hle c 'f' hlower.2) (by decide)
  split at h
  · rename_i hupper
    exact Nat.lt_of_le_of_lt (hle c 'F' hupper.2) (by decide)
  · cases h

instance (c : Char) (value : Nat) : Decidable (IsHexDigit c value) :=
  inferInstanceAs (Decidable (_ ∧ _))

/-- **The digits of the reader are the hexadecimal ones.** -/
theorem hexValue?_eq_some {c : Char} {n : Nat} : hexValue? c = some n ↔ IsHexDigit c n := by
  constructor
  · intro h
    have hall : ∀ k < 128, ∀ m ∈ hexValue? (Char.ofNat k), IsHexDigit (Char.ofNat k) m := by decide
    have hdigit := hall c.toNat (toNat_lt_of_hexValue? h) n
    rw [Char.ofNat_toNat] at hdigit
    exact hdigit h
  · rintro ⟨hlt, heq⟩
    have hall : ∀ m < 16,
        hexValue? (Nat.digitChar m) = some m ∧ hexValue? (Nat.digitChar m).toUpper = some m := by
          decide
    rcases heq with rfl | rfl
    · exact (hall n hlt).1
    · exact (hall n hlt).2

/-- **The escapes of the reader are those of the format.** -/
theorem unescape?_eq_some {c d : Char} : unescape? c = some d ↔ (c, d) ∈ escapes := by
  constructor
  · intro h
    unfold unescape? at h
    split_ifs at h with hself
    · rcases hself with rfl | rfl | rfl <;> cases h <;> decide
    all_goals
      subst_vars
      cases h
      decide
  · intro h
    have hall : ∀ e ∈ escapes, unescape? e.1 = some e.2 := by decide
    exact hall (c, d) h

theorem ne_u_of_mem_escapes {c d : Char} (hc : (c, d) ∈ escapes) : c ≠ 'u' := by
  rintro rfl
  cases unescape?_eq_some.2 hc

/-! ## Four hexadecimal digits -/

/-- What follows the digits of an escape, given the surrogate before it. -/
def afterCode (n : Nat) (high : Option Nat) (t : Text) : Except JsonFault (Text × Text) :=
  match codeUnit n high with
  | .character c => prepend c (readString t)
  | .leading high => readStringFrom (.paired high) t
  | .unpaired => .error .malformed

theorem readStringFrom_code {u : Text} {n : Nat} (hu : IsCode u n) (high : Option Nat) (t : Text) :
    readStringFrom (.hex 3 0 high) (u ++ t) = afterCode n high t := by
  cases hu with
  | digits ha hb hc hd =>
    rw [← hexValue?_eq_some] at ha hb hc hd
    simp only [List.cons_append, List.nil_append, readStringFrom, ha, hb, hc, hd, Nat.zero_mul,
      Nat.zero_add]
    rfl

theorem exists_hexDigit {more value : Nat} {high : Option Nat} {t : Text} {r : Text × Text}
    (h : readStringFrom (.hex more value high) t = .ok r) :
    ∃ c d u, t = c :: u ∧ IsHexDigit c d := by
  cases t with
  | nil => simp [readStringFrom] at h
  | cons c u =>
    cases hd : hexValue? c with
    | none => simp [readStringFrom, hd] at h
    | some d => exact ⟨c, d, u, rfl, hexValue?_eq_some.1 hd⟩

/-- Digits that are read are a code, and reading goes on after them. -/
theorem exists_code {high : Option Nat} {t : Text} {r : Text × Text}
    (h : readStringFrom (.hex 3 0 high) t = .ok r) :
    ∃ u n t', IsCode u n ∧ t = u ++ t' ∧ afterCode n high t' = .ok r := by
  have step {more value : Nat} {c : Char} {d : Nat} {u : Text} (hc : IsHexDigit c d) :
      readStringFrom (.hex (more + 1) value high) (c :: u) =
        readStringFrom (.hex more (value * 16 + d) high) u := by
    simp [readStringFrom, hexValue?_eq_some.2 hc]
  obtain ⟨c₁, d₁, u, rfl, h₁⟩ := exists_hexDigit h
  rw [step h₁] at h
  obtain ⟨c₂, d₂, u, rfl, h₂⟩ := exists_hexDigit h
  rw [step h₂] at h
  obtain ⟨c₃, d₃, u, rfl, h₃⟩ := exists_hexDigit h
  rw [step h₃] at h
  obtain ⟨c₄, d₄, u, rfl, h₄⟩ := exists_hexDigit h
  have hcode := IsCode.digits h₁ h₂ h₃ h₄
  refine ⟨_, _, u, hcode, rfl, ?_⟩
  rw [← readStringFrom_code hcode high u, ← h]
  simp only [List.cons_append, List.nil_append, step h₁, step h₂, step h₃]

/-! ## Strings -/

theorem readString_plain {c : Char} (hc : IsPlain c) (t : Text) :
    readString (c :: t) = prepend c (readString t) := by
  have hcontrol : ¬ c.toNat < 0x20 := Nat.not_lt.2 hc.not_control
  simp [readString, readStringFrom, hc.ne_quote, hc.ne_backslash, hcontrol]

theorem readString_escape {c d : Char} (hc : (c, d) ∈ escapes) (t : Text) :
    readString ('\\' :: c :: t) = prepend d (readString t) := by
  simp [readString, readStringFrom, ne_u_of_mem_escapes hc, unescape?_eq_some.2 hc]

theorem readString_code (t : Text) :
    readString ('\\' :: 'u' :: t) = readStringFrom (.hex 3 0 none) t := rfl

/-- **What spells a text is read as that text.** -/
theorem SpellsText.readString {t s : Text} (h : SpellsText t s) (rest : Text) :
    readString (t ++ '"' :: rest) = .ok (s, rest) := by
  induction h with
  | nil => rfl
  | plain hc _ ih => rw [List.cons_append, readString_plain hc, ih, prepend]
  | escape hc _ ih => rw [List.cons_append, List.cons_append, readString_escape hc, ih, prepend]
  | @code u t s n hu hn _ ih =>
    have hunit : codeUnit n none = .character (Char.ofNat n) := by
      have h1 : ¬ (0xD800 ≤ n ∧ n ≤ 0xDBFF) := by omega
      have h2 : ¬ (0xDC00 ≤ n ∧ n ≤ 0xDFFF) := by omega
      simp only [codeUnit, h1, h2, if_false]
    simp only [List.cons_append, List.append_assoc]
    rw [readString_code, readStringFrom_code hu]
    simp only [afterCode, hunit, ih, prepend]
  | @pair u v t s high low hu hv hhigh hlow _ ih =>
    have hunit : codeUnit high none = .leading high := by
      simp only [codeUnit, hhigh, and_self, if_true]
    simp only [List.cons_append, List.append_assoc]
    rw [readString_code, readStringFrom_code hu, afterCode, hunit]
    change readStringFrom (.hex 3 0 (some high)) _ = _
    rw [readStringFrom_code hv]
    simp only [afterCode, codeUnit, if_pos hlow, ih, prepend]

theorem exists_of_prepend {c : Char} {r : Except JsonFault (Text × Text)} {s t : Text}
    (h : prepend c r = .ok (s, t)) : ∃ s', s = c :: s' ∧ r = .ok (s', t) := by
  match r, h with
  | .ok (s', _), h =>
    cases h
    exact ⟨s', rfl, rfl⟩

theorem exists_of_paired {high : Nat} {t : Text} {r : Text × Text}
    (h : readStringFrom (.paired high) t = .ok r) :
    ∃ u, t = '\\' :: 'u' :: u ∧ readStringFrom (.hex 3 0 (some high)) u = .ok r := by
  match t with
  | [] => cases h
  | [c] =>
    unfold readStringFrom at h
    split at h <;> cases h
  | c :: d :: u =>
    unfold readStringFrom at h
    split at h
    · subst_vars
      unfold readStringFrom at h
      split at h
      · subst_vars
        exact ⟨u, rfl, h⟩
      · cases h
    · cases h

/-- The characters that the digits of an escape spell, with those of a second escape if they are the
first half of a pair, and what is read after them. -/
theorem exists_of_afterCode {n : Nat} {t rest s : Text} (h : afterCode n none t = .ok (s, rest)) :
    (∃ s', s = Char.ofNat n :: s' ∧ (n < 0xD800 ∨ 0xDFFF < n) ∧ readString t = .ok (s', rest)) ∨
    ∃ v low t' s', t = '\\' :: 'u' :: (v ++ t') ∧ IsCode v low ∧ (0xD800 ≤ n ∧ n ≤ 0xDBFF) ∧
      (0xDC00 ≤ low ∧ low ≤ 0xDFFF) ∧
      s = Char.ofNat (0x10000 + (n - 0xD800) * 0x400 + (low - 0xDC00)) :: s' ∧
        readString t' = .ok (s', rest) := by
  simp only [afterCode, codeUnit] at h
  by_cases hhigh : 0xD800 ≤ n ∧ n ≤ 0xDBFF
  · rw [if_pos hhigh] at h
    obtain ⟨u, rfl, hpair⟩ := exists_of_paired h
    obtain ⟨v, low, t', hv, rfl, hread⟩ := exists_code hpair
    simp only [afterCode, codeUnit] at hread
    by_cases hlow : 0xDC00 ≤ low ∧ low ≤ 0xDFFF
    · rw [if_pos hlow] at hread
      obtain ⟨s', rfl, hrest⟩ := exists_of_prepend hread
      exact .inr ⟨v, low, t', s', rfl, hv, hhigh, hlow, rfl, hrest⟩
    · rw [if_neg hlow] at hread
      cases hread
  · rw [if_neg hhigh] at h
    by_cases hlow : 0xDC00 ≤ n ∧ n ≤ 0xDFFF
    · rw [if_pos hlow] at h
      cases h
    · rw [if_neg hlow] at h
      obtain ⟨s', rfl, hrest⟩ := exists_of_prepend h
      exact .inl ⟨s', rfl, by omega, hrest⟩

/-- What is read as a text spells it. -/
theorem exists_of_readString {t s rest : Text} (h : readString t = .ok (s, rest)) :
    ∃ body, SpellsText body s ∧ t = body ++ '"' :: rest := by
  induction hlen : t.length using Nat.strong_induction_on generalizing t s with
  | _ k ih =>
    subst hlen
    match t with
    | [] => cases h
    | c :: t =>
      by_cases hquote : c = '"'
      · subst hquote
        cases h
        exact ⟨[], .nil, rfl⟩
      by_cases hbackslash : c = '\\'
      · subst hbackslash
        match t with
        | [] => cases h
        | e :: t =>
          by_cases hu : e = 'u'
          · subst hu
            rw [readString_code] at h
            obtain ⟨u, n, t', hcode, rfl, hread⟩ := exists_code h
            rcases exists_of_afterCode hread with
              ⟨s', rfl, hn, hrest⟩ | ⟨v, low, t', s', rfl, hv, hhigh, hlow, rfl, hrest⟩
            · obtain ⟨body, hbody, rfl⟩ := ih _ (by simp; omega) hrest rfl
              exact ⟨_, .code hcode hn hbody, by simp⟩
            · obtain ⟨body, hbody, rfl⟩ := ih _ (by simp; omega) hrest rfl
              exact ⟨_, .pair hcode hv hhigh hlow hbody, by simp⟩
          · cases hd : unescape? e with
            | none => simp [readString, readStringFrom, hu, hd] at h
            | some d =>
              have hescape := unescape?_eq_some.1 hd
              rw [readString_escape hescape] at h
              obtain ⟨s', rfl, hrest⟩ := exists_of_prepend h
              obtain ⟨body, hbody, rfl⟩ := ih _ (by simp) hrest rfl
              exact ⟨_, .escape hescape hbody, rfl⟩
      by_cases hcontrol : c.toNat < 0x20
      · simp [readString, readStringFrom, hquote, hbackslash, hcontrol] at h
      · have hplain : IsPlain c := ⟨hquote, hbackslash, Nat.not_lt.1 hcontrol⟩
        rw [readString_plain hplain] at h
        obtain ⟨s', rfl, hrest⟩ := exists_of_prepend h
        obtain ⟨body, hbody, rfl⟩ := ih _ (by simp) hrest rfl
        exact ⟨_, .plain hplain hbody, rfl⟩

/-- **A string is read exactly if what stands before its closing quote spells a text**, and as that
text. -/
theorem readString_eq_ok {t s rest : Text} :
    readString t = .ok (s, rest) ↔ ∃ body, SpellsText body s ∧ t = body ++ '"' :: rest :=
  ⟨exists_of_readString, fun ⟨_, h, heq⟩ => heq ▸ h.readString rest⟩

/-- What may stand between quotes spells at most one text. -/
theorem SpellsText.unique {t s s' : Text} (h : SpellsText t s) (h' : SpellsText t s') : s = s' := by
  have heq := (h.readString []).symm.trans (h'.readString [])
  cases heq
  rfl

/-- **A string that spells no text is refused**, though it may stand between quotes: somewhere in it
is half of a surrogate pair without the other half. -/
theorem readString_of_not_spellsText {t : Text} (h : IsStringBody t) (hno : ∀ s, ¬ SpellsText t s)
    (rest : Text) : readString (t ++ '"' :: rest) = .error .malformed := by
  induction hlen : t.length using Nat.strong_induction_on generalizing t with
  | _ k ih =>
    subst hlen
    cases h with
    | nil => exact absurd .nil (hno [])
    | plain hc h =>
      rw [List.cons_append, readString_plain hc,
        ih _ (by simp) h (fun s hs => hno _ (.plain hc hs)) rfl, prepend]
    | escape hc h =>
      rw [List.cons_append, List.cons_append, readString_escape hc,
        ih _ (by simp) h (fun s hs => hno _ (.escape hc hs)) rfl, prepend]
    | @code u t n hu h =>
      simp only [List.cons_append, List.append_assoc]
      rw [readString_code, readStringFrom_code hu]
      simp only [afterCode, codeUnit]
      by_cases hhigh : 0xD800 ≤ n ∧ n ≤ 0xDBFF
      · rw [if_pos hhigh]
        -- The other half has to be the next escape.
        cases h with
        | nil => rfl
        | plain hc _ => simp [readStringFrom, hc.ne_backslash]
        | escape hc _ =>
          have hu : _ ≠ 'u' := ne_u_of_mem_escapes hc
          simp [readStringFrom, hu]
        | @code v t low hv h =>
          simp only [List.cons_append, List.append_assoc]
          change readStringFrom (.hex 3 0 (some n)) _ = _
          rw [readStringFrom_code hv]
          simp only [afterCode, codeUnit]
          by_cases hlow : 0xDC00 ≤ low ∧ low ≤ 0xDFFF
          · rw [if_pos hlow]
            simp only
            rw [ih _ (by simp; omega) h (fun s hs => hno _ (.pair hu hv hhigh hlow hs)) rfl,
              prepend]
          · rw [if_neg hlow]
      · rw [if_neg hhigh]
        by_cases hlow : 0xDC00 ≤ n ∧ n ≤ 0xDFFF
        · rw [if_pos hlow]
        · rw [if_neg hlow]
          simp only
          rw [ih _ (by simp; omega) h (fun s hs => hno _ (.code hu (by omega) hs)) rfl, prepend]

end Chomsky.Json
