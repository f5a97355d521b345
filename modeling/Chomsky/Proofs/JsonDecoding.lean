import Chomsky.Json.Number
import Chomsky.Proofs.JsonScanning
import Chomsky.Proofs.LineGrammar
import Mathlib

/-!
# Decoding JSON

A decoder for all JSON texts, and the proof that it is one: it accepts exactly the texts of the
format, and gives back the value that a text spells.

* `isNumber`, `isNumber_iff` — which texts are numbers.
* `decodeValue`, `decodeItems`, `decodeMember`, `decodeMembers` — decode what stands at the
  beginning of a text. Their limit counts down; that of a text is its length, since every value
  takes a character.
* `decode` — the value that a text spells.

Principal results: `decode_eq_some` — a text decodes to a value exactly if it spells that value;
`isText_unique` — a text spells at most one value.
-/

namespace Chomsky.Json

/-! ## Numbers -/

instance (t : Text) : Decidable (IsDigits t) := inferInstanceAs (Decidable (_ ∧ ∀ c ∈ t, _))

def isWhole : Text → Bool
  | [] => false
  | d :: ds => if d = '0' then ds.isEmpty else d.isDigit && ds.all Char.isDigit

def isExponent : Text → Bool
  | [] => true
  | e :: t => (e = 'e' ∨ e = 'E') && IsDigits (splitSign t).2

/-- A fraction and an exponent, either of which may be missing. -/
def isFractional : Text → Bool
  | '.' :: t => IsDigits (t.takeWhile Char.isDigit) && isExponent (t.dropWhile Char.isDigit)
  | t => isExponent t

def dropMinus : Text → Text
  | '-' :: t => t
  | t => t

def isNumber (t : Text) : Bool :=
  isWhole ((dropMinus t).takeWhile Char.isDigit) &&
    isFractional ((dropMinus t).dropWhile Char.isDigit)

theorem isWhole_iff {t : Text} : isWhole t = true ↔ IsWhole t := by
  constructor
  · intro h
    match t with
    | [] => cases h
    | d :: ds =>
      by_cases hd : d = '0'
      · simp only [isWhole, hd, if_true, List.isEmpty_iff] at h
        rw [hd, h]
        exact .zero
      · simp only [isWhole, hd, if_false, Bool.and_eq_true, List.all_eq_true] at h
        exact .digits h.1 hd h.2
  · intro h
    cases h with
    | zero => rfl
    | digits hd hne hds => simpa [isWhole, hne, hd] using hds

theorem exists_splitSign (t : Text) :
    ∃ sign, (sign = [] ∨ sign = ['+'] ∨ sign = ['-']) ∧ t = sign ++ (splitSign t).2 := by
  unfold splitSign
  split
  · exact ⟨['+'], .inr (.inl rfl), rfl⟩
  · exact ⟨['-'], .inr (.inr rfl), rfl⟩
  · exact ⟨[], .inl rfl, rfl⟩

theorem splitSign_append {sign ds : Text} (hsign : sign = [] ∨ sign = ['+'] ∨ sign = ['-'])
    (h : IsDigits ds) : (splitSign (sign ++ ds)).2 = ds := by
  rcases hsign with rfl | rfl | rfl
  · match ds, h with
    | d :: ds, h =>
      have hd : d.isDigit = true := h.2 d (by simp)
      have hplus : d ≠ '+' := by rintro rfl; cases hd
      have hminus : d ≠ '-' := by rintro rfl; cases hd
      simp [splitSign, hplus, hminus]
  · rfl
  · rfl

theorem isExponent_iff {t : Text} : isExponent t = true ↔ IsExponent t := by
  constructor
  · intro h
    match t with
    | [] => exact .none
    | e :: t =>
      simp only [isExponent, Bool.and_eq_true, decide_eq_true_eq] at h
      obtain ⟨sign, hsign, heq⟩ := exists_splitSign t
      rw [heq]
      exact .digits h.1 hsign h.2
  · intro h
    cases h with
    | none => rfl
    | digits he hsign hds => simp [isExponent, he, splitSign_append hsign hds, hds]

theorem IsExponent.head {t : Text} (h : IsExponent t) : ∀ c ∈ t.head?, c.isDigit = false := by
  cases h with
  | none => simp
  | digits he _ _ => rcases he with rfl | rfl <;> simp

theorem isFractional_iff {t : Text} :
    isFractional t = true ↔ ∃ fraction exponent, IsFraction fraction ∧ IsExponent exponent ∧
      t = fraction ++ exponent := by
  constructor
  · intro h
    unfold isFractional at h
    split at h
    · rename_i t
      simp only [Bool.and_eq_true, decide_eq_true_eq, isExponent_iff] at h
      exact ⟨_, _, .digits h.1, h.2, by simp⟩
    · exact ⟨[], t, .none, isExponent_iff.1 h, rfl⟩
  · rintro ⟨fraction, exponent, hfraction, hexponent, rfl⟩
    cases hfraction with
    | none =>
      have hpoint : ∀ u, exponent ≠ '.' :: u := by
        rintro u rfl
        cases hexponent with
        | digits he _ _ => simp at he
      rw [List.nil_append, isFractional]
      · exact isExponent_iff.2 hexponent
      · exact hpoint
    | digits hds =>
      obtain ⟨htake, hdrop⟩ := takeWhile_append_boundary hds.2 hexponent.head
      simp [isFractional, htake, hdrop, hds, isExponent_iff.2 hexponent]

theorem IsFraction.head {t u : Text} (h : IsFraction t) (hu : IsExponent u) :
    ∀ c ∈ (t ++ u).head?, c.isDigit = false := by
  cases h with
  | none => exact hu.head
  | digits _ => simp

theorem exists_dropMinus (t : Text) :
    ∃ sign, (sign = [] ∨ sign = ['-']) ∧ t = sign ++ dropMinus t := by
  unfold dropMinus
  split
  · exact ⟨['-'], .inr rfl, rfl⟩
  · exact ⟨[], .inl rfl, rfl⟩

/-- **Which texts are numbers.** -/
theorem isNumber_iff {t : Text} : isNumber t = true ↔ IsNumber t := by
  constructor
  · intro h
    simp only [isNumber, Bool.and_eq_true, isWhole_iff, isFractional_iff] at h
    obtain ⟨hwhole, fraction, exponent, hfraction, hexponent, hrest⟩ := h
    obtain ⟨sign, hsign, heq⟩ := exists_dropMinus t
    rw [heq, ← List.takeWhile_append_dropWhile (p := Char.isDigit) (l := dropMinus t), hrest]
    exact .parts hsign hwhole hfraction hexponent
  · intro h
    cases h with
    | @parts sign whole fraction exponent hsign hwhole hfraction hexponent =>
      have hminus : dropMinus (sign ++ (whole ++ (fraction ++ exponent))) =
          whole ++ (fraction ++ exponent) := by
        rcases hsign with rfl | rfl
        · cases hwhole with
          | zero => rfl
          | @digits d ds hd _ _ =>
            have hd : d ≠ '-' := by rintro rfl; cases hd
            simp [dropMinus, hd]
        · rfl
      obtain ⟨htake, hdrop⟩ := takeWhile_append_boundary hwhole.all_isDigit
        (hfraction.head hexponent)
      rw [isNumber, hminus, htake, hdrop, isWhole_iff.2 hwhole,
        isFractional_iff.2 ⟨_, _, hfraction, hexponent, rfl⟩]
      rfl

instance (t : Text) : Decidable (IsNumber t) := decidable_of_iff _ isNumber_iff

/-! ## Values -/

/-- Decodes a number: all characters that could belong to one. -/
def decodeNumber (t : Text) : Option (Json × Text) :=
  if IsNumber (t.takeWhile inNumber)
    then some (.number (t.takeWhile inNumber), t.dropWhile inNumber)
  else none

/-- Decodes a word, for the value that it stands for. -/
def decodeWord (word : Text) (v : Json) (t : Text) : Option (Json × Text) :=
  match expectWord word t with
  | .ok t => some (v, t)
  | .error _ => none

/-- Decodes a string whose opening quote has been read. -/
def decodeString (t : Text) : Option (Text × Text) :=
  match readString t with
  | .ok r => some r
  | .error _ => none

mutual

/-- Decodes a value, with the white space before it. -/
def decodeValue (t : Text) : (limit : Nat) → Option (Json × Text)
  | 0 => none
  | limit + 1 =>
    match skipSpace t with
    | 'n' :: t => decodeWord ['u', 'l', 'l'] .null t
    | 't' :: t => decodeWord ['r', 'u', 'e'] (.bool true) t
    | 'f' :: t => decodeWord ['a', 'l', 's', 'e'] (.bool false) t
    | '"' :: t => do
      let (s, t) ← decodeString t
      return (.string s, t)
    | '[' :: t =>
      match skipSpace t with
      | ']' :: t => return (.array [], t)
      | _ => do
        let (x, t) ← decodeValue t limit
        let (xs, t) ← decodeItems t limit
        return (.array (x :: xs), t)
    | '{' :: t =>
      match skipSpace t with
      | '}' :: t => return (.object [], t)
      | _ => do
        let (m, t) ← decodeMember t limit
        let (ms, t) ← decodeMembers t limit
        return (.object (m :: ms), t)
    | t => decodeNumber t

/-- Decodes the items that follow the first one, up to the closing bracket. -/
def decodeItems (t : Text) : (limit : Nat) → Option (List Json × Text)
  | 0 => none
  | limit + 1 =>
    match skipSpace t with
    | ']' :: t => return ([], t)
    | ',' :: t => do
      let (x, t) ← decodeValue t limit
      let (xs, t) ← decodeItems t limit
      return (x :: xs, t)
    | _ => none

/-- Decodes a key and its value. -/
def decodeMember (t : Text) : (limit : Nat) → Option ((Text × Json) × Text)
  | 0 => none
  | limit + 1 =>
    match skipSpace t with
    | '"' :: t => do
      let (key, t) ← decodeString t
      match skipSpace t with
      | ':' :: t =>
        let (v, t) ← decodeValue t limit
        return ((key, v), t)
      | _ => none
    | _ => none

/-- Decodes the members that follow the first one, up to the closing brace. -/
def decodeMembers (t : Text) : (limit : Nat) → Option (List (Text × Json) × Text)
  | 0 => none
  | limit + 1 =>
    match skipSpace t with
    | '}' :: t => return ([], t)
    | ',' :: t => do
      let (m, t) ← decodeMember t limit
      let (ms, t) ← decodeMembers t limit
      return (m :: ms, t)
    | _ => none

end

/-- The value that a text spells. -/
def decode (t : Text) : Option Json := do
  let (v, rest) ← decodeValue t (t.length + 1)
  if (skipSpace rest).isEmpty then return v else none

theorem decodeString_eq_some {t s rest : Text} :
    decodeString t = some (s, rest) ↔ ∃ body, SpellsText body s ∧ t = body ++ '"' :: rest := by
  rw [← readString_eq_ok, decodeString]
  cases readString t <;> simp

theorem decodeWord_eq_some {word t rest : Text} {v w : Json} :
    decodeWord word v t = some (w, rest) ↔ w = v ∧ t = word ++ rest := by
  rw [← expectWord_eq_ok, decodeWord]
  cases expectWord word t <;> simp [eq_comm]

/-! ## What decodes spells the value -/

/-- What is decoded with a limit spells what it decodes to. -/
structure SoundAt (limit : Nat) : Prop where
  value {t rest : Text} {v : Json} : decodeValue t limit = some (v, rest) →
    ∃ inner, Led (Spells SpellsText v) inner ∧ t = inner ++ rest
  items {t rest : Text} {xs : List Json} : decodeItems t limit = some (xs, rest) →
    ∃ more space, SpellsItems SpellsText xs more ∧ IsSpaces space ∧
      t = more ++ (space ++ ']' :: rest)
  member {t rest : Text} {m : Text × Json} : decodeMember t limit = some (m, rest) →
    ∃ member, SpellsMember SpellsText m member ∧ t = member ++ rest
  members {t rest : Text} {ms : List (Text × Json)} : decodeMembers t limit = some (ms, rest) →
    ∃ more space, SpellsMembers SpellsText ms more ∧ IsSpaces space ∧
      t = more ++ (space ++ '}' :: rest)

theorem SoundAt.zero : SoundAt 0 where
  value h := by cases h
  items h := by cases h
  member h := by cases h
  members h := by cases h

theorem SoundAt.items_succ {limit : Nat} (hs : SoundAt limit) {t rest : Text} {xs : List Json}
    (h : decodeItems t (limit + 1) = some (xs, rest)) :
    ∃ more space, SpellsItems SpellsText xs more ∧ IsSpaces space ∧
      t = more ++ (space ++ ']' :: rest) := by
  rw [decodeItems] at h
  split at h
  · rename_i u hskip
    obtain ⟨space, hspace, -, rfl⟩ := skipSpace_eq_cons.1 hskip
    cases h
    exact ⟨[], space, rfl, hspace, rfl⟩
  · rename_i u hskip
    obtain ⟨space, hspace, -, rfl⟩ := skipSpace_eq_cons.1 hskip
    simp only [Option.bind_eq_bind, Option.bind_eq_some_iff, Prod.exists] at h
    obtain ⟨x, t₁, hx, xs, t₂, hxs, h⟩ := h
    cases h
    obtain ⟨item, hitem, rfl⟩ := hs.value hx
    obtain ⟨more, space', hmore, hspace', rfl⟩ := hs.items hxs
    exact ⟨_, space', ⟨space, item, more, hspace, hitem, hmore, rfl⟩, hspace', by simp⟩
  · cases h

theorem SoundAt.members_succ {limit : Nat} (hs : SoundAt limit) {t rest : Text}
    {ms : List (Text × Json)} (h : decodeMembers t (limit + 1) = some (ms, rest)) :
    ∃ more space, SpellsMembers SpellsText ms more ∧ IsSpaces space ∧
      t = more ++ (space ++ '}' :: rest) := by
  rw [decodeMembers] at h
  split at h
  · rename_i u hskip
    obtain ⟨space, hspace, -, rfl⟩ := skipSpace_eq_cons.1 hskip
    cases h
    exact ⟨[], space, rfl, hspace, rfl⟩
  · rename_i u hskip
    obtain ⟨space, hspace, -, rfl⟩ := skipSpace_eq_cons.1 hskip
    simp only [Option.bind_eq_bind, Option.bind_eq_some_iff, Prod.exists] at h
    obtain ⟨k, v, t₁, hm, ms, t₂, hms, h⟩ := h
    cases h
    obtain ⟨member, hmember, rfl⟩ := hs.member hm
    obtain ⟨more, space', hmore, hspace', rfl⟩ := hs.members hms
    exact ⟨_, space', ⟨space, member, more, hspace, hmember, hmore, rfl⟩, hspace', by simp⟩
  · cases h

theorem SoundAt.member_succ {limit : Nat} (hs : SoundAt limit) {t rest : Text} {m : Text × Json}
    (h : decodeMember t (limit + 1) = some (m, rest)) :
    ∃ member, SpellsMember SpellsText m member ∧ t = member ++ rest := by
  rw [decodeMember] at h
  split at h
  · rename_i u hskip
    obtain ⟨space, hspace, -, rfl⟩ := skipSpace_eq_cons.1 hskip
    simp only [Option.bind_eq_bind, Option.bind_eq_some_iff, Prod.exists] at h
    obtain ⟨key, u₁, hkey, h⟩ := h
    obtain ⟨body, hbody, rfl⟩ := decodeString_eq_some.1 hkey
    split at h
    · rename_i u₂ hcolon
      obtain ⟨space', hspace', -, rfl⟩ := skipSpace_eq_cons.1 hcolon
      simp only [Option.bind_eq_some_iff, Prod.exists] at h
      obtain ⟨v, u₃, hv, h⟩ := h
      cases h
      obtain ⟨value, hvalue, rfl⟩ := hs.value hv
      exact ⟨_, ⟨_, space', value, ⟨space, _, hspace, ⟨body, hbody, rfl⟩, rfl⟩, hspace', hvalue,
        rfl⟩, by simp⟩
    · cases h
  · cases h

theorem exists_of_decodeNumber {t rest : Text} {v : Json} (h : decodeNumber t = some (v, rest)) :
    ∃ inner, Spells SpellsText v inner ∧ t = inner ++ rest := by
  unfold decodeNumber at h
  split at h
  · cases h
    exact ⟨_, ⟨rfl, ‹_›⟩, List.takeWhile_append_dropWhile.symm⟩
  · cases h

theorem SoundAt.value_succ {limit : Nat} (hs : SoundAt limit) {t rest : Text} {v : Json}
    (h : decodeValue t (limit + 1) = some (v, rest)) :
    ∃ inner, Led (Spells SpellsText v) inner ∧ t = inner ++ rest := by
  rw [decodeValue] at h
  obtain ⟨space, hspace, heq⟩ := exists_skipSpace t
  -- The white space in front is set aside once for all cases.
  suffices ∃ inner, Spells SpellsText v inner ∧ skipSpace t = inner ++ rest by
    obtain ⟨inner, hinner, hskip⟩ := this
    exact ⟨_, ⟨space, inner, hspace, hinner, rfl⟩, by rw [heq, hskip, List.append_assoc]⟩
  split at h
  · obtain ⟨rfl, rfl⟩ := decodeWord_eq_some.1 h
    exact ⟨_, rfl, ‹_›⟩
  · obtain ⟨rfl, rfl⟩ := decodeWord_eq_some.1 h
    exact ⟨_, rfl, ‹_›⟩
  · obtain ⟨rfl, rfl⟩ := decodeWord_eq_some.1 h
    exact ⟨_, rfl, ‹_›⟩
  · rename_i u hskip
    simp only [Option.bind_eq_bind, Option.bind_eq_some_iff, Prod.exists] at h
    obtain ⟨s, u₁, hstring, h⟩ := h
    cases h
    obtain ⟨body, hbody, rfl⟩ := decodeString_eq_some.1 hstring
    exact ⟨_, ⟨body, hbody, rfl⟩, by simp [hskip]⟩
  · rename_i u hskip
    rw [hskip]
    split at h
    · rename_i u₁ hclose
      obtain ⟨space', hspace', -, rfl⟩ := skipSpace_eq_cons.1 hclose
      cases h
      exact ⟨_, ⟨space', hspace', rfl⟩, by simp⟩
    · simp only [Option.bind_eq_bind, Option.bind_eq_some_iff, Prod.exists] at h
      obtain ⟨x, u₁, hx, xs, u₂, hxs, h⟩ := h
      cases h
      obtain ⟨first, hfirst, rfl⟩ := hs.value hx
      obtain ⟨more, space', hmore, hspace', rfl⟩ := hs.items hxs
      exact ⟨_, ⟨first, more, space', hfirst, hmore, hspace', rfl⟩, by simp⟩
  · rename_i u hskip
    rw [hskip]
    split at h
    · rename_i u₁ hclose
      obtain ⟨space', hspace', -, rfl⟩ := skipSpace_eq_cons.1 hclose
      cases h
      exact ⟨_, ⟨space', hspace', rfl⟩, by simp⟩
    · simp only [Option.bind_eq_bind, Option.bind_eq_some_iff, Prod.exists] at h
      obtain ⟨k, v, u₁, hm, ms, u₂, hms, h⟩ := h
      cases h
      obtain ⟨first, hfirst, rfl⟩ := hs.member hm
      obtain ⟨more, space', hmore, hspace', rfl⟩ := hs.members hms
      exact ⟨_, ⟨first, more, space', hfirst, hmore, hspace', rfl⟩, by simp⟩
  · exact exists_of_decodeNumber h

theorem soundAt : ∀ limit : Nat, SoundAt limit
  | 0 => .zero
  | limit + 1 =>
    have hs := soundAt limit
    { value := hs.value_succ
      items := hs.items_succ
      member := hs.member_succ
      members := hs.members_succ }

/-! ## What spells a value decodes to it -/

theorem Led.exists_skipSpace {str : Text → Text → Prop} {v : Json} {t : Text}
    (h : Led (Spells str v) t)
    (rest : Text) : ∃ c u, skipSpace (t ++ rest) = c :: u ∧ opens c = true := by
  obtain ⟨space, inner, hspace, hinner, rfl⟩ := h
  obtain ⟨c, u, rfl, hc⟩ := hinner.exists_cons
  exact ⟨c, u ++ rest, skipSpace_eq_cons.2 ⟨space, hspace, isSpace_of_opens hc, by simp⟩, hc⟩

theorem decodeNumber_append {t rest : Text} (h : IsNumber t) (hrest : Stops rest) :
    decodeNumber (t ++ rest) = some (.number t, rest) := by
  obtain ⟨htake, hdrop⟩ := takeWhile_append_boundary h.all_inNumber hrest
  rw [decodeNumber, htake, hdrop, if_pos h]

theorem decodeValue_number {t u : Text} {c : Char} {limit : Nat} (hskip : skipSpace t = c :: u)
    (hc : c = '-' ∨ c.isDigit = true) : decodeValue t (limit + 1) = decodeNumber (c :: u) := by
  have hne : c ≠ 'n' ∧ c ≠ 't' ∧ c ≠ 'f' ∧ c ≠ '"' ∧ c ≠ '[' ∧ c ≠ '{' := by
    refine ⟨?_, ?_, ?_, ?_, ?_, ?_⟩ <;> (rintro rfl; revert hc; decide)
  simp [decodeValue, hskip, hne]

mutual

/-- **What spells a value decodes to it**, if nothing that could belong to a number follows. -/
theorem decodeValue_append : ∀ (v : Json) {t rest : Text} {limit : Nat},
    Led (Spells SpellsText v) t →
    Stops rest → t.length < limit → decodeValue (t ++ rest) limit = some (v, rest)
  | v, _, rest, limit + 1, ⟨space, inner, hspace, hinner, rfl⟩, hrest, hlimit => by
    have hskip : skipSpace (space ++ inner ++ rest) = inner ++ rest := by
      obtain ⟨c, u, rfl, hc⟩ := hinner.exists_cons
      exact skipSpace_eq_cons.2 ⟨space, hspace, isSpace_of_opens hc, by simp⟩
    simp only [List.length_append] at hlimit
    match v, hinner with
    | .null, h =>
      subst h
      rw [decodeValue, hskip]
      exact decodeWord_eq_some.2 ⟨rfl, rfl⟩
    | .bool true, h =>
      subst h
      rw [decodeValue, hskip]
      exact decodeWord_eq_some.2 ⟨rfl, rfl⟩
    | .bool false, h =>
      subst h
      rw [decodeValue, hskip]
      exact decodeWord_eq_some.2 ⟨rfl, rfl⟩
    | .number spelling, ⟨heq, h⟩ =>
      subst heq
      obtain ⟨c, u, rfl, hc⟩ := h.exists_cons
      rw [decodeValue_number hskip hc]
      exact decodeNumber_append h hrest
    | .string s, ⟨body, h, heq⟩ =>
      subst heq
      have hstring : decodeString (body ++ '"' :: rest) = some (s, rest) :=
        decodeString_eq_some.2 ⟨body, h, rfl⟩
      rw [decodeValue, hskip]
      simp [hstring]
    | .array [], ⟨space', h, heq⟩ =>
      subst heq
      have hclose := h.skipSpace_append_cons (c := ']') rfl rest
      rw [decodeValue, hskip]
      simp [hclose]
    | .array (x :: xs), ⟨first, more, space', hfirst, hmore, hspace', heq⟩ =>
      subst heq
      simp only [List.length_cons, List.length_append] at hlimit
      have hstops := hmore.stops hspace' rest
      have hx := decodeValue_append x hfirst hstops (show first.length < limit by omega)
      have hxs := decodeItems_append xs hmore hspace' rest (show more.length < limit by omega)
      obtain ⟨c, u, hopen, hc⟩ := hfirst.exists_skipSpace (more ++ (space' ++ ']' :: rest))
      have hne : c ≠ ']' := by rintro rfl; cases hc
      rw [decodeValue, hskip]
      simp [hopen, hne, hx, hxs]
    | .object [], ⟨space', h, heq⟩ =>
      subst heq
      have hclose := h.skipSpace_append_cons (c := '}') rfl rest
      rw [decodeValue, hskip]
      simp [hclose]
    | .object (m :: ms), ⟨first, more, space', hfirst, hmore, hspace', heq⟩ =>
      subst heq
      simp only [List.length_cons, List.length_append] at hlimit
      have hstops := hmore.stops hspace' rest
      have hm := decodeMember_append m hfirst hstops (show first.length < limit by omega)
      have hms := decodeMembers_append ms hmore hspace' rest (show more.length < limit by omega)
      obtain ⟨_, _, _, -, -, -, -, hopen⟩ := hfirst.exists_skipSpace
      rw [decodeValue, hskip]
      simp [hopen, hm, hms]

theorem decodeItems_append : ∀ (xs : List Json) {more space : Text},
    SpellsItems SpellsText xs more →
    IsSpaces space → ∀ (rest : Text) {limit : Nat}, more.length < limit →
      decodeItems (more ++ (space ++ ']' :: rest)) limit = some (xs, rest)
  | [], _, space, h, hspace, rest, limit + 1, _ => by
    have hclose := hspace.skipSpace_append_cons (c := ']') rfl rest
    have h : _ = [] := h
    simp [decodeItems, h, hclose]
  | x :: xs, _, space, ⟨space', item, more, hspace', hitem, hmore, heq⟩, hspace, rest, limit + 1,
      hlimit => by
    subst heq
    simp only [List.length_cons, List.length_append] at hlimit
    have hstops := hmore.stops hspace rest
    have hx := decodeValue_append x hitem hstops (show item.length < limit by omega)
    have hxs := decodeItems_append xs hmore hspace rest (show more.length < limit by omega)
    have hcomma := hspace'.skipSpace_append_cons (c := ',') rfl
      (item ++ (more ++ (space ++ ']' :: rest)))
    simp [decodeItems, hcomma, hx, hxs]

theorem decodeMember_append : ∀ (m : Text × Json) {t rest : Text} {limit : Nat},
    SpellsMember SpellsText m t →
    Stops rest → t.length < limit → decodeMember (t ++ rest) limit = some (m, rest)
  | (k, v), _, rest, limit + 1, h, hrest, hlimit => by
    obtain ⟨body, space, value, hbody, hspace, hvalue, hlength, hquote⟩ := h.exists_skipSpace
    have hstring : decodeString (body ++ '"' :: (space ++ ':' :: (value ++ rest))) = some (k, _) :=
      decodeString_eq_some.2 ⟨body, hbody, rfl⟩
    have hcolon := hspace.skipSpace_append_cons (c := ':') rfl (value ++ rest)
    have hv := decodeValue_append v hvalue hrest (show value.length < limit by omega)
    simp [decodeMember, hquote, hstring, hcolon, hv]

theorem decodeMembers_append : ∀ (ms : List (Text × Json)) {more space : Text},
    SpellsMembers SpellsText ms more → IsSpaces space →
      ∀ (rest : Text) {limit : Nat}, more.length < limit →
      decodeMembers (more ++ (space ++ '}' :: rest)) limit = some (ms, rest)
  | [], _, space, h, hspace, rest, limit + 1, _ => by
    have hclose := hspace.skipSpace_append_cons (c := '}') rfl rest
    have h : _ = [] := h
    simp [decodeMembers, h, hclose]
  | m :: ms, _, space, ⟨space', member, more, hspace', hmember, hmore, heq⟩, hspace, rest,
      limit + 1, hlimit => by
    subst heq
    simp only [List.length_cons, List.length_append] at hlimit
    have hstops := hmore.stops hspace rest
    have hm := decodeMember_append m hmember hstops (show member.length < limit by omega)
    have hms := decodeMembers_append ms hmore hspace rest (show more.length < limit by omega)
    have hcomma := hspace'.skipSpace_append_cons (c := ',') rfl
      (member ++ (more ++ (space ++ '}' :: rest)))
    simp [decodeMembers, hcomma, hm, hms]

end

/-- **A text decodes to a value exactly if it spells that value.** -/
theorem decode_eq_some {t : Text} {v : Json} : decode t = some v ↔ IsText SpellsText v t := by
  simp only [decode, Option.bind_eq_bind, Option.bind_eq_some_iff, Prod.exists]
  constructor
  · rintro ⟨w, rest, hw, h⟩
    split at h
    · cases h
      obtain ⟨inner, hinner, rfl⟩ := (soundAt _).value hw
      exact ⟨inner, rest, hinner, skipSpace_eq_nil.1 (List.isEmpty_iff.1 ‹_›), rfl⟩
    · cases h
  · rintro ⟨inner, space, hinner, hspace, rfl⟩
    have hstops : Stops space := by simpa using hspace.stops_append (t := []) (by simp [Stops])
    exact ⟨v, space, decodeValue_append v hinner hstops (by simp),
      by simp [skipSpace_eq_nil.2 hspace]⟩

/-- **A text spells at most one value.** -/
theorem isText_unique {t : Text} {v w : Json} (hv : IsText SpellsText v t)
    (hw : IsText SpellsText w t) :
    v = w :=
  Option.some.inj ((decode_eq_some.2 hv).symm.trans (decode_eq_some.2 hw))

end Chomsky.Json
