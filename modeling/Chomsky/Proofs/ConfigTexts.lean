import Chomsky.Config.Json
import Chomsky.Proofs.Skimming
import Mathlib

/-!
# The texts of a configuration

A configuration may be spelled by any object that has some of its fields as members, in any order,
with any escapes in keys and values, with white space between all tokens, and with any members under
other keys anywhere between them.  The reader has to get through all of these, and to what was left
out it gives the usual values.

* `Config.only` — the values of a configuration for some fields, the usual ones for the others.
* `Config.Tells` — what a member says about a configuration: the value of a field, or nothing.
* `Config.fields` — the fields that have been read when members have told some of them.
* `Fields.Fresh` — no field is told twice.

Principal results: `Fields.readMember_append`, `Fields.readMember_malformed` — one member, whatever
it tells; `Fields.readMembers_append`, `Fields.readMembers_malformed` — the members up to the
closing brace; `Config.ofJson_told` — every text that tells a configuration is read as what it
tells; `Config.ofJson_unpaired` — one other key that is not passed over.
-/

namespace Chomsky

open Json

/-! ## What members tell -/

namespace Config

/-- The values of a configuration for some fields, and the usual values for the others. -/
def only (c : Config) (fields : List Field) : Config where
  start := if .start ∈ fields then c.start else ({} : Config).start
  marker := if .marker ∈ fields then c.marker else ({} : Config).marker
  sorted := if .sorted ∈ fields then c.sorted else ({} : Config).sorted

/-- What a member tells about a configuration, its key and its value as they are spelled: the value
of a field, or nothing, if its key is that of no field. -/
inductive Tells (c : Config) : Option Field → Text × Json → Prop
  | start {k v : Text} (hk : SpellsText k Field.start.key) (hv : SpellsText v [c.start]) :
      Tells c (some .start) (k, .string v)
  | marker {k v : Text} (hk : SpellsText k Field.marker.key) (hv : SpellsText v [c.marker]) :
      Tells c (some .marker) (k, .string v)
  | sorted {k : Text} (hk : SpellsText k Field.sorted.key) :
      Tells c (some .sorted) (k, .bool c.sorted)
  | other {k : Text} (v : Json) (hother : ∀ f : Field, ¬ SpellsText k f.key) : Tells c none (k, v)

/-- The fields that have been read, when members have told some of them. -/
def fields (c : Config) (told : List Field) : Fields where
  start := if .start ∈ told then some c.start else none
  marker := if .marker ∈ told then some c.marker else none
  sorted := if .sorted ∈ told then some c.sorted else none

theorem toConfig_fields (c : Config) (told : List Field) :
    (c.fields told).toConfig = c.only told := by
  unfold fields only Fields.toConfig
  split_ifs <;> rfl

theorem has_fields {c : Config} {told : List Field} {f : Field} :
    (c.fields told).has f = true ↔ f ∈ told := by
  cases f <;> simp [Fields.has, fields]

end Config

theorem Field.ofKey?_key (f : Field) : ofKey? f.key = some f := by
  cases f <;> rfl

theorem Field.ofKey?_eq_none {key : Text} (h : ∀ f : Field, key ≠ f.key) : ofKey? key = none := by
  simp [ofKey?, fun f => Ne.symm (h f)]

/-! ## Reading values -/

namespace Fields

theorem readColon_append {space : Text} (hspace : IsSpaces space) (t : Text) :
    readColon (space ++ ':' :: t) = .ok t := by
  have hskip := hspace.skipSpace_append_cons (c := ':') rfl t
  simp only [readColon, hskip]

theorem readChar_append {v t : Text} {ch : Char} (h : Led (Spells Verbatim (.string v)) t)
    (hv : SpellsText v [ch]) (rest : Text) : readChar (t ++ rest) = .ok (ch, rest) := by
  obtain ⟨space, quoted, hspace, ⟨body, ⟨rfl, -⟩, rfl⟩, rfl⟩ := h
  have hskip : skipSpace (space ++ '"' :: (v ++ ['"']) ++ rest) = '"' :: (v ++ '"' :: rest) :=
    skipSpace_eq_cons.2 ⟨space, hspace, rfl, by simp⟩
  simp only [readChar, hskip, hv.readString]

theorem readBool_append {b : Bool} {t : Text} (h : Led (Spells Verbatim (.bool b)) t)
    (rest : Text) :
    readBool (t ++ rest) = .ok (b, rest) := by
  obtain ⟨space, word, hspace, hword, rfl⟩ := h
  cases b with
  | true =>
    have hword : word = ['t', 'r', 'u', 'e'] := hword
    have hskip : skipSpace (space ++ word ++ rest) = 't' :: (['r', 'u', 'e'] ++ rest) :=
      skipSpace_eq_cons.2 ⟨space, hspace, rfl, by simp [hword]⟩
    simp only [readBool, hskip, expectWord_append]
  | false =>
    have hword : word = ['f', 'a', 'l', 's', 'e'] := hword
    have hskip : skipSpace (space ++ word ++ rest) = 'f' :: (['a', 'l', 's', 'e'] ++ rest) :=
      skipSpace_eq_cons.2 ⟨space, hspace, rfl, by simp [hword]⟩
    simp only [readBool, hskip, expectWord_append]

/-! ## Reading members -/

variable {c : Config} {told : List Field}

theorem readValue_field {f : Field} (hnew : f ∉ told) {space : Text} (hspace : IsSpaces space)
    (t : Text) :
    (c.fields told).readValue f.key (space ++ ':' :: t) = (c.fields told).readField f t := by
  have hhas : (c.fields told).has f = false := by
    rw [Bool.eq_false_iff, Ne, Config.has_fields]
    exact hnew
  simp [readValue, Field.ofKey?_key, hhas, readColon_append hspace]

theorem readValue_other {key : Text} (hother : ∀ f : Field, key ≠ f.key) {space : Text}
    (hspace : IsSpaces space) {v : Json} {t rest : Text} (ht : Led (Spells Verbatim v) t)
    (hrest : Stops rest) (fs : Fields) :
    fs.readValue key (space ++ ':' :: (t ++ rest)) = .ok (fs, rest) := by
  simp only [readValue, Field.ofKey?_eq_none hother, readColon_append hspace,
    skimValue_append ht hrest]

/-- A key is read up to the white space before its colon. -/
theorem readMember_key {m : Text × Json} {key t : Text} (hk : SpellsText m.1 key)
    (ht : SpellsMember Verbatim m t) :
    ∃ space value, IsSpaces space ∧ Led (Spells Verbatim m.2) value ∧
      ∀ (fs : Fields) (rest : Text),
        fs.readMember (t ++ rest) = fs.readValue key (space ++ ':' :: (value ++ rest)) := by
  obtain ⟨_, space, value, ⟨rfl, -⟩, hspace, hvalue, -, hquote⟩ := ht.exists_skipSpace
  exact ⟨space, value, hspace, hvalue,
    fun fs rest => by simp only [readMember, hquote, hk.readString]⟩

/-- **A member is read as what it tells**, if its key spells a text at all. -/
theorem readMember_append {o : Option Field} {m : Text × Json} {t rest : Text}
    (hmember : c.Tells o m)
    (hkey : ∃ key, SpellsText m.1 key) (hnew : ∀ f ∈ o, f ∉ told) (ht : SpellsMember Verbatim m t)
    (hrest : Stops rest) :
    (c.fields told).readMember (t ++ rest) = .ok (c.fields (told ++ o.toList), rest) := by
  cases hmember with
  | start hk hv =>
    obtain ⟨space, value, hspace, hvalue, hread⟩ := readMember_key hk ht
    rw [hread, readValue_field (hnew .start rfl) hspace]
    simp [readField, readChar_append hvalue hv, Config.fields]
  | marker hk hv =>
    obtain ⟨space, value, hspace, hvalue, hread⟩ := readMember_key hk ht
    rw [hread, readValue_field (hnew .marker rfl) hspace]
    simp [readField, readChar_append hvalue hv, Config.fields]
  | sorted hk =>
    obtain ⟨space, value, hspace, hvalue, hread⟩ := readMember_key hk ht
    rw [hread, readValue_field (hnew .sorted rfl) hspace]
    simp [readField, readBool_append hvalue, Config.fields]
  | other v hother =>
    obtain ⟨key, hk⟩ := hkey
    obtain ⟨space, value, hspace, hvalue, hread⟩ := readMember_key hk ht
    have hne : ∀ f : Field, key ≠ f.key := fun f heq => hother f (heq ▸ hk)
    rw [hread, readValue_other hne hspace hvalue hrest]
    simp

/-- **A key that spells no text is refused** where it stands. -/
theorem readMember_malformed {m : Text × Json} {t : Text} (hno : ∀ key, ¬ SpellsText m.1 key)
    (ht : SpellsMember Verbatim m t) (fs : Fields) (rest : Text) :
    fs.readMember (t ++ rest) = .error .malformed := by
  obtain ⟨_, space, value, ⟨rfl, hbody⟩, -, -, -, hquote⟩ := ht.exists_skipSpace
  simp only [readMember, hquote, readString_of_not_spellsText hbody hno]

/-- No field is told twice, and none that has been told before. -/
def Fresh (told : List Field) (os : List (Option Field)) : Prop := (told ++ os.reduceOption).Nodup

theorem Fresh.head {o : Option Field} {os : List (Option Field)} (h : Fresh told (o :: os)) :
    ∀ f ∈ o, f ∉ told := by
  rintro f rfl hf
  rw [Fresh, List.reduceOption_cons_of_some] at h
  exact (List.nodup_append.1 h).2.2 f hf f (by simp) rfl

theorem told_cons (told : List Field) (o : Option Field) (os : List (Option Field)) :
    told ++ (o :: os).reduceOption = told ++ o.toList ++ os.reduceOption := by
  cases o <;> simp [List.reduceOption_cons_of_some, List.reduceOption_cons_of_none]

theorem Fresh.tail {o : Option Field} {os : List (Option Field)} (h : Fresh told (o :: os)) :
    Fresh (told ++ o.toList) os := by
  rwa [Fresh, ← told_cons]

/-- A member that is followed by another one is read, and then the other one is next. -/
theorem readMembers_step {o : Option Field} {m m' : Text × Json} {ms : List (Text × Json)}
    {first more t : Text} (hm : c.Tells o m) (hkey : ∃ key, SpellsText m.1 key)
    (hnew : ∀ f ∈ o, f ∉ told)
    (hfirst : SpellsMember Verbatim m first) (hmore : SpellsMembers Verbatim (m' :: ms) more)
    (ht : Stops t) :
    ∃ next more', SpellsMember Verbatim m' next ∧ SpellsMembers Verbatim ms more' ∧
      ∀ limit, (c.fields told).readMembers (first ++ (more ++ t)) (limit + 1) =
        (c.fields (told ++ o.toList)).readMembers (next ++ (more' ++ t)) limit := by
  have hread := readMember_append hm hkey hnew hfirst (hmore.stops_append ht)
  obtain ⟨space, next, more', hspace, hnext, hmore', rfl⟩ := hmore
  have hcomma : skipSpace (space ++ ',' :: (next ++ more') ++ t) = ',' :: (next ++ (more' ++ t)) :=
    skipSpace_eq_cons.2 ⟨space, hspace, rfl, by simp⟩
  exact ⟨next, more', hnext, hmore', fun limit => by simp only [readMembers, hread, hcomma]⟩

/-- **The members of an object are read up to its closing brace**, and everything that they tell is
kept. -/
theorem readMembers_append {os : List (Option Field)} {ms : List (Text × Json)}
    (hms : List.Forall₂ c.Tells os ms) :
    ∀ {told : List Field} {o : Option Field} {m : Text × Json} {first more space : Text}
      {limit : Nat},
      c.Tells o m → (∀ m' ∈ m :: ms, ∃ key, SpellsText m'.1 key) → Fresh told (o :: os) →
        SpellsMember Verbatim m first → SpellsMembers Verbatim ms more → IsSpaces space →
          ∀ rest : Text, ms.length < limit →
            (c.fields told).readMembers (first ++ (more ++ (space ++ '}' :: rest))) limit =
              .ok (c.fields (told ++ (o :: os).reduceOption), rest) := by
  -- Over the members after the first one, since it is they that come with a comma in front.
  induction hms with
  | nil =>
    intro told o m first more space limit hm hkeys hfresh hfirst hmore hspace rest hlimit
    obtain ⟨limit, rfl⟩ := Nat.exists_eq_succ_of_ne_zero (Nat.ne_of_gt hlimit)
    have hmore : more = [] := hmore
    have hread := readMember_append hm (hkeys m (by simp)) hfresh.head hfirst
      (hspace.stops_append (Stops.cons (c := '}') rfl rest))
    have hclose := hspace.skipSpace_append_cons (c := '}') rfl rest
    rw [told_cons]
    simp [readMembers, hmore, hread, hclose]
  | @cons o' m' os ms hm' _ ih =>
    intro told o m first more space limit hm hkeys hfresh hfirst hmore hspace rest hlimit
    obtain ⟨limit, rfl⟩ := Nat.exists_eq_succ_of_ne_zero (Nat.ne_of_gt (Nat.zero_lt_of_lt hlimit))
    obtain ⟨hkey, hkeys⟩ := List.forall_mem_cons.1 hkeys
    obtain ⟨next, more', hnext, hmore', hstep⟩ := readMembers_step hm hkey hfresh.head hfirst hmore
      (hspace.stops_append (Stops.cons (c := '}') rfl rest))
    rw [hstep, told_cons]
    exact ih hm' hkeys hfresh.tail hnext hmore' hspace rest (by simpa using hlimit)

/-- **One key that spells no text is enough** for the members to be refused. -/
theorem readMembers_malformed {os : List (Option Field)} {ms : List (Text × Json)}
    (hms : List.Forall₂ c.Tells os ms) :
    ∀ {told : List Field} {o : Option Field} {m : Text × Json} {first more t : Text} {limit : Nat},
      c.Tells o m → (∃ m' ∈ m :: ms, ∀ key, ¬ SpellsText m'.1 key) → Fresh told (o :: os) →
        SpellsMember Verbatim m first → SpellsMembers Verbatim ms more → Stops t →
          ms.length < limit →
          (c.fields told).readMembers (first ++ (more ++ t)) limit = .error .malformed := by
  -- What stands before the first such key is read; nothing after it is looked at.
  induction hms with
  | nil =>
    intro told o m first more t limit hm hkeys hfresh hfirst hmore ht hlimit
    obtain ⟨limit, rfl⟩ := Nat.exists_eq_succ_of_ne_zero (Nat.ne_of_gt hlimit)
    have hno : ∀ key, ¬ SpellsText m.1 key := by simpa using hkeys
    simp only [readMembers, readMember_malformed hno hfirst]
  | @cons o' m' os ms hm' _ ih =>
    intro told o m first more t limit hm hkeys hfresh hfirst hmore ht hlimit
    obtain ⟨limit, rfl⟩ := Nat.exists_eq_succ_of_ne_zero (Nat.ne_of_gt (Nat.zero_lt_of_lt hlimit))
    by_cases hkey : ∃ key, SpellsText m.1 key
    · obtain ⟨next, more', hnext, hmore', hstep⟩ :=
        readMembers_step hm hkey hfresh.head hfirst hmore ht
      have hkeys : ∃ m'' ∈ m' :: ms, ∀ key, ¬ SpellsText m''.1 key :=
        ((List.exists_mem_cons_iff _ _ _).1 hkeys).resolve_left (not_forall_not.2 hkey)
      rw [hstep]
      exact ih hm' hkeys hfresh.tail hnext hmore' ht (by simpa using hlimit)
    · simp only [readMembers, readMember_malformed (not_exists.1 hkey) hfirst]

/-! ## Reading objects -/

theorem length_le_of_spellsMembers : ∀ {ms : List (Text × Json)} {more : Text},
    SpellsMembers Verbatim ms more → ms.length ≤ more.length
  | [], _, _ => Nat.zero_le _
  | m :: ms, _, ⟨space, member, more, _, _, hmore, heq⟩ => by
    have hle := length_le_of_spellsMembers hmore
    rw [heq]
    simp only [List.length_cons, List.length_append]
    omega

/-- A member without the white space before it. -/
theorem exists_trimmed {m : Text × Json} {t : Text} (ht : SpellsMember Verbatim m t) :
    ∃ u, SpellsMember Verbatim m ('"' :: u) ∧
      ∀ rest, skipSpace (t ++ rest) = '"' :: (u ++ rest) := by
  obtain ⟨k, v⟩ := m
  obtain ⟨body, space, value, hbody, hspace, hvalue, -, hquote⟩ := ht.exists_skipSpace
  exact ⟨body ++ ['"'] ++ (space ++ ':' :: value),
    ⟨_, space, value, .of_self ⟨body, hbody, rfl⟩, hspace, hvalue, rfl⟩,
      fun rest => by simp [hquote]⟩

theorem read_append_nil {t : Text} (ht : Led (Spells Verbatim (.object [])) t) (rest : Text) :
    read (t ++ rest) = .ok ({}, rest) := by
  obtain ⟨space, inner, hspace, ⟨space', hspace', rfl⟩, rfl⟩ := ht
  have hskip : skipSpace (space ++ '{' :: (space' ++ ['}']) ++ rest) =
      '{' :: (space' ++ '}' :: rest) :=
    skipSpace_eq_cons.2 ⟨space, hspace, rfl, by simp⟩
  have hclose := hspace'.skipSpace_append_cons (c := '}') rfl rest
  simp only [read, readObject, hskip, hclose]

theorem read_append_cons {m : Text × Json} {ms : List (Text × Json)} {t : Text}
    (ht : Led (Spells Verbatim (.object (m :: ms))) t) (rest : Text) :
    ∃ first more space limit, SpellsMember Verbatim m first ∧ SpellsMembers Verbatim ms more ∧
      IsSpaces space ∧
      ms.length < limit ∧
        read (t ++ rest) = readMembers {} (first ++ (more ++ (space ++ '}' :: rest))) limit := by
  obtain ⟨space', inner, hspace', ⟨first, more, space, hfirst, hmore, hspace, rfl⟩, rfl⟩ := ht
  obtain ⟨u, hu, htrim⟩ := exists_trimmed hfirst
  have hle := length_le_of_spellsMembers hmore
  have hskip : skipSpace (space' ++ '{' :: (first ++ (more ++ (space ++ ['}']))) ++ rest) =
      '{' :: (first ++ (more ++ (space ++ '}' :: rest))) :=
    skipSpace_eq_cons.2 ⟨space', hspace', rfl, by simp⟩
  refine ⟨'"' :: u, more, space, ('"' :: (u ++ (more ++ (space ++ '}' :: rest)))).length + 1, hu,
    hmore, hspace, ?_, ?_⟩
  · simp only [List.length_cons, List.length_append]
    omega
  · simp only [read, readObject, hskip, htrim]
    rfl

variable {os : List (Option Field)} {ms : List (Text × Json)} {t : Text}

/-- **The fields of a text are those that its members tell**, if all keys spell texts. -/
theorem ofJson_of_tells (ht : IsText Verbatim (.object ms) t) (hms : List.Forall₂ c.Tells os ms)
    (hnodup : os.reduceOption.Nodup) (hkeys : ∀ m ∈ ms, ∃ key, SpellsText m.1 key) :
    ofJson t = .ok (c.fields os.reduceOption) := by
  obtain ⟨inner, rest, hinner, hrest, rfl⟩ := ht
  have hread : read (inner ++ rest) = .ok (c.fields os.reduceOption, rest) := by
    cases hms with
    | nil => exact read_append_nil hinner rest
    | cons hm hms =>
      obtain ⟨first, more, space, limit, hfirst, hmore, hspace, hlimit, heq⟩ :=
        read_append_cons hinner rest
      rw [heq]
      exact readMembers_append hms hm hkeys (show Fresh [] _ from hnodup) hfirst hmore hspace rest
        hlimit
  simp only [ofJson, hread, skipSpace_eq_nil.2 hrest, List.isEmpty_nil, if_true]

/-- **A text is refused as malformed if some key in it spells no text.** -/
theorem ofJson_of_not_spellsText (ht : IsText Verbatim (.object ms) t)
    (hms : List.Forall₂ c.Tells os ms)
    (hnodup : os.reduceOption.Nodup) (hkeys : ∃ m ∈ ms, ∀ key, ¬ SpellsText m.1 key) :
    ofJson t = .error .malformed := by
  obtain ⟨inner, rest, hinner, -, rfl⟩ := ht
  have hread : read (inner ++ rest) = .error .malformed := by
    cases hms with
    | nil => simp at hkeys
    | cons hm hms =>
      obtain ⟨first, more, space, limit, hfirst, hmore, hspace, hlimit, heq⟩ :=
        read_append_cons hinner rest
      rw [heq]
      exact readMembers_malformed hms hm hkeys (show Fresh [] _ from hnodup) hfirst hmore
        (hspace.stops_append (Stops.cons rfl rest)) hlimit
  simp only [ofJson, hread]

end Fields

/-! ## Configurations -/

namespace Config

/-- The members of the text of a configuration, as they are spelled there. -/
def spelledMembers (c : Config) : List (Text × Json) :=
  [(Field.start.key.flatMap encodeChar, .string ([c.start].flatMap encodeChar)),
    (Field.marker.key.flatMap encodeChar, .string ([c.marker].flatMap encodeChar)),
    (Field.sorted.key.flatMap encodeChar, .bool c.sorted)]

theorem tells_spelledMembers (c : Config) :
    List.Forall₂ c.Tells [some .start, some .marker, some .sorted] c.spelledMembers :=
  .cons (.start (spellsText_flatMap _) (spellsText_flatMap _))
    (.cons (.marker (spellsText_flatMap _) (spellsText_flatMap _))
      (.cons (.sorted (spellsText_flatMap _)) .nil))

theorem quoted_flatMap (s : Text) : Quoted Verbatim (s.flatMap encodeChar) (encodeText s) :=
  ⟨_, ⟨rfl, (spellsText_flatMap s).isStringBody⟩, rfl⟩

theorem spellsMember_flatMap (k : Text) {v : Json} {t : Text} (h : Spells Verbatim v t) :
    SpellsMember Verbatim (k.flatMap encodeChar, v) (encodeText k ++ ':' :: t) :=
  ⟨_, [], t, .of_self (quoted_flatMap k), isSpaces_nil, .of_self h, rfl⟩

theorem isText_jsonText (c : Config) : IsText Verbatim (.object c.spelledMembers) c.jsonText := by
  have hsorted : Spells Verbatim (.bool c.sorted) ((Json.bool c.sorted).write .compact 1) := by
    cases c.sorted <;> rfl
  have hmembers : SpellsMembers Verbatim c.spelledMembers.tail _ :=
    ⟨[], _, _, isSpaces_nil, spellsMember_flatMap Field.marker.key (quoted_flatMap [c.marker]),
      ⟨[], _, [], isSpaces_nil, spellsMember_flatMap Field.sorted.key hsorted, rfl, rfl⟩, rfl⟩
  have hobject : Spells Verbatim (.object c.spelledMembers) c.jsonText :=
    ⟨_, _, [], spellsMember_flatMap Field.start.key (quoted_flatMap [c.start]), hmembers,
      isSpaces_nil, by
      simp [jsonText, toJson, write, writeMember, writeMembers, Layout.lineBreak, Layout.colon]⟩
  exact ⟨_, [], .of_self hobject, isSpaces_nil, by simp⟩

theorem only_all (c : Config) : c.only [.start, .marker, .sorted] = c := rfl

/-! ### Two texts -/

/-- The members of a text as they are spelled: the start symbol with escapes in key and value,
between an array and half of a surrogate pair under one other key. -/
def surrounded : List (Text × Json) :=
  [(['x'], .array [.number ['0']]), ("\\u0073tart_symbol".toList, .string "\\u0054".toList),
    (['x'], .string "\\ud800".toList)]

/-- Those members, with white space here and there. -/
def surroundedText : Text :=
  "\n\x7b \"x\":[0 ],\"\\u0073tart_symbol\" :\t\"\\u0054\",\"x\":\"\\ud800\"\x7d".toList

theorem isStringBody_unpaired : IsStringBody "\\ud800".toList :=
  .code (isCode_hexDigits (n := 0xD800) (by decide)) .nil

theorem spellsText_start : SpellsText "\\u0073tart_symbol".toList Field.start.key :=
  .code (isCode_hexDigits (n := 0x73) (by decide)) (.inl (by decide))
    (spellsText_flatMap "tart_symbol".toList)

theorem spellsText_T : SpellsText "\\u0054".toList ['T'] :=
  .code (isCode_hexDigits (n := 0x54) (by decide)) (.inl (by decide)) .nil

theorem spellsText_x : SpellsText ['x'] ['x'] := spellsText_flatMap ['x']

theorem tells_surrounded (marker : Char) :
    List.Forall₂ ({ start := 'T', marker } : Config).Tells [none, some .start, none]
      surrounded := by
  have hother : ∀ f : Field, ¬ SpellsText ['x'] f.key := fun f hf => by
    have hkey := spellsText_x.unique hf
    cases f <;> cases hkey
  exact .cons (.other _ hother) (.cons (.start spellsText_start spellsText_T)
    (.cons (.other _ hother) .nil))

theorem isText_surroundedText : IsText Verbatim (.object surrounded) surroundedText := by
  have hspace (s : Text) (hs : s.all isSpace = true) : IsSpaces s := by simpa [IsSpaces] using hs
  have harray : Spells Verbatim (.array [.number ['0']]) "[0 ]".toList :=
    ⟨['0'], [], [' '], .of_self ⟨rfl, .parts (.inl rfl) .zero .none .none⟩, rfl, hspace _ rfl, rfl⟩
  have hfirst : SpellsMember Verbatim (['x'], .array [.number ['0']]) " \"x\":[0 ]".toList :=
    ⟨_, [], _, ⟨[' '], _, hspace _ rfl, ⟨_, ⟨rfl, spellsText_x.isStringBody⟩, rfl⟩, rfl⟩,
      isSpaces_nil, .of_self harray, rfl⟩
  have hsecond : SpellsMember Verbatim ("\\u0073tart_symbol".toList, .string "\\u0054".toList)
      "\"\\u0073tart_symbol\" :\t\"\\u0054\"".toList :=
    ⟨_, [' '], _, .of_self ⟨_, ⟨rfl, spellsText_start.isStringBody⟩, rfl⟩, hspace _ rfl,
      ⟨['\t'], _, hspace _ rfl, ⟨_, ⟨rfl, spellsText_T.isStringBody⟩, rfl⟩, rfl⟩, rfl⟩
  have hthird : SpellsMember Verbatim (['x'], .string "\\ud800".toList)
      "\"x\":\"\\ud800\"".toList :=
    ⟨_, [], _, .of_self ⟨_, ⟨rfl, spellsText_x.isStringBody⟩, rfl⟩, isSpaces_nil,
      .of_self ⟨_, ⟨rfl, isStringBody_unpaired⟩, rfl⟩, rfl⟩
  exact ⟨_, [], ⟨['\n'], _, hspace _ rfl,
    ⟨_, _, [], hfirst, ⟨[], _, _, isSpaces_nil, hsecond,
      ⟨[], _, [], isSpaces_nil, hthird, rfl, rfl⟩, rfl⟩,
      isSpaces_nil, rfl⟩, rfl⟩, isSpaces_nil, rfl⟩

/-- An object with one member, whose key is half of a surrogate pair. -/
def unpaired : List (Text × Json) := [("\\ud800".toList, .number ['0'])]

def unpairedText : Text := "\x7b\"\\ud800\":0\x7d".toList

theorem isText_unpairedText : IsText Verbatim (.object unpaired) unpairedText := by
  have hmember : SpellsMember Verbatim ("\\ud800".toList, .number ['0']) "\"\\ud800\":0".toList :=
    ⟨_, [], ['0'], .of_self ⟨_, ⟨rfl, isStringBody_unpaired⟩, rfl⟩, isSpaces_nil,
      .of_self ⟨rfl, .parts (.inl rfl) .zero .none .none⟩, rfl⟩
  exact ⟨_, [], .of_self ⟨_, [], [], hmember, rfl, isSpaces_nil, rfl⟩, isSpaces_nil, rfl⟩

theorem not_spellsText_unpaired (s : Text) : ¬ SpellsText "\\ud800".toList s := fun hs => by
  cases hs.readString []

theorem tells_unpaired (c : Config) : List.Forall₂ c.Tells [none] unpaired :=
  .cons (.other _ fun f => not_spellsText_unpaired f.key) .nil

/-! ### All texts -/

/-- **A configuration is read from every text that tells it**, and what the text does not tell is as
usual. The members may come in any order, with any escapes, with white space anywhere and among any
others whose keys are those of no field; only their keys have to spell texts.  So what is written
for a configuration is read back. -/
theorem ofJson_told (c : Config) :
    (∀ (t : Text) (ms : List (Text × Json)) (os : List (Option Field)),
      IsText Verbatim (.object ms) t → List.Forall₂ c.Tells os ms → os.reduceOption.Nodup →
        ((∀ m ∈ ms, ∃ key, SpellsText m.1 key) →
          ofJson t =
            match (c.only os.reduceOption).validate with
            | .error e => .error e
            | .ok () => .ok (c.only os.reduceOption)) ∧
        ((∃ m ∈ ms, ∀ key, ¬ SpellsText m.1 key) → ofJson t = .error (.json .malformed))) ∧
      (c.validate = .ok () → ofJson c.jsonText = .ok c) := by
  refine ⟨fun t ms os ht hms hnodup => ⟨fun hkeys => ?_, fun hkeys => ?_⟩, fun hc => ?_⟩
  · cases hvalid : (c.only os.reduceOption).validate <;>
      simp only [ofJson, Fields.ofJson_of_tells ht hms hnodup hkeys, toConfig_fields, hvalid]
  · simp only [ofJson, Fields.ofJson_of_not_spellsText ht hms hnodup hkeys]
  · have hkeys : ∀ m ∈ c.spelledMembers, ∃ key, SpellsText m.1 key := by
      simp only [spelledMembers, List.forall_mem_cons]
      exact ⟨⟨_, spellsText_flatMap _⟩, ⟨_, spellsText_flatMap _⟩, ⟨_, spellsText_flatMap _⟩,
        by simp⟩
    have hfields := Fields.ofJson_of_tells c.isText_jsonText c.tells_spelledMembers (by decide)
      hkeys
    have honly : (c.fields [.start, .marker, .sorted]).toConfig = c :=
      (c.toConfig_fields _).trans c.only_all
    simp only [ofJson, hfields, List.reduceOption_cons_of_some, List.reduceOption_nil, honly, hc]

theorem ofJson_told_surrounded :
    IsText Verbatim (.object surrounded) surroundedText ∧
      List.Forall₂ ({ start := 'T', marker := '$' } : Config).Tells [none, some .start, none]
        surrounded ∧
        ofJson surroundedText = .ok { start := 'T' } ∧
          ofJson unpairedText = .error (.json .malformed) ∧
            ({ start := 'T', marker := '$' } : Config).validate = .ok () ∧
              ofJson ({ start := 'T', marker := '$' } : Config).jsonText =
                .ok { start := 'T', marker := '$' } := by
  have hkeys : ∀ m ∈ surrounded, ∃ key, SpellsText m.1 key := by
    simp only [surrounded, List.forall_mem_cons]
    exact ⟨⟨_, spellsText_x⟩, ⟨_, spellsText_start⟩, ⟨_, spellsText_x⟩, by simp⟩
  have hno : ∃ m ∈ unpaired, ∀ key, ¬ SpellsText m.1 key :=
    ⟨_, List.mem_singleton.2 rfl, not_spellsText_unpaired⟩
  obtain ⟨hread, hwritten⟩ := ofJson_told { start := 'T', marker := '$' }
  have hsurrounded := hread _ _ _ isText_surroundedText (tells_surrounded '$') (by decide)
  have hunpaired := hread _ _ _ isText_unpairedText (tells_unpaired _) (by decide)
  exact ⟨isText_surroundedText, tells_surrounded '$', hsurrounded.1 hkeys, hunpaired.2 hno, rfl,
    hwritten rfl⟩

/-- **Not every key is passed over**: half of a surrogate pair is the key of no field, and still its
text is refused, where the usual configuration would be admissible. -/
theorem ofJson_unpaired :
    IsText Verbatim (.object unpaired) unpairedText ∧
      List.Forall₂ ({} : Config).Tells [none] unpaired ∧
      (({} : Config).only []).validate = .ok () ∧ ofJson unpairedText = .error (.json .malformed) :=
  ⟨isText_unpairedText, tells_unpaired _, rfl, rfl⟩

end Config

end Chomsky
