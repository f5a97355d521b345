import Chomsky.Json.Scanner
import Mathlib

/-!
# The texts of JSON values

What a JSON text is, as the grammar of the format says it and without a reader.  White space may
stand before every token and at the end.

* `IsSpaces`, `Led` — white space, and what comes after white space.
* `SpellsText` — what may stand between quotes for a text.  `IsStringBody` — what may stand between
  quotes at all: half of a surrogate pair may, though it spells no text.
* `IsNumber` — the spellings of numbers.
* `Spells` — the texts of a value, given what may stand between quotes for a text; `Verbatim` takes
  strings as they are spelled.
* `Stops` — what may follow a value.
* `Proper` — a value whose numbers are spelled as numbers.

Principal results: `SpellsText.isStringBody` — what spells a text may stand between quotes;
`Spells.exists_cons` — how values begin; `spells_write` — what is written for a value, in either
layout, spells that value.
-/

namespace Chomsky.Json

/-! ## White space -/

def IsSpaces (t : Text) : Prop := ∀ c ∈ t, isSpace c = true

/-- White space, and then a text with a property. -/
def Led (P : Text → Prop) (t : Text) : Prop :=
  ∃ space inner, IsSpaces space ∧ P inner ∧ t = space ++ inner

theorem isSpaces_nil : IsSpaces [] := List.forall_mem_nil _

theorem Led.of_self {P : Text → Prop} {t : Text} (h : P t) : Led P t :=
  ⟨[], t, isSpaces_nil, h, rfl⟩

/-! ## Strings -/

/-- What may follow a backslash, and the characters that it stands for there. -/
def escapes : List (Char × Char) :=
  [('"', '"'), ('\\', '\\'), ('/', '/'), ('b', '\x08'), ('f', '\x0C'), ('n', '\n'), ('r', '\r'),
    ('t', '\t')]

/-- A hexadecimal digit of either case, and its value. -/
def IsHexDigit (c : Char) (value : Nat) : Prop :=
  value < 16 ∧ (c = Nat.digitChar value ∨ c = (Nat.digitChar value).toUpper)

/-- Four hexadecimal digits, and their value. -/
inductive IsCode : Text → Nat → Prop
  | digits {a b c d : Char} {i j k l : Nat} (ha : IsHexDigit a i) (hb : IsHexDigit b j)
      (hc : IsHexDigit c k)
      (hd : IsHexDigit d l) : IsCode [a, b, c, d] (((i * 16 + j) * 16 + k) * 16 + l)

/-- What may stand for itself between quotes. -/
structure IsPlain (c : Char) : Prop where
  ne_quote : c ≠ '"'
  ne_backslash : c ≠ '\\'
  not_control : 0x20 ≤ c.toNat

/-- The first argument may stand between quotes for the second one.  A character beyond `0xFFFF` is
escaped as two surrogates. -/
inductive SpellsText : Text → Text → Prop
  | nil : SpellsText [] []
  | plain {c : Char} {t s : Text} (hc : IsPlain c) (h : SpellsText t s) :
      SpellsText (c :: t) (c :: s)
  | escape {c d : Char} {t s : Text} (hc : (c, d) ∈ escapes) (h : SpellsText t s) :
      SpellsText ('\\' :: c :: t) (d :: s)
  | code {u t s : Text} {n : Nat} (hu : IsCode u n) (hn : n < 0xD800 ∨ 0xDFFF < n)
      (h : SpellsText t s) :
      SpellsText ('\\' :: 'u' :: (u ++ t)) (Char.ofNat n :: s)
  | pair {u v t s : Text} {high low : Nat} (hu : IsCode u high) (hv : IsCode v low)
      (hhigh : 0xD800 ≤ high ∧ high ≤ 0xDBFF) (hlow : 0xDC00 ≤ low ∧ low ≤ 0xDFFF)
      (h : SpellsText t s) :
      SpellsText ('\\' :: 'u' :: (u ++ '\\' :: 'u' :: (v ++ t)))
        (Char.ofNat (0x10000 + (high - 0xD800) * 0x400 + (low - 0xDC00)) :: s)

/-- What may stand between quotes. -/
inductive IsStringBody : Text → Prop
  | nil : IsStringBody []
  | plain {c : Char} {t : Text} (hc : IsPlain c) (h : IsStringBody t) : IsStringBody (c :: t)
  | escape {c d : Char} {t : Text} (hc : (c, d) ∈ escapes) (h : IsStringBody t) :
      IsStringBody ('\\' :: c :: t)
  | code {u t : Text} {n : Nat} (hu : IsCode u n) (h : IsStringBody t) :
      IsStringBody ('\\' :: 'u' :: (u ++ t))

/-- **What spells a text may stand between quotes.** -/
theorem SpellsText.isStringBody {t s : Text} (h : SpellsText t s) : IsStringBody t := by
  induction h with
  | nil => exact .nil
  | plain hc _ ih => exact .plain hc ih
  | escape hc _ ih => exact .escape hc ih
  | code hu _ _ ih => exact .code hu ih
  | pair hu hv _ _ _ ih => exact .code hu (.code hv ih)

/-- A text between quotes. -/
def Quoted (str : Text → Text → Prop) (s t : Text) : Prop :=
  ∃ body, str body s ∧ t = '"' :: (body ++ ['"'])

/-- A string as it is spelled. -/
def Verbatim (t s : Text) : Prop := s = t ∧ IsStringBody t

/-! ## Numbers -/

def IsDigits (t : Text) : Prop := t ≠ [] ∧ ∀ c ∈ t, c.isDigit = true

/-- The whole part of a number has no zeros in front. -/
inductive IsWhole : Text → Prop
  | zero : IsWhole ['0']
  | digits {d : Char} {ds : Text} (hd : d.isDigit = true) (hne : d ≠ '0')
      (hds : ∀ c ∈ ds, c.isDigit = true) :
      IsWhole (d :: ds)

inductive IsFraction : Text → Prop
  | none : IsFraction []
  | digits {ds : Text} (h : IsDigits ds) : IsFraction ('.' :: ds)

inductive IsExponent : Text → Prop
  | none : IsExponent []
  | digits {e : Char} {sign ds : Text} (he : e = 'e' ∨ e = 'E')
      (hsign : sign = [] ∨ sign = ['+'] ∨ sign = ['-']) (h : IsDigits ds) :
      IsExponent (e :: (sign ++ ds))

/-- A sign, a whole part, a fraction and an exponent; all but the whole part may be missing. -/
inductive IsNumber : Text → Prop
  | parts {sign whole fraction exponent : Text} (hsign : sign = [] ∨ sign = ['-'])
      (hwhole : IsWhole whole) (hfraction : IsFraction fraction) (hexponent : IsExponent exponent) :
      IsNumber (sign ++ (whole ++ (fraction ++ exponent)))

/-! ## Values -/

section Values

variable (str : Text → Text → Prop)

mutual

/-- The texts of a value, without white space around them. -/
def Spells : Json → Text → Prop
  | null, t => t = ['n', 'u', 'l', 'l']
  | bool true, t => t = ['t', 'r', 'u', 'e']
  | bool false, t => t = ['f', 'a', 'l', 's', 'e']
  | number spelling, t => t = spelling ∧ IsNumber spelling
  | string s, t => Quoted str s t
  | array [], t => ∃ space, IsSpaces space ∧ t = '[' :: (space ++ [']'])
  | array (x :: xs), t => ∃ first more space, Led (Spells x) first ∧ SpellsItems xs more ∧
      IsSpaces space ∧
      t = '[' :: (first ++ (more ++ (space ++ [']'])))
  | object [], t => ∃ space, IsSpaces space ∧ t = '{' :: (space ++ ['}'])
  | object (m :: ms), t => ∃ first more space, SpellsMember m first ∧ SpellsMembers ms more ∧
      IsSpaces space ∧
      t = '{' :: (first ++ (more ++ (space ++ ['}'])))

/-- The items that follow the first one, each with a comma before it. -/
def SpellsItems : List Json → Text → Prop
  | [], t => t = []
  | x :: xs, t => ∃ space item more, IsSpaces space ∧ Led (Spells x) item ∧ SpellsItems xs more ∧
      t = space ++ ',' :: (item ++ more)

/-- A key and its value. -/
def SpellsMember : Text × Json → Text → Prop
  | (k, v), t => ∃ key space value, Led (Quoted str k) key ∧ IsSpaces space ∧ Led (Spells v) value ∧
      t = key ++ (space ++ ':' :: value)

/-- The members that follow the first one. -/
def SpellsMembers : List (Text × Json) → Text → Prop
  | [], t => t = []
  | m :: ms, t => ∃ space member more, IsSpaces space ∧ SpellsMember m member ∧
      SpellsMembers ms more ∧
      t = space ++ ',' :: (member ++ more)

end

/-- The texts of a value, with white space around them. -/
def IsText (v : Json) (t : Text) : Prop :=
  ∃ inner space, Led (Spells str v) inner ∧ IsSpaces space ∧ t = inner ++ space

end Values

/-! ## Where values begin and end -/

/-- The characters of which numbers are made. -/
def inNumber (c : Char) : Bool := c.isDigit || ['-', '+', '.', 'e', 'E'].contains c

/-- What may follow a value: nothing that could belong to a number. -/
def Stops (t : Text) : Prop := ∀ c ∈ t.head?, inNumber c = false

theorem Stops.cons {c : Char} (hc : inNumber c = false) (t : Text) : Stops (c :: t) := by
  simpa [Stops] using hc

theorem IsSpaces.stops_append {space t : Text} (hspace : IsSpaces space) (ht : Stops t) :
    Stops (space ++ t) := by
  match space with
  | [] => exact ht
  | c :: space =>
    have hc : isSpace c = true := hspace c (by simp)
    simp only [isSpace, Bool.or_eq_true, beq_iff_eq] at hc
    refine Stops.cons ?_ _
    rcases hc with ((rfl | rfl) | rfl) | rfl <;> rfl

theorem SpellsItems.stops_append {str : Text → Text → Prop} {xs : List Json} {more t : Text}
    (h : SpellsItems str xs more) (ht : Stops t) : Stops (more ++ t) := by
  match xs, h with
  | [], h => exact h ▸ ht
  | x :: xs, ⟨space, item, more', hspace, _, _, heq⟩ =>
    rw [heq, List.append_assoc]
    exact hspace.stops_append (Stops.cons rfl _)

theorem SpellsMembers.stops_append {str : Text → Text → Prop} {ms : List (Text × Json)}
    {more t : Text} (h : SpellsMembers str ms more) (ht : Stops t) : Stops (more ++ t) := by
  match ms, h with
  | [], h => exact h ▸ ht
  | m :: ms, ⟨space, member, more', hspace, _, _, heq⟩ =>
    rw [heq, List.append_assoc]
    exact hspace.stops_append (Stops.cons rfl _)

theorem SpellsItems.stops {str : Text → Text → Prop} {xs : List Json} {more space : Text}
    (h : SpellsItems str xs more) (hspace : IsSpaces space) (rest : Text) :
    Stops (more ++ (space ++ ']' :: rest)) :=
  h.stops_append (hspace.stops_append (Stops.cons rfl rest))

theorem SpellsMembers.stops {str : Text → Text → Prop} {ms : List (Text × Json)} {more space : Text}
    (h : SpellsMembers str ms more) (hspace : IsSpaces space) (rest : Text) :
    Stops (more ++ (space ++ '}' :: rest)) :=
  h.stops_append (hspace.stops_append (Stops.cons rfl rest))

/-- The characters with which values begin. -/
def opens (c : Char) : Bool := c.isDigit || ['n', 't', 'f', '"', '[', '{', '-'].contains c

theorem isSpace_of_opens {c : Char} (h : opens c = true) : isSpace c = false := by
  by_contra hspace
  simp only [isSpace, Bool.not_eq_false, Bool.or_eq_true, beq_iff_eq] at hspace
  rcases hspace with ((rfl | rfl) | rfl) | rfl <;> cases h

theorem IsNumber.exists_cons {t : Text} (h : IsNumber t) :
    ∃ c u, t = c :: u ∧ (c = '-' ∨ c.isDigit = true) := by
  cases h with
  | parts hsign hwhole _ _ =>
    rcases hsign with rfl | rfl
    · cases hwhole with
      | zero => exact ⟨'0', _, rfl, .inr rfl⟩
      | digits hd _ _ => exact ⟨_, _, rfl, .inr hd⟩
    · exact ⟨'-', _, rfl, .inl rfl⟩

/-- **How values begin.** -/
theorem Spells.exists_cons {str : Text → Text → Prop} {v : Json} {t : Text} (h : Spells str v t) :
    ∃ c u, t = c :: u ∧ opens c = true := by
  match v, h with
  | .null, h => exact ⟨_, _, h, rfl⟩
  | .bool true, h => exact ⟨_, _, h, rfl⟩
  | .bool false, h => exact ⟨_, _, h, rfl⟩
  | .number spelling, ⟨heq, hnumber⟩ =>
    obtain ⟨c, u, rfl, hc⟩ := hnumber.exists_cons
    refine ⟨c, u, heq, ?_⟩
    rcases hc with rfl | hc
    · rfl
    · simp [opens, hc]
  | .string s, ⟨_, _, heq⟩ => exact ⟨_, _, heq, rfl⟩
  | .array [], ⟨_, _, heq⟩ => exact ⟨_, _, heq, rfl⟩
  | .array (x :: xs), ⟨_, _, _, _, _, _, heq⟩ => exact ⟨_, _, heq, rfl⟩
  | .object [], ⟨_, _, heq⟩ => exact ⟨_, _, heq, rfl⟩
  | .object (m :: ms), ⟨_, _, _, _, _, _, heq⟩ => exact ⟨_, _, heq, rfl⟩

theorem IsWhole.all_isDigit {t : Text} (h : IsWhole t) : ∀ c ∈ t, c.isDigit = true := by
  cases h with
  | zero => simp
  | digits hd _ hds => exact List.forall_mem_cons.2 ⟨hd, hds⟩

theorem inNumber_of_isDigit {c : Char} (h : c.isDigit = true) : inNumber c = true := by
  simp [inNumber, h]

theorem IsNumber.all_inNumber {t : Text} (h : IsNumber t) : ∀ c ∈ t, inNumber c = true := by
  cases h with
  | parts hsign hwhole hfraction hexponent =>
    simp only [List.forall_mem_append]
    refine ⟨?_, fun c hc => inNumber_of_isDigit (hwhole.all_isDigit c hc), ?_, ?_⟩
    · rcases hsign with rfl | rfl <;> simp [inNumber]
    · cases hfraction with
      | none => simp
      | digits h => exact List.forall_mem_cons.2 ⟨rfl, fun c hc => inNumber_of_isDigit (h.2 c hc)⟩
    · cases hexponent with
      | none => simp
      | digits he hsign h =>
        simp only [List.forall_mem_cons, List.forall_mem_append]
        refine ⟨?_, ?_, fun c hc => inNumber_of_isDigit (h.2 c hc)⟩
        · rcases he with rfl | rfl <;> rfl
        · rcases hsign with rfl | rfl | rfl <;> simp [inNumber]

/-! ## What is written -/

mutual

/-- All numbers of a value are spelled as numbers. -/
def Proper : Json → Prop
  | number spelling => IsNumber spelling
  | array xs => ProperItems xs
  | object ms => ProperMembers ms
  | _ => True

def ProperItems : List Json → Prop
  | [] => True
  | x :: xs => Proper x ∧ ProperItems xs

def ProperMembers : List (Text × Json) → Prop
  | [] => True
  | (_, v) :: ms => Proper v ∧ ProperMembers ms

end

theorem isSpaces_lineBreak (l : Layout) (depth : Nat) : IsSpaces (l.lineBreak depth) := by
  cases l with
  | compact => exact isSpaces_nil
  | indented =>
    refine List.forall_mem_cons.2 ⟨rfl, fun c hc => ?_⟩
    rw [List.eq_of_mem_replicate hc]
    rfl

theorem exists_colon (l : Layout) : ∃ space, IsSpaces space ∧ l.colon = ':' :: space := by
  cases l with
  | compact => exact ⟨[], isSpaces_nil, rfl⟩
  | indented => exact ⟨[' '], by simp [IsSpaces, isSpace], rfl⟩

theorem isHexDigit_hexDigit (n : Nat) : IsHexDigit (hexDigit n) (n % 16) :=
  ⟨Nat.mod_lt _ (by decide), .inl rfl⟩

/-- Sixteen bits as four digits. -/
theorem isCode_hexDigits {n : Nat} (h : n < 0x10000) :
    IsCode [hexDigit (n / 4096), hexDigit (n / 256), hexDigit (n / 16), hexDigit n] n := by
  have hcode := IsCode.digits (isHexDigit_hexDigit (n / 4096)) (isHexDigit_hexDigit (n / 256))
    (isHexDigit_hexDigit (n / 16)) (isHexDigit_hexDigit n)
  have hvalue : ((n / 4096 % 16 * 16 + n / 256 % 16) * 16 + n / 16 % 16) * 16 + n % 16 = n := by
    omega
  rwa [hvalue] at hcode

theorem SpellsText.encodeChar {t s : Text} (h : SpellsText t s) (c : Char) :
    SpellsText (encodeChar c ++ t) (c :: s) := by
  unfold Json.encodeChar
  split
  · subst_vars; exact .escape (by decide) h
  split
  · subst_vars; exact .escape (by decide) h
  split
  · subst_vars; exact .escape (by decide) h
  split
  · subst_vars; exact .escape (by decide) h
  split
  · subst_vars; exact .escape (by decide) h
  split
  · subst_vars; exact .escape (by decide) h
  split
  · subst_vars; exact .escape (by decide) h
  split
  · rename_i hlt
    have hcode := isCode_hexDigits (n := c.toNat) (by omega)
    rw [Nat.div_eq_of_lt (b := 4096) (by omega), Nat.div_eq_of_lt (b := 256) (by omega)] at hcode
    have hspells := SpellsText.code hcode (.inl (by omega)) h
    rwa [Char.ofNat_toNat] at hspells
  · exact .plain ⟨‹_›, ‹_›, by omega⟩ h

theorem spellsText_flatMap (s : Text) : SpellsText (s.flatMap encodeChar) s := by
  induction s with
  | nil => exact .nil
  | cons c s ih => exact ih.encodeChar c

theorem quoted_encodeText (s : Text) : Quoted SpellsText s (encodeText s) :=
  ⟨_, spellsText_flatMap s, rfl⟩

mutual

/-- **What is written for a value spells it**, in either layout and at any depth. -/
theorem spells_write (l : Layout) (depth : Nat) :
    ∀ v : Json, v.Proper → Spells SpellsText v (v.write l depth)
  | .null, _ => rfl
  | .bool true, _ => rfl
  | .bool false, _ => rfl
  | .number spelling, h => ⟨rfl, h⟩
  | .string s, _ => quoted_encodeText s
  | .array [], _ => ⟨[], isSpaces_nil, rfl⟩
  | .array (x :: xs), h => by
    refine ⟨_, _, _, ⟨_, _, isSpaces_lineBreak l (depth + 1), spells_write l (depth + 1) x h.1,
      rfl⟩, spellsItems_writeItems l (depth + 1) xs h.2, isSpaces_lineBreak l depth, ?_⟩
    simp [write]
  | .object [], _ => ⟨[], isSpaces_nil, rfl⟩
  | .object ((k, v) :: ms), h => by
    refine ⟨_, _, _, spellsMember_writeMember l (depth + 1) (k, v) ⟨h.1, trivial⟩,
      spellsMembers_writeMembers l (depth + 1) ms h.2, isSpaces_lineBreak l depth, ?_⟩
    simp [write]

theorem spellsItems_writeItems (l : Layout) (depth : Nat) :
    ∀ xs : List Json, ProperItems xs → SpellsItems SpellsText xs (writeItems l depth xs)
  | [], _ => rfl
  | x :: xs, h => by
    refine ⟨[], _, _, isSpaces_nil,
      ⟨_, _, isSpaces_lineBreak l depth, spells_write l depth x h.1, rfl⟩,
      spellsItems_writeItems l depth xs h.2, ?_⟩
    simp [writeItems]

/-- A member comes after a line break. -/
theorem spellsMember_writeMember (l : Layout) (depth : Nat) :
    ∀ m : Text × Json, ProperMembers [m] →
      SpellsMember SpellsText m (l.lineBreak depth ++ writeMember l depth m)
  | (k, v), h => by
    obtain ⟨space, hspace, hcolon⟩ := exists_colon l
    refine ⟨_, [], _, ⟨_, _, isSpaces_lineBreak l depth, quoted_encodeText k, rfl⟩, isSpaces_nil,
      ⟨_, _, hspace, spells_write l depth v h.1, rfl⟩, ?_⟩
    simp [writeMember, hcolon]

theorem spellsMembers_writeMembers (l : Layout) (depth : Nat) :
    ∀ ms : List (Text × Json), ProperMembers ms →
      SpellsMembers SpellsText ms (writeMembers l depth ms)
  | [], _ => rfl
  | (k, v) :: ms, h => by
    refine ⟨[], _, _, isSpaces_nil, spellsMember_writeMember l depth (k, v) ⟨h.1, trivial⟩,
      spellsMembers_writeMembers l depth ms h.2, ?_⟩
    simp [writeMembers]

end

end Chomsky.Json
