/-!
# Symbols

* `Symbol` — a nonterminal or a terminal, each named by one character, or the null symbol, which
  stands for the empty string.
* `Symbol.ofChar?` — the symbol that a letter of a rule's text stands for.
* `Symbol.toChar` — the character a symbol is written as.
* `Symbol.key` — the place of a symbol in the order of symbols.

Principal results: `ofChar?_toChar` — an admissible symbol is read back from its character;
`key_injective` — the order keeps different symbols apart.
-/

namespace Chomsky

/-- A symbol of a grammar.  Nothing is said here about which characters name which kind. -/
inductive Symbol where
  | nonterminal (name : Char)
  | terminal (letter : Char)
  | null
  deriving DecidableEq, Repr

namespace Symbol

/-- Upper-case letters are nonterminals, lower-case letters terminals (in ASCII); no other
character is a symbol. -/
def ofChar? (c : Char) : Option Symbol :=
  if c.isUpper then some (.nonterminal c)
  else if c.isLower then some (.terminal c)
  else none

def isTerminal : Symbol → Bool
  | terminal _ => true
  | _ => false

def isNonterminal : Symbol → Bool
  | nonterminal _ => true
  | _ => false

/-- The name of a nonterminal. -/
def nonterminal? : Symbol → Option Char
  | nonterminal name => some name
  | _ => none

/-- The letter of a terminal. -/
def terminal? : Symbol → Option Char
  | terminal letter => some letter
  | _ => none

/-- The character a symbol is written as; the null symbol is written as the marker. -/
def toChar (marker : Char) : Symbol → Char
  | nonterminal name => name
  | terminal letter => letter
  | null => marker

@[simp] theorem nonterminal?_eq_some {s : Symbol} {c : Char} :
    s.nonterminal? = some c ↔ s = nonterminal c := by
  cases s <;> simp [nonterminal?]

@[simp] theorem terminal?_eq_some {s : Symbol} {c : Char} :
    s.terminal? = some c ↔ s = terminal c := by
  cases s <;> simp [terminal?]

/-- A symbol that rule text can hold: an upper-case nonterminal or a lower-case terminal. -/
def Admissible : Symbol → Prop
  | nonterminal name => name.isUpper = true
  | terminal letter => letter.isLower = true
  | null => False

instance : DecidablePred Admissible := fun s => by
  cases s <;> unfold Admissible <;> infer_instance

theorem isUpper_eq_false_of_isLower {c : Char} (h : c.isLower = true) : c.isUpper = false := by
  have hlower : (decide ('a'.val ≤ c.val) && decide (c.val ≤ 'z'.val)) = true := h
  show decide ('A'.val ≤ c.val ∧ c.val ≤ 'Z'.val) = false
  refine decide_eq_false fun hupper => ?_
  have hle := of_decide_eq_true (Bool.and_eq_true_iff.1 hlower).1
  exact absurd (UInt32.le_trans hle hupper.2) (by decide)

/-- **An admissible symbol is read back from its character.** -/
theorem ofChar?_toChar {s : Symbol} (h : s.Admissible) (marker : Char) :
    ofChar? (s.toChar marker) = some s := by
  cases s with
  | nonterminal name => simp_all [Admissible, toChar, ofChar?]
  | terminal letter =>
    have hl : letter.isLower = true := h
    simp [toChar, ofChar?, hl, isUpper_eq_false_of_isLower hl]
  | null => exact h.elim

theorem admissible_of_ofChar? {c : Char} {s : Symbol} (h : ofChar? c = some s) :
    s.Admissible ∧ ∀ marker, s.toChar marker = c := by
  unfold ofChar? at h
  split at h
  · cases h; exact ⟨by assumption, fun _ => rfl⟩
  split at h
  · cases h; exact ⟨by assumption, fun _ => rfl⟩
  · cases h

/-- Nonterminals come first, then terminals, each by character; the null symbol is last. -/
def key : Symbol → Nat
  | nonterminal name => name.toNat
  | terminal letter => 0x110000 + letter.toNat
  | null => 0x220000

theorem toNat_lt (c : Char) : c.toNat < 0x110000 := by
  have h := c.valid
  simp only [UInt32.isValidChar, Nat.isValidChar] at h
  show c.val.toNat < 0x110000
  omega

theorem key_injective {s t : Symbol} (h : s.key = t.key) : s = t := by
  cases s <;> cases t <;> simp only [key] at h
  · exact congrArg _ (Char.toNat_inj.1 h)
  · rename_i a b; have := toNat_lt a; omega
  · rename_i a; have := toNat_lt a; omega
  · rename_i a b; have := toNat_lt b; omega
  · exact congrArg _ (Char.toNat_inj.1 (by omega))
  · rename_i a; have := toNat_lt a; omega
  · rename_i a; have := toNat_lt a; omega
  · rename_i a; have := toNat_lt a; omega
  · rfl

end Symbol

end Chomsky
