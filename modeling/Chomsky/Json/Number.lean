import Chomsky.Json.Scanner

/-!
# Numbers in JSON

A number is taken as a binary64 value.  Its digits are gathered into a whole number below `2 ^ 64`
and a power of ten; digits that no longer fit only count for the power.

* `gatherInteger`, `gatherFraction` — the whole number and the digits that count for the power.
* `roundDouble` — a whole number, rounded to the 53 bits of a binary64 value, half to even.
* `overflows` — the value is beyond the largest finite one.
* `numberFault` — what is wrong with a text that begins with a number where no number is expected.
-/

namespace Chomsky.Json

/-- The value of a decimal digit. -/
def digitValue (c : Char) : Nat := c.toNat - 48

/-- The least whole number that does not fit into 64 bits. -/
def wholeBound : Nat := Nat.pow 2 64

/-- Takes digits while the whole number stays below `2 ^ 64`; counts those left over. -/
def gatherInteger (whole : Nat) : Text → Nat × Nat
  | [] => (whole, 0)
  | d :: ds =>
    let next := whole * 10 + digitValue d
    if next < wholeBound then gatherInteger next ds else (whole, ds.length + 1)

/-- Takes digits while the whole number stays below `2 ^ 64`; counts those taken. -/
def gatherFraction (whole : Nat) : Text → Nat × Nat
  | [] => (whole, 0)
  | d :: ds =>
    let next := whole * 10 + digitValue d
    if next < wholeBound then
      let (result, count) := gatherFraction next ds
      (result, count + 1)
    else (whole, 0)

/-- The number of the same 53 leading bits that is nearest; of two, the even one. -/
def roundDouble (n : Nat) : Nat :=
  let unit := Nat.pow 2 (n.log2 + 1 - 53)
  let quotient := n / unit
  let rest := n % unit
  if unit < 2 * rest ∨ (2 * rest = unit ∧ quotient % 2 = 1) then (quotient + 1) * unit
  else quotient * unit

/-- A whole number times a power of ten rounds to something beyond all finite values: either the
power itself is too large, or the product of the two rounded factors is. -/
def overflows (whole : Nat) (power : Int) : Bool :=
  match power with
  | .negSucc _ => false
  | .ofNat p =>
    whole != 0 &&
      (308 < p ||
        Nat.pow 2 1024 - Nat.pow 2 970 ≤ roundDouble whole * roundDouble (Nat.pow 10 p))

/-- The fault of a number that is complete: it is too large, or not what is expected. -/
def completeFault (integer fraction : Text) (exponent : Int) : JsonFault :=
  let (whole, dropped) := gatherInteger 0 integer
  let (whole, taken) := gatherFraction whole fraction
  if overflows whole (dropped - taken + exponent) then .malformed else .mistyped

/-- The fault where a digit is needed. -/
def digitFault (t : Text) : JsonFault := if t.isEmpty then .truncated else .malformed

/-- The value of a sequence of digits. -/
def digitsValue (ds : Text) : Nat := ds.foldl (fun n d => n * 10 + digitValue d) 0

/-- The sign of an exponent, and what follows it. -/
def splitSign : Text → Int × Text
  | '+' :: t => (1, t)
  | '-' :: t => (-1, t)
  | t => (1, t)

/-- The fault from the exponent on, if there is one. -/
def exponentFault (integer fraction : Text) : Text → JsonFault
  | c :: t =>
    if c = 'e' ∨ c = 'E' then
      let (sign, t) := splitSign t
      let digits := t.takeWhile Char.isDigit
      if digits.isEmpty then digitFault t
      else completeFault integer fraction (sign * digitsValue digits)
    else completeFault integer fraction 0
  | [] => completeFault integer fraction 0

/-- The fault from the decimal point on, if there is one. -/
def fractionFault (integer : Text) : Text → JsonFault
  | '.' :: t =>
    let fraction := t.takeWhile Char.isDigit
    if fraction.isEmpty then digitFault t
    else exponentFault integer fraction (t.dropWhile Char.isDigit)
  | t => exponentFault integer [] t

/-- The fault of a text that begins with a number, its minus sign left out. -/
def numberFault (t : Text) : JsonFault :=
  let integer := t.takeWhile Char.isDigit
  match integer with
  | [] => digitFault t
  | '0' :: _ :: _ => .malformed
  | _ => fractionFault integer (t.dropWhile Char.isDigit)

end Chomsky.Json
