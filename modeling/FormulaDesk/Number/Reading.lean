/-
  FormulaDesk.Number.Reading
  ──────────────────────────────────────
  **READING NUMBERS.**

  A numeral is an optional sign, digits with at most one point among, before
  or behind them, and an optional exponent.  It is read as the double nearest
  to what it says, however long it is.

    • `literal?` — the numbers of a formula: a digit or a point comes first;
    • `number?` — the known values: also `inf`, `infinity` and `nan`, in any
      case.
-/
import FormulaDesk.Number.Decimal

namespace FormulaDesk.Number

/-! ## §1. Numerals. -/

/-- The number `± digits · 10^exponent`. -/
structure Numeral where
  negative : Bool
  digits : Nat
  exponent : Int
deriving DecidableEq

/-- A text without its sign, and whether the sign was a minus. -/
def unsigned : List Char → Bool × List Char
  | '-' :: cs => (true, cs)
  | '+' :: cs => (false, cs)
  | cs => (false, cs)

/-- A non-empty text of digits. -/
def allDigits? (cs : List Char) : Option Nat :=
  if cs ≠ [] ∧ cs.all Char.isDigit then some (readDigits 0 cs) else none

/-- The exponent that ends a numeral; none is zero. -/
def exponent? : List Char → Option Int
  | [] => some 0
  | c :: cs =>
    if c = 'e' ∨ c = 'E' then
      let (negative, digits) := unsigned cs
      (allDigits? digits).map fun n => if negative then -(n : Int) else n
    else none

/-- A numeral without its sign. -/
def unsignedNumeral? (negative : Bool) (cs : List Char) : Option Numeral :=
  let whole := cs.takeWhile Char.isDigit
  let rest := cs.dropWhile Char.isDigit
  let (fraction, rest) :=
    match rest with
    | '.' :: rest => (rest.takeWhile Char.isDigit, rest.dropWhile Char.isDigit)
    | rest => ([], rest)
  if whole = [] ∧ fraction = [] then none
  else
    (exponent? rest).map fun e =>
      ⟨negative, readDigits 0 (whole ++ fraction), e - fraction.length⟩

/-! ## §2. The double of a numeral. -/

/-- From this decimal size on every number is infinite. -/
def hugeSize : Int := 310

/-- Up to this decimal size every number is zero. -/
def tinySize : Int := -330

/-- The bits of the double nearest to `digits · 10^exponent`.  Numerals far
outside the doubles are settled by their size, without any great power. -/
def scaledBits (digits : Nat) (exponent : Int) : Nat :=
  let size := exponent + digitCount digits
  if digits = 0 ∨ size ≤ tinySize then 0
  else if hugeSize ≤ size then infinityBits
  else nearestBits (Quotient.scale ⟨digits, 1⟩ exponent)

/-- The double nearest to a numeral. -/
def Numeral.toFloat (n : Numeral) : Float :=
  signed n.negative (scaledBits n.digits n.exponent)

/-! ## §3. Which texts are numbers. -/

/-- A text in small letters, those of ASCII. -/
def lowered (cs : List Char) : List Char := cs.map Char.toLower

/-- The number that a known value writes. -/
def number? (cs : List Char) : Option Float :=
  let (negative, body) := unsigned cs
  if lowered body = "nan".toList then some (0 / 0)
  else if lowered body = "inf".toList ∨ lowered body = "infinity".toList then
    some (signed negative infinityBits)
  else (unsignedNumeral? negative body).map Numeral.toFloat

/-- The number that an atom of a formula writes: after an optional sign it
begins with a digit or a point, so `inf` and `nan` are names. -/
def literal? (cs : List Char) : Option Float :=
  match (unsigned cs).2 with
  | c :: _ => if c.isDigit || c == '.' then number? cs else none
  | [] => none

end FormulaDesk.Number
