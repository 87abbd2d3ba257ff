/-
  FormulaDesk.Number.Decimal
  ──────────────────────────────────────
  **DECIMAL DIGITS.**

  The decimal digits of natural numbers and the decimal size of quotients,
  from which all number texts are made: fixed places here, the shortest
  digits in `FormulaDesk.Number.Shortest`.
-/
import FormulaDesk.Number.Binary64

namespace FormulaDesk.Number

/-! ## §1. Digits. -/

/-- The decimal digits of a natural number. -/
def digitsOf (n : Nat) : List Char := Nat.toDigits 10 n

/-- How many decimal digits a natural number has; one for zero. -/
def digitCount (n : Nat) : Nat := (digitsOf n).length

/-- The digits of a natural number, with zeros in front up to a width. -/
def paddedDigits (width n : Nat) : List Char :=
  List.replicate (width - digitCount n) '0' ++ digitsOf n

theorem digitCount_pos (n : Nat) : 0 < digitCount n := by
  unfold digitCount digitsOf
  exact List.length_pos_iff.2 Nat.toDigits_ne_nil

/-- The natural number that some digits write, after those of `n`. -/
def readDigits (n : Nat) (cs : List Char) : Nat :=
  cs.foldl (fun n c => 10 * n + (c.toNat - '0'.toNat)) n

/-- The sign of a number: nothing when it is not negative. -/
def signText (negative : Bool) : List Char := if negative then ['-'] else []

/-! ## §2. Fixed places. -/

/-- A number of `places` decimal places, in units of the last one. -/
def placed (places units : Nat) : List Char :=
  if places = 0 then digitsOf units
  else
    digitsOf (units / Nat.pow 10 places) ++
      '.' :: paddedDigits places (units % Nat.pow 10 places)

/-- A quotient in units of the `places`-th decimal place, a half to even. -/
def unitsAt (places : Nat) (r : Quotient) : Nat :=
  roundHalfEven (r.num * Nat.pow 10 places) r.den

/-- A finite double with `places` decimal places: its exact decimal expansion
rounded, and its sign even when only zeros are left. -/
def Finite.toFixed (places : Nat) (v : Finite) : List Char :=
  signText v.negative ++ placed places (unitsAt places v.magnitude)

/-! ## §3. Decimal size. -/

/-- The greatest `k` with `10^k ≤ num / den`, for a quotient above zero. -/
def floorLog10 (r : Quotient) : Int :=
  if r.den ≤ r.num then digitCount (r.num / r.den) - 1
  else - digitCount ((r.den - 1) / r.num)

/-- A quotient times a power of ten. -/
def Quotient.scale (r : Quotient) (k : Int) : Quotient :=
  ⟨r.num * Nat.pow 10 k.toNat, r.den * Nat.pow 10 (-k).toNat⟩

end FormulaDesk.Number
