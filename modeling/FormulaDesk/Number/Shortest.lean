/-
  FormulaDesk.Number.Shortest
  ──────────────────────────────────────
  **THE SHORTEST DIGITS THAT READ BACK.**

  The reals that round to a double form an interval around it, its ends
  included exactly when the mantissa is even.  Among the decimals of `n`
  digits only two can be the nearest to the double: the one at or below it
  and the next one.  `shortest` takes the first `n` for which one of the two
  lies in the interval, and of two the nearer.

  `plain` writes these digits without an exponent: this is how the desk
  quotes a number that it was given as a number.
-/
import FormulaDesk.Number.Decimal

namespace FormulaDesk.Number

/-! ## §1. The interval of a double. -/

/-- The reals that round to a double, with its value, all in one unit. -/
structure Interval where
  low : Nat
  value : Nat
  high : Nat
  unit : Quotient
  closed : Bool

/-- The interval of a finite double above zero, in quarters of its last
binary place.  Below a power of two the doubles lie twice as close. -/
def Finite.interval (v : Finite) : Interval :=
  let below := if v.mantissa = Nat.pow 2 52 ∧ v.exponent ≠ leastExponent then 1 else 2
  { low := 4 * v.mantissa - below
    value := 4 * v.mantissa
    high := 4 * v.mantissa + 2
    unit := ⟨Nat.pow 2 v.exponent.toNat, 4 * Nat.pow 2 (-v.exponent).toNat⟩
    closed := v.mantissa % 2 == 0 }

/-- The comparison that an end of the interval asks for. -/
def Interval.within (i : Interval) (a b : Nat) : Bool :=
  if i.closed then a ≤ b else a < b

/-! ## §2. The two neighbours on a decimal grid. -/

/-- Decimal digits with the power of ten of their last one. -/
structure Scaled where
  digits : Nat
  exponent : Int
deriving DecidableEq

/-- The decimal of `digits` digits that reads back, if one of the two
neighbours of the value does; `size` is the decimal size of the value.  Of two
at one distance the greater is taken. -/
def Interval.onGrid? (i : Interval) (size : Int) (digits : Nat) : Option Scaled :=
  let exponent := size - digits + 1
  let grid : Quotient := ⟨Nat.pow 10 exponent.toNat, Nat.pow 10 (-exponent).toNat⟩
  let step := grid.num * i.unit.den
  let quarter := i.unit.num * grid.den
  let down := i.value * quarter / step
  let rest := i.value * quarter - down * step
  let reachesDown := i.within (i.low * quarter) (down * step)
  let reachesUp := i.within ((down + 1) * step) (i.high * quarter)
  match reachesDown, reachesUp with
  | true, true => some ⟨if step ≤ 2 * rest then down + 1 else down, exponent⟩
  | true, false => some ⟨down, exponent⟩
  | false, true => some ⟨down + 1, exponent⟩
  | false, false => none

/-- The exact decimal expansion of a finite double: a half is five tenths. -/
def Finite.exact (v : Finite) : Scaled :=
  ⟨v.mantissa * Nat.pow 2 v.exponent.toNat * Nat.pow 5 (-v.exponent).toNat, min v.exponent 0⟩

/-- Seventeen digits tell any two doubles apart. -/
def enoughDigits : Nat := 17

/-- The shortest decimal that reads back as a finite double above zero. -/
def Finite.shortest (v : Finite) : Scaled :=
  let i := v.interval
  let size := floorLog10 v.magnitude
  ((List.range enoughDigits).findSome? fun k => i.onGrid? size (k + 1)).getD v.exact

/-! ## §3. Without an exponent. -/

/-- Digits scaled by a power of ten, without an exponent and without a
fraction of zeros. -/
def Scaled.plain (s : Scaled) : List Char :=
  if 0 ≤ s.exponent then digitsOf (s.digits * Nat.pow 10 s.exponent.toNat)
  else
    let places := (-s.exponent).toNat
    let fraction := (paddedDigits places (s.digits % Nat.pow 10 places)).reverse
    let fraction := (fraction.dropWhile (· == '0')).reverse
    digitsOf (s.digits / Nat.pow 10 places) ++
      if fraction.isEmpty then [] else '.' :: fraction

/-- A double in plain digits. -/
def Double.plain : Double → String
  | .finite v =>
    .ofList <| signText v.negative ++ if v.mantissa = 0 then ['0'] else v.shortest.plain
  | .infinite negative => .ofList (signText negative ++ "inf".toList)
  | .undefined => "NaN"

/-- A number in plain digits: the fewest that read back, never an exponent. -/
def plain (x : Float) : String := (Double.ofFloat x).plain

end FormulaDesk.Number
