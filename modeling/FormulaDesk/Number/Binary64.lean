/-
  FormulaDesk.Number.Binary64
  ──────────────────────────────────────
  **BINARY64, EXACTLY.**

  A finite double is `± m · 2^q` with natural `m`, and the 64 bits of a double
  say which.  This module goes both ways in exact arithmetic: `Double.ofFloat`
  takes a double apart, and `nearestBits` finds the double nearest to a
  quotient of natural numbers, an exact half going to the even neighbour.

    • `two_mul_roundHalfEven_le`, `le_two_mul_roundHalfEven` — a rounded
      quotient is within a half of the exact one.
-/

namespace FormulaDesk.Number

/-! ## §1. Rounding a quotient. -/

/-- The natural number nearest to `num / den`; a half goes to the even one. -/
def roundHalfEven (num den : Nat) : Nat :=
  let whole := num / den
  let twice := 2 * (num % den)
  if twice < den then whole
  else if den < twice then whole + 1
  else whole + whole % 2

theorem two_mul_roundHalfEven_le (num : Nat) {den : Nat} (h : 0 < den) :
    2 * (roundHalfEven num den * den) ≤ 2 * num + den := by
  have hdiv := Nat.div_add_mod num den
  have hmod := Nat.mod_lt num h
  have htwo := Nat.mod_lt (num / den) (show 0 < 2 by decide)
  unfold roundHalfEven
  dsimp only
  rw [Nat.mul_comm den] at hdiv
  split
  next => omega
  next =>
    split
    next => rw [Nat.add_mul]; omega
    next =>
      rw [Nat.add_mul]
      have : num / den % 2 * den ≤ 1 * den := Nat.mul_le_mul_right _ (by omega)
      omega

theorem le_two_mul_roundHalfEven (num : Nat) {den : Nat} (h : 0 < den) :
    2 * num ≤ 2 * (roundHalfEven num den * den) + den := by
  have hdiv := Nat.div_add_mod num den
  have hmod := Nat.mod_lt num h
  unfold roundHalfEven
  dsimp only
  rw [Nat.mul_comm den] at hdiv
  split
  next => omega
  next =>
    split
    next => rw [Nat.add_mul]; omega
    next => rw [Nat.add_mul]; omega

/-! ## §2. Taking a double apart. -/

-- Powers are `Nat.pow` by name: what `^` stands for depends on what is imported.

/-- A quotient of natural numbers. -/
structure Quotient where
  num : Nat
  den : Nat
deriving DecidableEq

/-- The finite double `± mantissa · 2^exponent`. -/
structure Finite where
  negative : Bool
  mantissa : Nat
  exponent : Int
deriving DecidableEq

/-- The absolute value of a finite double. -/
def Finite.magnitude (v : Finite) : Quotient :=
  ⟨v.mantissa * Nat.pow 2 v.exponent.toNat, Nat.pow 2 (-v.exponent).toNat⟩

/-- What a double stands for. -/
inductive Double where
  | finite (v : Finite)
  | infinite (negative : Bool)
  | undefined
deriving DecidableEq

/-- The least exponent of a finite double. -/
def leastExponent : Int := -1074

/-- The bits of infinity: all larger ones without a sign are undefined. -/
def infinityBits : Nat := 0x7FF * Nat.pow 2 52

/-- The finite double of some bits without a sign, all below infinity's. -/
def finiteOfBits (negative : Bool) (bits : Nat) : Finite :=
  let biased := bits / Nat.pow 2 52
  let fraction := bits % Nat.pow 2 52
  if biased = 0 then ⟨negative, fraction, leastExponent⟩
  else ⟨negative, fraction + Nat.pow 2 52, leastExponent + ((biased - 1 : Nat) : Int)⟩

/-- What the bits of a double stand for. -/
def Double.ofBits (bits : Nat) : Double :=
  let negative := decide (Nat.pow 2 63 ≤ bits)
  let unsigned := bits % Nat.pow 2 63
  if unsigned < infinityBits then .finite (finiteOfBits negative unsigned)
  else if unsigned = infinityBits then .infinite negative
  else .undefined

/-- What a double stands for. -/
def Double.ofFloat (x : Float) : Double := .ofBits x.toBits.toNat

/-! ## §3. The nearest double. -/

/-- The greatest `k` with `2^k ≤ num / den`, for a quotient above zero. -/
def floorLog2 (r : Quotient) : Int :=
  let guess : Int := (r.num.log2 : Int) - r.den.log2
  if r.den * Nat.pow 2 guess.toNat ≤ r.num * Nat.pow 2 (-guess).toNat then guess else guess - 1

/-- The bits of the double nearest to a quotient, without a sign: infinity's
from half a step above the greatest finite double. -/
def nearestBits (r : Quotient) : Nat :=
  if r.num = 0 then 0
  else
    let exponent := max (floorLog2 r - 52) leastExponent
    let mantissa :=
      roundHalfEven (r.num * Nat.pow 2 (-exponent).toNat) (r.den * Nat.pow 2 exponent.toNat)
    min ((exponent - leastExponent).toNat * Nat.pow 2 52 + mantissa) infinityBits

/-- The double of some bits without a sign, with its sign. -/
def signed (negative : Bool) (bits : Nat) : Float :=
  Float.ofBits (.ofNat (if negative then Nat.pow 2 63 + bits else bits))

end FormulaDesk.Number
