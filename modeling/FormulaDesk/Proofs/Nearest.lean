/-
  FormulaDesk.Proofs.Nearest
  ──────────────────────────────────────
  **A READ NUMBER IS THE NEAREST DOUBLE.**

  What the exact arithmetic of the doubles finds, said on the rationals.  The
  doubles up to a power of two lie on a grid, and the grid of a quotient has at
  least 2⁵² steps below it, unless it is the finest one.  So the nearest point
  of the grid, which `roundHalfEven` finds, is nearest among all doubles: those
  on coarser grids are on this one too, and those on finer grids lie below
  those 2⁵² steps.

    • `isRounded_roundHalfEven` — the nearest natural number, of two the even;
    • `nearestBits_spec` — the nearest double to a quotient;
    • `scaledBits_spec` — the nearest double to a numeral, however it is scaled.
-/
import Mathlib
import FormulaDesk.Number.Reading

namespace FormulaDesk.Number

/-! ## §1. The nearest natural number. -/

/-- `n` is the natural number nearest to `q`, and the even one of two. -/
structure IsRounded (q : ℚ) (n : ℕ) : Prop where
  close : |(n : ℚ) - q| ≤ 1 / 2
  even : |(n : ℚ) - q| = 1 / 2 → n % 2 = 0

namespace IsRounded

variable {q q' : ℚ} {n n' : ℕ}

/-- No integer is nearer. -/
theorem nearest (h : IsRounded q n) (k : ℤ) : |(n : ℚ) - q| ≤ |(k : ℚ) - q| := by
  by_cases hk : k = n
  · rw [hk, Int.cast_natCast]
  · -- Another integer is a whole unit away from `n`, so half a unit from `q`.
    have hunit : (1 : ℚ) ≤ |(k : ℚ) - n| := by
      have hint : (1 : ℤ) ≤ |k - n| := Int.one_le_abs (sub_ne_zero.2 hk)
      exact_mod_cast hint
    have htriangle : |(k : ℚ) - n| ≤ |(k : ℚ) - q| + |(n : ℚ) - q| := by
      rw [abs_sub_comm (n : ℚ) q]
      exact abs_sub_le _ _ _
    linarith [h.close]

theorem unique (h : IsRounded q n) (h' : IsRounded q n') : n = n' := by
  -- Of two neighbours both a half away, only one is even.
  have key : ∀ {n n' : ℕ}, IsRounded q n → IsRounded q n' → n < n' → False := by
    intro n n' h h' hlt
    have hstep : (n : ℚ) + 1 ≤ n' := by exact_mod_cast hlt
    have hlow := neg_le_of_abs_le h.close
    have hhigh := le_of_abs_le h'.close
    have hq : q = n + 1 / 2 := by linarith
    have hn' : (n' : ℚ) = n + 1 := by linarith
    have heven := h.even (by rw [hq, sub_add_cancel_left, abs_neg, abs_of_pos one_half_pos])
    have heven' := h'.even (by rw [hq, hn', show (n : ℚ) + 1 - (n + 1 / 2) = 1 / 2 by ring,
      abs_of_pos one_half_pos])
    have hsucc : n' = n + 1 := by exact_mod_cast hn'
    omega
  rcases lt_trichotomy n n' with hlt | heq | hlt
  · exact (key h h' hlt).elim
  · exact heq
  · exact (key h' h hlt).elim

/-- **What lies nearer is rounded alike.** -/
theorem of_closer (h : IsRounded q n) (hcloser : |(n : ℚ) - q'| ≤ |(n : ℚ) - q|) :
    IsRounded q' n where
  close := hcloser.trans h.close
  even heq := h.even (le_antisymm h.close (heq ▸ hcloser))

end IsRounded

/-- **A quotient is rounded to the nearest natural number.** -/
theorem isRounded_roundHalfEven (num : ℕ) {den : ℕ} (h : 0 < den) :
    IsRounded (num / den) (roundHalfEven num den) := by
  have hden : (0 : ℚ) < den := by exact_mod_cast h
  have hlow : (2 * (roundHalfEven num den * den) : ℚ) ≤ 2 * num + den := by
    exact_mod_cast two_mul_roundHalfEven_le num h
  have hhigh : (2 * num : ℚ) ≤ 2 * (roundHalfEven num den * den) + den := by
    exact_mod_cast le_two_mul_roundHalfEven num h
  have hdiff : (roundHalfEven num den : ℚ) - num / den =
      (roundHalfEven num den * den - num) / den := by
    field_simp
  constructor
  · rw [hdiff, abs_le, le_div_iff₀ hden, div_le_iff₀ hden]
    constructor <;> linarith
  · intro hhalf
    -- The rounded quotient is half a unit above the exact one or below it.
    have hsides : 2 * (roundHalfEven num den * den) = 2 * num + den ∨
        2 * (roundHalfEven num den * den) + den = 2 * num := by
      rw [hdiff, abs_eq one_half_pos.le, div_eq_iff hden.ne', div_eq_iff hden.ne'] at hhalf
      rcases hhalf with hhalf | hhalf
      · left
        have : (2 * (roundHalfEven num den * den) : ℚ) = 2 * num + den := by linarith
        exact_mod_cast this
      · right
        have : (2 * (roundHalfEven num den * den) + den : ℚ) = 2 * num := by linarith
        exact_mod_cast this
    have hdiv := Nat.div_add_mod num den
    have hmod := Nat.mod_lt num h
    rw [Nat.mul_comm den] at hdiv
    unfold roundHalfEven at hsides ⊢
    dsimp only at hsides ⊢
    split at hsides
    next hlt => omega
    next =>
      split at hsides
      next hlt => rw [Nat.add_mul] at hsides; omega
      next hle hge => rw [if_neg hle, if_neg hge]; omega

/-! ## §2. Exact values. -/

/-- The rational number that a quotient stands for. -/
def Quotient.toRat (r : Quotient) : ℚ := r.num / r.den

/-- The rational number that a finite double stands for. -/
def Finite.toRat (v : Finite) : ℚ :=
  if v.negative then -v.magnitude.toRat else v.magnitude.toRat

/-- A power, as the quotient of two powers that the model writes. -/
theorem pow_div_pow (b : ℕ) (k : ℤ) :
    ((Nat.pow b k.toNat : ℕ) : ℚ) / ((Nat.pow b (-k).toNat : ℕ) : ℚ) = (b : ℚ) ^ k := by
  simp only [Nat.pow_eq, Nat.cast_pow]
  rcases le_total 0 k with hk | hk
  · obtain ⟨n, rfl⟩ := Int.eq_ofNat_of_zero_le hk
    simp
  · obtain ⟨n, hn⟩ := Int.eq_ofNat_of_zero_le (neg_nonneg.2 hk)
    obtain rfl : k = -n := by omega
    simp

theorem toRat_magnitude (v : Finite) :
    v.magnitude.toRat = v.mantissa * (2 : ℚ) ^ v.exponent := by
  have hpow := pow_div_pow 2 v.exponent
  rw [Nat.cast_ofNat] at hpow
  rw [Quotient.toRat, Finite.magnitude, Nat.cast_mul, mul_div_assoc, hpow]

theorem toRat_scale (r : Quotient) (k : ℤ) :
    (r.scale k).toRat = r.toRat * (10 : ℚ) ^ k := by
  have hpow := pow_div_pow 10 k
  rw [Nat.cast_ofNat] at hpow
  rw [Quotient.toRat, Quotient.scale, Nat.cast_mul, Nat.cast_mul, mul_div_mul_comm, hpow,
    Quotient.toRat]

/-- A finite double as its bits give it. -/
structure Finite.IsDouble (v : Finite) : Prop where
  mantissa_lt : v.mantissa < 2 ^ 53
  least : leastExponent ≤ v.exponent
  greatest : v.exponent ≤ 971

/-- The greatest finite double. -/
theorem Finite.IsDouble.le_greatest {v : Finite} (h : v.IsDouble) :
    v.magnitude.toRat ≤ (2 ^ 53 - 1) * 2 ^ 971 := by
  rw [toRat_magnitude]
  have hmantissa : (v.mantissa : ℚ) ≤ 2 ^ 53 - 1 := by
    have hnat : v.mantissa + 1 ≤ 2 ^ 53 := h.mantissa_lt
    have hrat : (v.mantissa : ℚ) + 1 ≤ 2 ^ 53 := by exact_mod_cast hnat
    linarith
  have hpow : (2 : ℚ) ^ v.exponent ≤ 2 ^ (971 : ℤ) := zpow_le_zpow_right₀ one_le_two h.greatest
  exact mul_le_mul hmantissa hpow (by positivity) (by norm_num)

/-! ## §3. The bits of a double. -/

theorem infinityBits_eq : infinityBits = 2047 * 2 ^ 52 := rfl

theorem negative_finiteOfBits (negative : Bool) (bits : ℕ) :
    (finiteOfBits negative bits).negative = negative := by
  unfold finiteOfBits
  dsimp only
  split <;> rfl

/-- The bits below infinity's are those of doubles. -/
theorem isDouble_finiteOfBits {negative : Bool} {bits : ℕ} (h : bits < infinityBits) :
    (finiteOfBits negative bits).IsDouble := by
  have hinf := infinityBits_eq
  have hpow : Nat.pow 2 52 = 2 ^ 52 := rfl
  unfold finiteOfBits
  dsimp only
  rw [hpow]
  split
  next =>
    refine ⟨?_, le_rfl, show leastExponent ≤ 971 by decide⟩
    show bits % 2 ^ 52 < 2 ^ 53
    omega
  next =>
    refine ⟨?_, ?_, ?_⟩
    · show bits % 2 ^ 52 + 2 ^ 52 < 2 ^ 53
      omega
    · show leastExponent ≤ leastExponent + ((bits / 2 ^ 52 - 1 : ℕ) : ℤ)
      omega
    · show leastExponent + ((bits / 2 ^ 52 - 1 : ℕ) : ℤ) ≤ 971
      unfold leastExponent
      omega

/-- **A finite double is one of the grid.** -/
theorem isDouble_of_ofFloat {x : Float} {v : Finite} (h : Double.ofFloat x = .finite v) :
    v.IsDouble := by
  unfold Double.ofFloat Double.ofBits at h
  dsimp only at h
  split at h
  next hlt =>
    obtain rfl := Double.finite.inj h
    exact isDouble_finiteOfBits hlt
  next => split at h <;> exact nomatch h

section Bits

open Float.Model Float.Model.UnpackedFloat

/-- Bits up to infinity's are those of a float as they are. -/
theorem valid_of_le_infinityBits {bits : UInt64} (h : bits.toNat % 2 ^ 63 ≤ infinityBits) :
    Format.binary64.Valid bits.toBitVec := by
  constructor
  intro hexponent hmantissa
  have hinf := infinityBits_eq
  have hbits : bits.toBitVec.toNat = bits.toNat := rfl
  have hlarge : bits.toNat / 2 ^ 52 % 2 ^ 11 = 2047 := by
    rw [unpackExponent_def, ← BitVec.toNat_inj, BitVec.extractLsb'_toNat,
      Nat.shiftRight_eq_div_pow, hbits] at hexponent
    exact hexponent
  have hfraction : bits.toNat % 2 ^ 52 ≠ 0 := by
    rw [unpackMantissa_def, ne_eq, ← BitVec.toNat_inj, BitVec.extractLsb'_toNat,
      Nat.shiftRight_zero, hbits] at hmantissa
    exact hmantissa
  omega

/-- **Such a float gives its bits back.** -/
theorem toBits_ofBits {bits : UInt64} (h : bits.toNat % 2 ^ 63 ≤ infinityBits) :
    (Float.ofBits bits).toBits = bits := by
  have hfloat := Float.ofBits_toBits (Float.ofModel ⟨bits, valid_of_le_infinityBits h⟩)
  exact congrArg Float.toBits hfloat

end Bits

/-- **The double of some bits has these bits.** -/
theorem ofFloat_signed (negative : Bool) {bits : ℕ} (h : bits < infinityBits) :
    Double.ofFloat (signed negative bits) = .finite (finiteOfBits negative bits) := by
  have hinf := infinityBits_eq
  have hpow : Nat.pow 2 63 = 2 ^ 63 := rfl
  have hwhole : ∀ n : ℕ, n < 2 ^ 64 → n % 2 ^ 63 = bits →
      Double.ofFloat (Float.ofBits (.ofNat n)) = .ofBits n := by
    intro n hn hbits
    have hnat : (UInt64.ofNat n).toNat = n := UInt64.toNat_ofNat_of_lt' hn
    rw [Double.ofFloat, toBits_ofBits (by rw [hnat, hbits]; exact h.le), hnat]
  cases negative with
  | false =>
      show Double.ofFloat (Float.ofBits (.ofNat bits)) = _
      rw [hwhole bits (by omega) (by omega), Double.ofBits, hpow,
        decide_eq_false (by omega : ¬ 2 ^ 63 ≤ bits)]
      simp only [Nat.mod_eq_of_lt (by omega : bits < 2 ^ 63), h, if_true]
  | true =>
      show Double.ofFloat (Float.ofBits (.ofNat (Nat.pow 2 63 + bits))) = _
      rw [hpow, hwhole (2 ^ 63 + bits) (by omega) (by omega), Double.ofBits, hpow,
        decide_eq_true (by omega : 2 ^ 63 ≤ 2 ^ 63 + bits)]
      simp only [Nat.add_mod_left, Nat.mod_eq_of_lt (by omega : bits < 2 ^ 63), h, if_true]

/-! ## §4. The size of a quotient. -/

variable {r : Quotient}

theorem zpow_le_toRat_iff (hden : 0 < r.den) (k : ℤ) :
    (2 : ℚ) ^ k ≤ r.toRat ↔
      r.den * Nat.pow 2 k.toNat ≤ r.num * Nat.pow 2 (-k).toNat := by
  have hden' : (0 : ℚ) < r.den := by exact_mod_cast hden
  have hpow : (0 : ℚ) < (Nat.pow 2 (-k).toNat : ℕ) := by
    exact_mod_cast Nat.pow_pos two_pos
  have hk := pow_div_pow 2 k
  rw [Nat.cast_ofNat] at hk
  rw [← hk, Quotient.toRat, div_le_div_iff₀ hpow hden', mul_comm]
  exact_mod_cast Iff.rfl

/-- The binary size of a natural number, on the rationals. -/
theorem log2_spec {n : ℕ} (h : 0 < n) :
    (2 : ℚ) ^ (n.log2 : ℤ) ≤ n ∧ (n : ℚ) < 2 ^ ((n.log2 : ℤ) + 1) := by
  have hlow : 2 ^ n.log2 ≤ n := Nat.log2_self_le h.ne'
  have hhigh : n < 2 ^ (n.log2 + 1) := Nat.lt_log2_self
  exact ⟨by exact_mod_cast hlow, by exact_mod_cast hhigh⟩

/-- A quotient lies between two powers of two. -/
theorem floorLog2_spec (hnum : 0 < r.num) (hden : 0 < r.den) :
    (2 : ℚ) ^ floorLog2 r ≤ r.toRat ∧ r.toRat < 2 ^ (floorLog2 r + 1) := by
  obtain ⟨hnumlow, hnumhigh⟩ := log2_spec hnum
  obtain ⟨hdenlow, hdenhigh⟩ := log2_spec hden
  have hden' : (0 : ℚ) < r.den := by exact_mod_cast hden
  have htwo : (2 : ℚ) ≠ 0 := two_ne_zero
  -- The difference of the two sizes is the size of the quotient, or one more.
  have hhigh : r.toRat < 2 ^ ((r.num.log2 : ℤ) - r.den.log2 + 1) := by
    rw [Quotient.toRat, div_lt_iff₀ hden']
    calc (r.num : ℚ) < 2 ^ ((r.num.log2 : ℤ) + 1) := hnumhigh
      _ = 2 ^ ((r.num.log2 : ℤ) - r.den.log2 + 1) * 2 ^ (r.den.log2 : ℤ) := by
        rw [← zpow_add₀ htwo]
        congr 1
        ring
      _ ≤ 2 ^ ((r.num.log2 : ℤ) - r.den.log2 + 1) * r.den :=
        mul_le_mul_of_nonneg_left hdenlow (by positivity)
  have hlow : (2 : ℚ) ^ ((r.num.log2 : ℤ) - r.den.log2 - 1) ≤ r.toRat := by
    rw [Quotient.toRat, le_div_iff₀ hden']
    calc (2 : ℚ) ^ ((r.num.log2 : ℤ) - r.den.log2 - 1) * r.den
        ≤ 2 ^ ((r.num.log2 : ℤ) - r.den.log2 - 1) * 2 ^ ((r.den.log2 : ℤ) + 1) :=
          mul_le_mul_of_nonneg_left hdenhigh.le (by positivity)
      _ = 2 ^ (r.num.log2 : ℤ) := by
        rw [← zpow_add₀ htwo]
        congr 1
        ring
      _ ≤ r.num := hnumlow
  unfold floorLog2
  dsimp only
  split
  next hguess => exact ⟨(zpow_le_toRat_iff hden _).2 hguess, hhigh⟩
  next hguess =>
    rw [← zpow_le_toRat_iff hden, not_le] at hguess
    exact ⟨hlow, by rwa [sub_add_cancel]⟩

/-! ## §5. The nearest double to a quotient. -/

/-- The step of the doubles around a quotient, as a power of two. -/
def Quotient.step (r : Quotient) : ℤ := max (floorLog2 r - 52) leastExponent

/-- A quotient in steps of the doubles around it. -/
def Quotient.steps (r : Quotient) : ℕ :=
  roundHalfEven (r.num * Nat.pow 2 (-r.step).toNat) (r.den * Nat.pow 2 r.step.toNat)

theorem nearestBits_eq (hnum : 0 < r.num) :
    nearestBits r =
      min ((r.step - leastExponent).toNat * 2 ^ 52 + r.steps) infinityBits := by
  unfold nearestBits
  rw [if_neg hnum.ne']
  rfl

theorem isRounded_steps (hden : 0 < r.den) : IsRounded (r.toRat / 2 ^ r.step) r.steps := by
  have hpos : 0 < r.den * Nat.pow 2 r.step.toNat := Nat.mul_pos hden (Nat.pow_pos two_pos)
  have hround := isRounded_roundHalfEven (r.num * Nat.pow 2 (-r.step).toNat) hpos
  have hstep := pow_div_pow 2 (-r.step)
  rw [neg_neg, Nat.cast_ofNat, zpow_neg] at hstep
  rw [Nat.cast_mul, Nat.cast_mul, mul_div_mul_comm, hstep, ← div_eq_mul_inv] at hround
  exact hround

/-- **At most 2⁵³ steps.** -/
theorem steps_le (hnum : 0 < r.num) (hden : 0 < r.den) : r.steps ≤ 2 ^ 53 := by
  have hclose := le_of_abs_le (isRounded_steps hden).close
  have hlt : r.toRat / 2 ^ r.step < 2 ^ (53 : ℤ) := by
    rw [div_lt_iff₀ (by positivity), ← zpow_add₀ two_ne_zero]
    refine (floorLog2_spec hnum hden).2.trans_le (zpow_le_zpow_right₀ one_le_two ?_)
    have := le_max_left (floorLog2 r - 52) leastExponent
    rw [Quotient.step]
    omega
  have hrat : (r.steps : ℚ) < 2 ^ 53 + 1 := by
    have : (2 : ℚ) ^ (53 : ℤ) = 2 ^ 53 := by norm_cast
    linarith
  have hnat : r.steps < 2 ^ 53 + 1 := by exact_mod_cast hrat
  omega

/-- **At least 2⁵² steps, unless the step is the least one.** -/
theorem le_toRat_of_step (hnum : 0 < r.num) (hden : 0 < r.den)
    (h : leastExponent < r.step) : (2 : ℚ) ^ 52 ≤ r.toRat / 2 ^ r.step := by
  have hstep : r.step = floorLog2 r - 52 := by
    rcases max_cases (floorLog2 r - 52) leastExponent with ⟨heq, -⟩ | ⟨heq, -⟩
    · exact heq
    · rw [Quotient.step, heq] at h
      exact absurd h (lt_irrefl _)
  rw [le_div_iff₀ (by positivity), ← zpow_natCast, ← zpow_add₀ two_ne_zero, hstep]
  refine le_trans (le_of_eq ?_) (floorLog2_spec hnum hden).1
  congr 1
  push_cast
  ring

theorem le_steps (hnum : 0 < r.num) (hden : 0 < r.den) (h : leastExponent < r.step) :
    2 ^ 52 ≤ r.steps := by
  have hclose := neg_le_of_abs_le (isRounded_steps hden).close
  have hlow := le_toRat_of_step hnum hden h
  have hrat : (2 : ℚ) ^ 52 < r.steps + 1 := by linarith
  have hnat : 2 ^ 52 < r.steps + 1 := by exact_mod_cast hrat
  omega

/-- **What the bits of some steps stand for.**  The carry into the exponent is
the next double. -/
theorem magnitude_finiteOfBits (negative : Bool) {bits k m : ℕ} (hbits : bits = k * 2 ^ 52 + m)
    (hm : m ≤ 2 ^ 53) (hk : k = 0 ∨ 2 ^ 52 ≤ m) :
    (finiteOfBits negative bits).magnitude.toRat = m * (2 : ℚ) ^ (leastExponent + k) := by
  have hpow : Nat.pow 2 52 = 2 ^ 52 := rfl
  rw [toRat_magnitude]
  unfold finiteOfBits
  dsimp only
  rw [hpow]
  by_cases hsmall : m < 2 ^ 52
  · obtain rfl : k = 0 := hk.resolve_right (by omega)
    have hbiased : bits / 2 ^ 52 = 0 := by omega
    have hfraction : bits % 2 ^ 52 = m := by omega
    rw [if_pos hbiased, hfraction]
    simp
  · by_cases hcarry : m < 2 ^ 53
    · have hbiased : bits / 2 ^ 52 = k + 1 := by omega
      have hfraction : bits % 2 ^ 52 + 2 ^ 52 = m := by omega
      rw [hbiased, hfraction, if_neg (Nat.succ_ne_zero k), Nat.add_sub_cancel]
    · have hbiased : bits / 2 ^ 52 = k + 1 + 1 := by omega
      have hfraction : bits % 2 ^ 52 = 0 := by omega
      have hcarried : m = 2 ^ 52 * 2 := by omega
      rw [hbiased, hfraction, if_neg (Nat.succ_ne_zero (k + 1)), Nat.add_sub_cancel, hcarried]
      push_cast
      rw [← add_assoc, zpow_add_one₀ two_ne_zero]
      ring

/-- **No double is nearer than the rounded steps.** -/
theorem steps_nearest (hnum : 0 < r.num) (hden : 0 < r.den) {w : Finite} (hw : w.IsDouble) :
    |r.steps * 2 ^ r.step - r.toRat| ≤ |w.magnitude.toRat - r.toRat| := by
  have hround := isRounded_steps hden
  have hunit : (0 : ℚ) < 2 ^ r.step := by positivity
  -- In units of the step, the distances are those of `IsRounded`.
  have hscale : ∀ a : ℚ, |a - r.toRat| = |a / 2 ^ r.step - r.toRat / 2 ^ r.step| * 2 ^ r.step := by
    intro a
    rw [← sub_div, abs_div, abs_of_pos hunit, div_mul_cancel₀ _ hunit.ne']
  rw [hscale, hscale w.magnitude.toRat, mul_div_cancel_right₀ _ hunit.ne']
  refine mul_le_mul_of_nonneg_right ?_ hunit.le
  rw [toRat_magnitude, mul_div_assoc, ← zpow_sub₀ two_ne_zero]
  by_cases hexponent : r.step ≤ w.exponent
  · -- A coarser grid is part of this one.
    obtain ⟨n, hn⟩ := Int.eq_ofNat_of_zero_le (sub_nonneg.2 hexponent)
    have hint := hround.nearest (w.mantissa * 2 ^ n : ℕ)
    rw [hn]
    push_cast at hint
    rwa [zpow_natCast]
  · -- A finer grid lies below the first 2⁵² steps of this one.
    rw [not_le] at hexponent
    have hstep := le_toRat_of_step hnum hden (hw.least.trans_lt hexponent)
    have hbelow : (w.mantissa : ℚ) * 2 ^ (w.exponent - r.step) ≤ 2 ^ 52 := by
      have hmantissa : (w.mantissa : ℚ) ≤ 2 ^ 53 := by exact_mod_cast hw.mantissa_lt.le
      have hfine : (2 : ℚ) ^ (w.exponent - r.step) ≤ 2 ^ (-1 : ℤ) :=
        zpow_le_zpow_right₀ one_le_two (by omega)
      calc (w.mantissa : ℚ) * 2 ^ (w.exponent - r.step)
          ≤ 2 ^ 53 * 2 ^ (-1 : ℤ) := mul_le_mul hmantissa hfine (by positivity) (by positivity)
        _ = 2 ^ 52 := by norm_num
    refine (hround.nearest (2 ^ 52)).trans ?_
    rw [Int.cast_pow, Int.cast_ofNat, abs_of_nonpos (sub_nonpos.2 hstep),
      abs_of_nonpos (sub_nonpos.2 (hbelow.trans hstep))]
    linarith

/-- Half a step above the greatest finite double, where infinity begins. -/
def overflow : ℚ := (2 ^ 54 - 1) * 2 ^ 970

/-- `bits` is the finite double nearest to `q`, a number not below zero. -/
structure IsNearest (q : ℚ) (bits : ℕ) : Prop where
  finite : bits < infinityBits
  nearest : ∀ (negative : Bool) {w : Finite}, w.IsDouble →
    |(finiteOfBits negative bits).magnitude.toRat - q| ≤ |w.magnitude.toRat - q|

/-- Of the numbers up to half the least double the nearest double is zero. -/
theorem isNearest_zero {q : ℚ} (hq : 0 ≤ q) (hsmall : 2 * q ≤ 2 ^ leastExponent) :
    IsNearest q 0 := by
  refine ⟨by decide, fun negative w hw => ?_⟩
  have hzero : (finiteOfBits negative 0).magnitude.toRat = 0 := by
    rw [toRat_magnitude]
    exact zero_mul _
  rw [hzero, zero_sub, abs_neg, abs_of_nonneg hq, toRat_magnitude]
  rcases Nat.eq_zero_or_pos w.mantissa with hnone | hsome
  · rw [hnone, Nat.cast_zero, zero_mul, zero_sub, abs_neg, abs_of_nonneg hq]
  · have hone : (1 : ℚ) ≤ w.mantissa := by exact_mod_cast hsome
    have hpow : (2 : ℚ) ^ leastExponent ≤ 2 ^ w.exponent :=
      zpow_le_zpow_right₀ one_le_two hw.least
    have hleast : (2 : ℚ) ^ leastExponent ≤ w.mantissa * 2 ^ w.exponent :=
      hpow.trans (le_mul_of_one_le_left (by positivity) hone)
    exact (by linarith : q ≤ _ - q).trans (le_abs_self _)

/-- Below the overflow the steps stay below `2^1024`. -/
theorem steps_lt (hnum : 0 < r.num) (hden : 0 < r.den) (hr : r.toRat < overflow) :
    (r.steps * 2 ^ r.step : ℚ) < 2 ^ 54 * 2 ^ 970 := by
  have hgreatest : (⟨false, 2 ^ 53 - 1, 971⟩ : Finite).IsDouble :=
    ⟨by decide, by decide, le_rfl⟩
  have hvalue : (⟨false, 2 ^ 53 - 1, 971⟩ : Finite).magnitude.toRat =
      (2 ^ 53 - 1) * (2 ^ 970 * 2) := by
    rw [toRat_magnitude, ← pow_succ]
    norm_num
  have hnearest := steps_nearest hnum hden hgreatest
  rw [hvalue] at hnearest
  unfold overflow at hr
  have hpos : (0 : ℚ) < 2 ^ 970 := by positivity
  generalize (2 : ℚ) ^ 970 = p at *
  generalize (r.steps : ℚ) * 2 ^ r.step = value at *
  have hdistance := (le_abs_self _).trans hnearest
  -- A quotient past the greatest double is less than half a step past it.
  rcases abs_cases ((2 ^ 53 - 1) * (p * 2) - r.toRat) with ⟨heq, -⟩ | ⟨heq, -⟩ <;>
    rw [heq] at hdistance <;> linarith

/-- From infinity's bits on, steps reach `2^1024`. -/
theorem le_of_infinityBits_le {k m : ℕ} (hm : m ≤ 2 ^ 53) (hk : k = 0 ∨ 2 ^ 52 ≤ m)
    (h : infinityBits ≤ k * 2 ^ 52 + m) :
    (2 ^ 54 * 2 ^ 970 : ℚ) ≤ m * 2 ^ (leastExponent + k) := by
  have hinf := infinityBits_eq
  have hreach : ∀ n : ℕ, 2044 + n ≤ k → 2 ^ 54 ≤ m * 2 ^ n →
      (2 ^ 54 * 2 ^ 970 : ℚ) ≤ m * 2 ^ (leastExponent + k) := by
    intro n hn hmany
    have hpow : (2 ^ n * 2 ^ 970 : ℚ) ≤ 2 ^ (leastExponent + k) := by
      rw [← pow_add, ← zpow_natCast]
      refine zpow_le_zpow_right₀ one_le_two ?_
      unfold leastExponent
      omega
    have hrat : (2 ^ 54 : ℚ) ≤ m * 2 ^ n := by exact_mod_cast hmany
    calc (2 ^ 54 * 2 ^ 970 : ℚ) ≤ m * 2 ^ n * 2 ^ 970 :=
          mul_le_mul_of_nonneg_right hrat (by positivity)
      _ = m * (2 ^ n * 2 ^ 970) := mul_assoc ..
      _ ≤ m * 2 ^ (leastExponent + k) := mul_le_mul_of_nonneg_left hpow (by positivity)
  -- The last exponent is passed by its carry, or by one more.
  have hcases : 2045 ≤ k ∧ 2 ^ 53 ≤ m ∨ 2046 ≤ k ∧ 2 ^ 52 ≤ m := by omega
  rcases hcases with ⟨hlow, hmany⟩ | ⟨hlow, hmany⟩
  · exact hreach 1 hlow (by omega)
  · exact hreach 2 hlow (by omega)

/-- **THE BITS FOUND ARE THOSE OF THE NEAREST DOUBLE.** -/
theorem nearestBits_spec (hden : 0 < r.den) (hr : r.toRat < overflow) :
    IsNearest r.toRat (nearestBits r) := by
  rcases Nat.eq_zero_or_pos r.num with hzero | hnum
  · rw [nearestBits, if_pos hzero, Quotient.toRat, hzero, Nat.cast_zero, zero_div]
    exact isNearest_zero le_rfl (by rw [mul_zero]; positivity)
  · have hleast : leastExponent ≤ r.step := le_max_right ..
    obtain ⟨k, hk⟩ := Int.eq_ofNat_of_zero_le (sub_nonneg.2 hleast)
    have hstep : r.step = leastExponent + k := by omega
    have hle := steps_le hnum hden
    have hmany : k = 0 ∨ 2 ^ 52 ≤ r.steps := by
      rcases Nat.eq_zero_or_pos k with hk | hk
      · exact .inl hk
      · exact .inr (le_steps hnum hden (by omega))
    have hfinite : k * 2 ^ 52 + r.steps < infinityBits := by
      by_contra hinfinite
      have hlarge := le_of_infinityBits_le hle hmany (not_lt.1 hinfinite)
      rw [← hstep] at hlarge
      exact absurd (steps_lt hnum hden hr) (not_lt.2 hlarge)
    have hbits : nearestBits r = k * 2 ^ 52 + r.steps := by
      rw [nearestBits_eq hnum, hk, Int.toNat_natCast, min_eq_left hfinite.le]
    refine ⟨hbits ▸ hfinite, fun negative w hw => ?_⟩
    rw [magnitude_finiteOfBits negative hbits hle hmany, ← hstep]
    exact steps_nearest hnum hden hw

/-! ## §6. The nearest double to a numeral. -/

theorem digitCount_le_iff {n k : ℕ} (h : 0 < k) : digitCount n ≤ k ↔ n < 10 ^ k :=
  Nat.length_toDigits_le_iff (by decide) h

theorem lt_pow_digitCount (n : ℕ) : n < 10 ^ digitCount n :=
  (digitCount_le_iff (digitCount_pos n)).1 le_rfl

theorem pow_digitCount_le {n : ℕ} (h : 0 < n) : 10 ^ (digitCount n - 1) ≤ n := by
  by_contra hlt
  rw [not_le] at hlt
  rcases Nat.eq_zero_or_pos (digitCount n - 1) with hone | hmore
  · rw [hone, Nat.pow_zero] at hlt
    omega
  · have hle := (digitCount_le_iff hmore).2 hlt
    have hpos := digitCount_pos n
    omega

/-- A numeral lies between two powers of ten. -/
theorem numeral_size {digits : ℕ} (h : 0 < digits) (exponent : ℤ) :
    (10 : ℚ) ^ (exponent + digitCount digits - 1) ≤ digits * 10 ^ exponent ∧
      (digits * 10 ^ exponent : ℚ) < 10 ^ (exponent + digitCount digits) := by
  have hpos : (0 : ℚ) < 10 ^ exponent := by positivity
  have hlow : (10 : ℚ) ^ (digitCount digits - 1) ≤ digits := by
    exact_mod_cast pow_digitCount_le h
  have hhigh : (digits : ℚ) < 10 ^ digitCount digits := by
    exact_mod_cast lt_pow_digitCount digits
  constructor
  · rw [add_sub_assoc, ← Nat.cast_pred (digitCount_pos digits), zpow_add₀ (by decide),
      zpow_natCast, mul_comm]
    exact mul_le_mul_of_nonneg_right hlow hpos.le
  · rw [zpow_add₀ (by decide), zpow_natCast, mul_comm]
    exact mul_lt_mul_of_pos_left hhigh hpos

/-- What is settled as zero is nearest to zero. -/
theorem two_mul_le_of_tiny : 2 * (10 : ℚ) ^ tinySize ≤ 2 ^ leastExponent := by
  have hnat : 2 * 2 ^ 1074 ≤ 10 ^ 330 := by decide +kernel
  have hrat : (2 * 2 ^ 1074 : ℚ) ≤ 10 ^ 330 := by exact_mod_cast hnat
  show 2 * (10 : ℚ) ^ (-330 : ℤ) ≤ 2 ^ (-1074 : ℤ)
  rw [zpow_neg, zpow_neg, zpow_ofNat, zpow_ofNat, ← div_eq_mul_inv,
    div_le_iff₀ (by positivity), inv_mul_eq_div, le_div_iff₀ (by positivity)]
  exact hrat

/-- What is settled as infinite is infinite. -/
theorem overflow_lt_huge : overflow < (10 : ℚ) ^ (hugeSize - 1) := by
  have hnat : 2 ^ 54 * 2 ^ 970 ≤ 10 ^ 309 := by decide +kernel
  have hrat : (2 ^ 54 * 2 ^ 970 : ℚ) ≤ 10 ^ 309 := by exact_mod_cast hnat
  have hpos : (0 : ℚ) < 2 ^ 970 := by positivity
  show overflow < (10 : ℚ) ^ (309 : ℤ)
  rw [zpow_ofNat]
  refine lt_of_lt_of_le ?_ hrat
  unfold overflow
  exact mul_lt_mul_of_pos_right (sub_one_lt _) hpos

/-- **THE BITS OF A NUMERAL ARE THOSE OF THE NEAREST DOUBLE**, those settled by
their size alone as well. -/
theorem scaledBits_spec (digits : ℕ) (exponent : ℤ)
    (h : (digits * 10 ^ exponent : ℚ) < overflow) :
    IsNearest (digits * 10 ^ exponent) (scaledBits digits exponent) := by
  unfold scaledBits
  dsimp only
  split
  next htiny =>
    refine isNearest_zero (by positivity) (le_trans ?_ two_mul_le_of_tiny)
    refine mul_le_mul_of_nonneg_left ?_ two_pos.le
    rcases Nat.eq_zero_or_pos digits with rfl | hpos
    · rw [Nat.cast_zero, zero_mul]
      positivity
    · have hsize := htiny.resolve_left hpos.ne'
      exact (numeral_size hpos exponent).2.le.trans
        (zpow_le_zpow_right₀ (by norm_num) hsize)
  next hnot =>
    rw [not_or] at hnot
    split
    next hhuge =>
      have hlow := (numeral_size (Nat.pos_of_ne_zero hnot.1) exponent).1
      have hpow : (10 : ℚ) ^ (hugeSize - 1) ≤ 10 ^ (exponent + digitCount digits - 1) :=
        zpow_le_zpow_right₀ (by norm_num) (by omega)
      exact absurd (hpow.trans hlow) (not_le.2 (h.trans overflow_lt_huge))
    next =>
      have hvalue : (Quotient.scale ⟨digits, 1⟩ exponent).toRat = digits * 10 ^ exponent := by
        rw [toRat_scale, Quotient.toRat, Nat.cast_one, div_one]
      rw [← hvalue] at h ⊢
      exact nearestBits_spec (Nat.mul_pos one_pos (Nat.pow_pos (by decide))) h

end FormulaDesk.Number
