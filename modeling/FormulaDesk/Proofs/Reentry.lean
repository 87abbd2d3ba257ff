/-
  FormulaDesk.Proofs.Reentry
  ──────────────────────────────────────
  **A SHOWN VALUE CAN BE TYPED IN AGAIN.**

  A value is shown on a decimal grid and read back on the grid of the doubles,
  and both times the nearest point is taken.  The value itself is a double, so
  the double that is read back is no farther from the shown number than the
  value was; it is therefore shown by the same number, ties included, and lies
  at most a unit of the last place away.

    • `Number.number?_toFixed` — the digits shown are the digits read;
    • `Number.readBack` — the two roundings, one after the other;
    • `shown_reenters` — the shown value as a known value.
-/
import FormulaDesk.Proofs.Names
import FormulaDesk.Proofs.Nearest
import FormulaDesk.Report

namespace FormulaDesk

namespace Number

/-! ## §1. The text of a shown value. -/

/-- Digits behind those of `m`, with zeros in front up to a width. -/
theorem readDigits_paddedDigits (m : ℕ) {n width : ℕ} (h : digitCount n ≤ width) :
    readDigits m (paddedDigits width n) = m * 10 ^ width + n := by
  have hwidth : digitCount n + (width - digitCount n) = width := by omega
  show Nat.ofDigitChars 10 (List.replicate (width - digitCount n) '0' ++ Nat.toDigits 10 n) m = _
  rw [Nat.ofDigitChars_append, Nat.ofDigitChars_replicate_zero,
    Nat.ofDigitChars_eq_ofDigitChars_zero, Nat.ofDigitChars_ten_toDigits, ← mul_assoc,
    ← pow_add, show (Nat.toDigits 10 n).length = digitCount n from rfl, hwidth, mul_comm]

theorem length_paddedDigits {n width : ℕ} (h : digitCount n ≤ width) :
    (paddedDigits width n).length = width := by
  rw [paddedDigits, List.length_append, List.length_replicate, ← digitCount]
  omega

theorem all_isDigit_digitsOf (n : ℕ) : (digitsOf n).all Char.isDigit = true :=
  List.all_eq_true.2 fun _ hc => Nat.isDigit_of_mem_toDigits (by decide) (by decide) hc

theorem digitsOf_ne_nil (n : ℕ) : digitsOf n ≠ [] := Nat.toDigits_ne_nil

/-- **A number with its decimal places is a number of a formula**: its digits
are the units of the last place, and as many stand behind the point. -/
theorem exists_placed (places units : ℕ) : ∃ whole fraction,
    (Lexeme.number whole fraction).Sound ∧
    placed places units = (Lexeme.number whole fraction).text ∧
    readDigits 0 (whole ++ fraction.getD []) = units ∧ (fraction.getD []).length = places := by
  have hread : ∀ n, readDigits 0 (digitsOf n) = n := fun n => Nat.ofDigitChars_ten_toDigits
  rcases Nat.eq_zero_or_pos places with rfl | hplaces
  · refine ⟨digitsOf units, none, ⟨digitsOf_ne_nil _, all_isDigit_digitsOf _⟩, rfl, ?_, rfl⟩
    show readDigits 0 (digitsOf units ++ []) = units
    rw [List.append_nil, hread]
  · have hpow : Nat.pow 10 places = 10 ^ places := rfl
    have hcount : digitCount (units % 10 ^ places) ≤ places :=
      (digitCount_le_iff hplaces).2 (Nat.mod_lt _ (by positivity))
    refine ⟨digitsOf (units / 10 ^ places), some (paddedDigits places (units % 10 ^ places)),
      ⟨⟨digitsOf_ne_nil _, all_isDigit_digitsOf _⟩, ?_⟩, ?_, ?_, length_paddedDigits hcount⟩
    · rw [paddedDigits, List.all_append, all_isDigit_digitsOf, Bool.and_true]
      exact List.all_eq_true.2 fun c hc => by rw [List.eq_of_mem_replicate hc]; rfl
    · rw [placed, if_neg hplaces.ne', hpow]
      rfl
    · show readDigits 0 (digitsOf (units / 10 ^ places) ++ paddedDigits places _) = units
      have happend : ∀ cs ds, readDigits 0 (cs ++ ds) = readDigits (readDigits 0 cs) ds :=
        fun cs ds => List.foldl_append
      rw [happend, hread, readDigits_paddedDigits _ hcount, Nat.div_add_mod']

/-- **The digits shown are the digits read**, and the sign as well. -/
theorem number?_toFixed (places : ℕ) (v : Finite) :
    number? (v.toFixed places) =
      some (Numeral.toFloat ⟨v.negative, unitsAt places v.magnitude, -(places : ℤ)⟩) := by
  obtain ⟨whole, fraction, hsound, htext, hunits, hlength⟩ :=
    exists_placed places (unitsAt places v.magnitude)
  have hnumeral := unsignedNumeral?_number v.negative hsound
  rw [hunits, hlength] at hnumeral
  obtain ⟨c, body, hbody, hc⟩ := Lexeme.exists_digit_of_number hsound
  have hunsigned : unsigned (signText v.negative ++ c :: body) = (v.negative, c :: body) := by
    cases v.negative with
    | true => rfl
    | false => exact unsigned_cons (ne_of_class hc rfl) (ne_of_class hc rfl) body
  rw [Finite.toFixed, htext, hbody, number?_digit hunsigned hc, ← hbody, hnumeral]
  rfl

/-- A shown value has no blank at its ends. -/
theorem solid_toFixed (places : ℕ) (v : Finite) : Solid (v.toFixed places) := by
  obtain ⟨whole, fraction, hsound, htext, -⟩ := exists_placed places (unitsAt places v.magnitude)
  have hsolid := Lexeme.solid hsound
  rw [Finite.toFixed, htext]
  cases v.negative with
  | true => exact (Solid.singleton (c := '-') rfl).append hsolid []
  | false => exact hsolid

/-- A shown value is one piece of known values. -/
theorem isSeparator_toFixed (places : ℕ) (v : Finite) :
    ∀ c ∈ v.toFixed places, KnownValues.isSeparator c = false := by
  obtain ⟨whole, fraction, hsound, htext, -⟩ := exists_placed places (unitsAt places v.magnitude)
  rw [Finite.toFixed, htext, List.forall_mem_append]
  constructor
  · cases v.negative with
    | true => simp [signText, KnownValues.isSeparator]
    | false => simp [signText]
  · intro c hc
    rcases Lexeme.of_mem_number hsound hc with hdigit | rfl
    · exact KnownValues.isSeparator_eq_false_of_isNameChar (isNameChar_iff.2 (.inr hdigit))
    · rfl

/-! ## §2. Two roundings. -/

theorem magnitude_den_pos (v : Finite) : 0 < v.magnitude.den := Nat.pow_pos two_pos

/-- The units that are shown are the nearest ones. -/
theorem isRounded_unitsAt (places : ℕ) (v : Finite) :
    IsRounded (v.magnitude.toRat * 10 ^ places) (unitsAt places v.magnitude) := by
  have hround :=
    isRounded_roundHalfEven (v.magnitude.num * Nat.pow 10 places) (magnitude_den_pos v)
  have hvalue : ((v.magnitude.num * Nat.pow 10 places : ℕ) : ℚ) / v.magnitude.den =
      v.magnitude.toRat * 10 ^ places := by
    rw [Quotient.toRat, Nat.pow_eq, Nat.cast_mul, Nat.cast_pow, Nat.cast_ofNat, div_mul_eq_mul_div]
  rwa [hvalue] at hround

/-- The number that is shown for a finite double, without its sign. -/
def Finite.shownAt (places : ℕ) (v : Finite) : ℚ := unitsAt places v.magnitude / 10 ^ places

/-- Distances from a shown number, in units of its last place. -/
theorem abs_sub_shownAt_mul (places : ℕ) (v : Finite) (a : ℚ) :
    |a - v.shownAt places| * 10 ^ places = |unitsAt places v.magnitude - a * 10 ^ places| := by
  have hunit : (0 : ℚ) < 10 ^ places := by positivity
  rw [Finite.shownAt, ← abs_of_pos hunit, ← abs_mul, abs_of_pos hunit, sub_mul,
    div_mul_cancel₀ _ hunit.ne', abs_sub_comm]

/-- A shown number is half a unit of its last place away at most. -/
theorem abs_sub_shownAt_le (places : ℕ) (v : Finite) :
    |v.magnitude.toRat - v.shownAt places| ≤ 1 / 2 / 10 ^ places := by
  rw [le_div_iff₀ (by positivity), abs_sub_shownAt_mul]
  exact (isRounded_unitsAt places v).close

section Closer

variable {places : ℕ} {v v' : Finite}
  (hcloser : |v'.magnitude.toRat - v.shownAt places| ≤ |v.magnitude.toRat - v.shownAt places|)

include hcloser

/-- **What lies nearer to the shown number is shown alike.** -/
theorem unitsAt_eq_of_closer : unitsAt places v'.magnitude = unitsAt places v.magnitude := by
  refine (isRounded_unitsAt places v').unique ((isRounded_unitsAt places v).of_closer ?_)
  rw [← abs_sub_shownAt_mul, ← abs_sub_shownAt_mul]
  exact mul_le_mul_of_nonneg_right hcloser (by positivity)

theorem abs_sub_le_of_closer :
    |v'.magnitude.toRat - v.magnitude.toRat| ≤ 1 / 10 ^ places := by
  have hclose := abs_sub_shownAt_le places v
  calc |v'.magnitude.toRat - v.magnitude.toRat|
      ≤ |v'.magnitude.toRat - v.shownAt places| + |v.shownAt places - v.magnitude.toRat| :=
        abs_sub_le _ _ _
    _ ≤ 1 / 2 / 10 ^ places + 1 / 2 / 10 ^ places := by
        rw [abs_sub_comm (v.shownAt places)]
        exact add_le_add (hcloser.trans hclose) hclose
    _ = 1 / 10 ^ places := by ring

end Closer

/-- The shown number of a finite double is below the overflow. -/
theorem shownAt_lt_overflow {v : Finite} (hv : v.IsDouble) (places : ℕ) :
    v.shownAt places < overflow := by
  have hgreatest := hv.le_greatest
  have hshown := neg_le_of_abs_le (abs_sub_shownAt_le places v)
  have hplace : (1 / 2 / 10 ^ places : ℚ) ≤ 1 / 2 :=
    div_le_self (by norm_num) (one_le_pow₀ (by norm_num))
  have hone : (1 : ℚ) ≤ 2 ^ 970 := one_le_pow₀ one_le_two
  rw [pow_succ (2 : ℚ) 970] at hgreatest
  unfold overflow
  generalize (2 : ℚ) ^ 970 = p at *
  linarith

/-- **THE TWO ROUNDINGS.**  What is shown for a double is read as a double of
its sign that is shown alike, a unit of the last place away at most: the double
itself is a candidate for the nearest one. -/
theorem readBack {v : Finite} (hv : v.IsDouble) (places : ℕ) :
    ∃ v', Double.ofFloat
        (Numeral.toFloat ⟨v.negative, unitsAt places v.magnitude, -(places : ℤ)⟩) = .finite v' ∧
      v'.negative = v.negative ∧
      unitsAt places v'.magnitude = unitsAt places v.magnitude ∧
      |v'.magnitude.toRat - v.magnitude.toRat| ≤ 1 / 10 ^ places := by
  have hnumeral : (unitsAt places v.magnitude * 10 ^ (-(places : ℤ)) : ℚ) = v.shownAt places := by
    rw [Finite.shownAt, zpow_neg, zpow_natCast, div_eq_mul_inv]
  have hoverflow := shownAt_lt_overflow hv places
  rw [← hnumeral] at hoverflow
  obtain ⟨hfinite, hnearest⟩ := scaledBits_spec _ _ hoverflow
  have hcloser := hnearest v.negative hv
  rw [hnumeral] at hcloser
  exact ⟨_, ofFloat_signed v.negative hfinite, negative_finiteOfBits ..,
    unitsAt_eq_of_closer hcloser, abs_sub_le_of_closer hcloser⟩

/-- Under one sign, values are as far apart as magnitudes. -/
theorem abs_toRat_sub {v v' : Finite} (h : v'.negative = v.negative) :
    |v'.toRat - v.toRat| = |v'.magnitude.toRat - v.magnitude.toRat| := by
  unfold Finite.toRat
  rw [h]
  cases v.negative with
  | true => rw [if_pos rfl, if_pos rfl, neg_sub_neg, abs_sub_comm]
  | false => rw [if_neg Bool.false_ne_true, if_neg Bool.false_ne_true]

end Number

/-! ## §3. The shown value as a known value. -/

theorem shown_finite {x : Float} {v : Number.Finite} (h : Number.Double.ofFloat x = .finite v)
    (decimals : ℕ) : shown decimals x = .ofList (v.toFixed decimals) := by
  rw [shown, h]

/-- **A SHOWN VALUE CAN BE TYPED IN AGAIN**, with any number of decimals: it
gives the name a finite value that is shown by the same text, its sign
included, and is as near as the decimals tell. -/
theorem shown_reenters {x : Float} {v : Number.Finite} (h : Number.Double.ofFloat x = .finite v)
    (decimals : ℕ) :
    ∃ (x' : Float) (v' : Number.Finite),
      KnownValues.ofText ("x = " ++ shown decimals x) = .ok (.ofEntries [("x", x')]) ∧
      Number.Double.ofFloat x' = .finite v' ∧
      shown decimals x' = shown decimals x ∧
      |v'.toRat - v.toRat| ≤ 1 / 10 ^ decimals := by
  obtain ⟨v', hfloat, hsign, hunits, hdistance⟩ :=
    Number.readBack (Number.isDouble_of_ofFloat h) decimals
  refine ⟨_, v', ?_, hfloat, ?_, ?_⟩
  · have htext : ("x = " ++ shown decimals x).toList =
        [] ++ ("x".toList ++ ([' ', '=', ' '] ++ v.toFixed decimals)) := by
      simp [shown_finite h]
    exact (KnownValues.writes_entry [] htext (by simp) rfl (Number.solid_toFixed decimals v)
      (Number.isSeparator_toFixed decimals v) (Number.number?_toFixed decimals v)).ofText_eq
  · rw [shown_finite hfloat, shown_finite h, Number.Finite.toFixed, Number.Finite.toFixed, hsign,
      hunits]
  · rw [Number.abs_toRat_sub hsign]
    exact hdistance

/-- A half below zero is shown without decimals as `-0`, and this is a value. -/
theorem shown_reenters_half :
    shown 0 (Number.signed true 0x3FE0000000000000) = "-0" ∧
    ∃ (x' : Float) (v' : Number.Finite),
      KnownValues.ofText "x = -0" = .ok (.ofEntries [("x", x')]) ∧
      Number.Double.ofFloat x' = .finite v' ∧ shown 0 x' = "-0" ∧
      |v'.toRat - (-1 / 2)| ≤ 1 := by
  have hfloat : Number.Double.ofFloat (Number.signed true 0x3FE0000000000000) =
      .finite ⟨true, 2 ^ 52, -53⟩ := Number.ofFloat_signed true (by decide)
  have hshown : shown 0 (Number.signed true 0x3FE0000000000000) = "-0" := by
    rw [shown_finite hfloat]
    decide
  have hvalue : (⟨true, 2 ^ 52, -53⟩ : Number.Finite).toRat = -1 / 2 := by
    rw [Number.Finite.toRat, if_pos rfl, Number.toRat_magnitude]
    norm_num
  obtain ⟨x', v', htext, hfinite, hagain, hdistance⟩ := shown_reenters hfloat 0
  rw [hshown] at htext hagain
  rw [hvalue, pow_zero, div_one] at hdistance
  exact ⟨hshown, x', v', htext, hfinite, hagain, hdistance⟩

end FormulaDesk
