/-
  FormulaDesk.Text.Blank
  ──────────────────────────────────────
  **BLANKS.**

  The characters of Unicode's property `White_Space`, and what a text is
  without them at its ends or between its words.
-/

namespace FormulaDesk.Text

/-! ## §1. The property. -/

/-- The code points of `White_Space`, as ranges with both ends. -/
def blankRanges : List (Nat × Nat) :=
  [(0x09, 0x0D), (0x20, 0x20), (0x85, 0x85), (0xA0, 0xA0), (0x1680, 0x1680),
   (0x2000, 0x200A), (0x2028, 0x2029), (0x202F, 0x202F), (0x205F, 0x205F),
   (0x3000, 0x3000)]

/-- A character of the property `White_Space`. -/
def isBlank (c : Char) : Bool :=
  blankRanges.any fun (low, high) => low ≤ c.toNat && c.toNat ≤ high

/-- Twenty-five code points have the property. -/
example : (blankRanges.map fun (low, high) => high + 1 - low).sum = 25 := rfl

/-! ## §2. Texts without blanks. -/

/-- The text from its first character that is no blank. -/
def trimStart (cs : List Char) : List Char := cs.dropWhile isBlank

/-- The text up to its last character that is no blank. -/
def trimEnd (cs : List Char) : List Char := (cs.reverse.dropWhile isBlank).reverse

/-- The text without the blanks at its ends. -/
def trim (cs : List Char) : List Char := trimEnd (trimStart cs)

/-- The runs of characters between the blanks. -/
def words (cs : List Char) : List (List Char) :=
  (cs.splitOnP isBlank).filter (· ≠ [])

end FormulaDesk.Text
